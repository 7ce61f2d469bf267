import CPrograming.EpollServer

/-!
# The descriptor that `et` reads

`et` keeps the descriptor of an event in `sockfd`, and the result of `accept` in `connfd`. Its
`recv` is on `connfd`, which has no value at the beginning of a call.
-/

namespace CPrograming
namespace EpollServer

open Runs

def assign (connfd : ℤ) : Action → ℤ
  | .wait garbage => garbage
  | .accept fd => fd
  | .acceptFail => -1
  | _ => connfd

/-- What a run leaves in `connfd`: the result of the last `accept` of the call, or what the call
found there. -/
def latest (connfd : ℤ) (as : List Action) : ℤ := as.foldl assign connfd

/-- A `recv` of the run `as` from `s`: it comes after the actions `before`, in the state `u`,
and is for the event `ev`. -/
structure RecvAt (listenfd : ℤ) (s : State) (as before : List Action) (u t : State) (ev : Event)
    (a : ReadAnswer) : Prop where
  within : ∃ after, as = before ++ .recv a :: after
  reached : exec (step .et listenfd) s before = some u
  handled : ∃ left, u.place = .events (ev :: left)
  called : step .et listenfd u (.recv a) = some t

/-- Every `recv` of a run is on the descriptor of the event that it is for. -/
def Consumes (listenfd : ℤ) (s : State) (as : List Action) : Prop :=
  ∀ (before : List Action) (u t : State) (ev : Event) (a : ReadAnswer),
    RecvAt listenfd s as before u t ev a → t.log = u.log ++ [.recv ev.fd (a.upTo 1)]

theorem addfd_connfd (s : State) (fd : ℤ) (enableEt : Bool) :
    (s.addfd fd enableEt).connfd = s.connfd := by
  simp only [State.addfd]
  split_ifs <;> rfl

theorem accepted_connfd (s : State) (fd : ℤ) : (State.accepted .et s fd).connfd = fd := by
  rw [State.accepted,addfd_connfd]

theorem step_connfd {listenfd : ℤ} {s t : State} {a : Action}
    (h : step .et listenfd s a = some t) : t.connfd = assign s.connfd a := by
  cases step_cases h with
  | connect | event | wait | waitFail | recv | skip | finish => rfl
  | accept fd => exact accepted_connfd _ fd
  | acceptFail => exact accepted_connfd _ (-1)

theorem exec_connfd {listenfd : ℤ} {s t : State} {as : List Action}
    (h : exec (step .et listenfd) s as = some t) : t.connfd = latest s.connfd as := by
  induction as generalizing s with
  | nil =>
    obtain rfl := Option.some.inj h
    rfl
  | cons a as ih =>
    obtain ⟨u,hu,hrest⟩ := Option.bind_eq_some_iff.mp h
    rw [ih hrest,step_connfd hu]
    rfl

theorem recv_log {listenfd : ℤ} {s t : State} {a : ReadAnswer}
    (h : step .et listenfd s (.recv a) = some t) :
    t.log = s.log ++ [.recv s.connfd (a.upTo 1)] := by
  cases step_cases h with
  | recv => rfl

theorem RecvAt.own_iff {listenfd : ℤ} {s u t : State} {as before : List Action} {ev : Event}
    {a : ReadAnswer} (h : RecvAt listenfd s as before u t ev a) :
    t.log = u.log ++ [.recv ev.fd (a.upTo 1)] ↔ latest s.connfd before = ev.fd := by
  rw [recv_log h.called,exec_connfd h.reached,List.append_cancel_left_eq,List.singleton_inj,
    Entry.recv.injEq]
  exact and_iff_left rfl

/-- From every state, whatever events there are to handle, each `recv` is on the descriptor of
its event exactly if this is the result of the last `accept` in the same call of `et`, or, with
no `accept` before, what the call found in `connfd`. -/
theorem consumes_iff (listenfd : ℤ) (s : State) (as : List Action) :
    Consumes listenfd s as ↔
      ∀ (before : List Action) (u t : State) (ev : Event) (a : ReadAnswer),
        RecvAt listenfd s as before u t ev a → latest s.connfd before = ev.fd := by
  constructor
  · intro h before u t ev a hat
    exact hat.own_iff.mp (h before u t ev a hat)
  · intro h before u t ev a hat
    exact hat.own_iff.mpr (h before u t ev a hat)

theorem not_consumes (listenfd : ℤ) (s : State) (before : List Action) (a : ReadAnswer)
    (ev : Event) (left : List Event)
    (hplace : (exec (step .et listenfd) s before).map State.place = some (.events (ev :: left)))
    (hev : ev.fd ≠ listenfd ∧ ev.epollin) (hother : latest s.connfd before ≠ ev.fd) :
    ¬ Consumes listenfd s (before ++ [.recv a]) := by
  intro h
  obtain ⟨u,hrun,hu⟩ := Option.map_eq_some_iff.mp hplace
  have hcall : step .et listenfd u (.recv a) =
      some (State.recv .et { u with place := .events left } ev.fd a) := by
    simp only [step,hu,if_pos hev]
  have hat : RecvAt listenfd s (before ++ [.recv a]) before u _ ev a :=
    ⟨⟨[],rfl⟩,hrun,⟨left,hu⟩,hcall⟩
  exact hother (hat.own_iff.mp (h before u _ ev a hat))

/-- The connection 4 has sent a byte. In the first run `connfd` holds 7, in the second it holds
the connection 5 that the same call of `et` has accepted. -/
theorem recv_elsewhere :
    ¬ Consumes 3 (start 3) [.connect 0,.wait 7,.accept 4,.finish,.event ⟨4,true⟩,.wait 7,
        .recv (.data [65])] ∧
      ¬ Consumes 3 (start 3) [.connect 0,.wait 7,.accept 4,.finish,.connect 1,.event ⟨4,true⟩,
        .wait 7,.accept 5,.recv (.data [65])] := by
  constructor
  · exact not_consumes 3 (start 3) [.connect 0,.wait 7,.accept 4,.finish,.event ⟨4,true⟩,.wait 7]
      (.data [65]) ⟨4,true⟩ [] (by decide +kernel) (by decide) (by decide)
  · exact not_consumes 3 (start 3) [.connect 0,.wait 7,.accept 4,.finish,.connect 1,
      .event ⟨4,true⟩,.wait 7,.accept 5] (.data [65]) ⟨4,true⟩ [] (by decide +kernel) (by decide)
      (by decide)

end EpollServer
end CPrograming
