import CPrograming.SelectServer
import CPrograming.PollServer

/-!
# What the echo servers send back

Both servers read into one buffer and write from it, whichever client is served, and
descriptors and table entries are used again. Still each connection gets back its own
bytes only, because every step that reads writes before it ends.
-/

namespace CPrograming
namespace EchoServer

open Runs

theorem Echoing.others {W : Type} {log es : List (Event W)} (h : Echoing log)
    (hread : ∀ fd got, .read fd got ∈ es → got.bytes = [])
    (hwrite : ∀ fd sent ret, .write fd sent ret ∉ es) : Echoing (log ++ es) := by
  induction es generalizing log with
  | nil => simpa using h
  | cons e es ih =>
    rw [List.append_cons]
    refine ih (h.other ?_ ?_) ?_ ?_
    · rintro fd got rfl
      exact hread fd got List.mem_cons_self
    · rintro fd sent ret rfl
      exact hwrite fd sent ret List.mem_cons_self
    · intro fd got hmem
      exact hread fd got (List.mem_cons_of_mem e hmem)
    · intro fd sent ret hmem
      exact hwrite fd sent ret (List.mem_cons_of_mem e hmem)

end EchoServer

namespace SelectServer

open EchoServer

variable {size : ℕ} {s t : State size} {a : Answers}

theorem Visit.echoing {i : Fin size} (ht : Visit s i a t) (h : Echoing s.log) :
    Echoing t.log := by
  cases ht with
  | free => exact h
  | outside | idle => exact h.others (by simp) (by simp)
  | closed got hfd hready heof => exact h.others (by simp [heof]) (by simp)
  | echoed got sent ret buffer hfd hready hsent =>
    have hprinted : Echoing (s.log ++ [Event.print "clnt_sock %d process\n" [.int (s.client i)]]) :=
      h.others (by simp) (by simp)
    have hecho : Echoing (s.log ++ [Event.print "clnt_sock %d process\n" [.int (s.client i)]] ++
        (Event.read (s.client i) got ::
          [Event.print "read %d bytes from client\n" [.int got.ret]] ++
          [Event.write (s.client i) sent ret])) := hprinted.echo (by simp) hsent
    rwa [List.append_assoc] at hecho

theorem step_echoing (hstep : step s a = some t) (h : Echoing s.log) : Echoing t.log := by
  cases step_cases hstep with
  | wait => exact h.others (by simp) (by simp)
  | accept =>
    simp only [State.accept]
    split_ifs <;> exact h.others (by simp) (by simp)
  | visit i _ hvisit => exact hvisit.echoing h
  | beyond | finish => exact h

end SelectServer

namespace PollServer

open EchoServer

variable {m : ℕ} {s t : State m} {a : Answers}

theorem Visit.echoing {i : Fin (m+1)} (ht : Visit s i a t) (h : Echoing s.log) :
    Echoing t.log := by
  cases ht with
  | idle => exact h.others (by simp [State.report]) (by simp [State.report])
  | reset | failed | eof =>
    exact h.others (by simp [State.report,ReadAnswer.bytes]) (by simp [State.report])
  | echoed bytes sent ret buffer hready hne hsent =>
    have hprinted : Echoing (s.log ++ [s.report i]) :=
      h.others (by simp [State.report]) (by simp [State.report])
    have hecho : Echoing (s.log ++ [s.report i] ++
        (Event.read (s.client i).fd (.data bytes) :: [] ++
          [Event.write (s.client i).fd sent ret])) := hprinted.echo (by simp) hsent
    rwa [List.append_assoc] at hecho

theorem step_echoing (hstep : step s a = some t) (h : Echoing s.log) : Echoing t.log := by
  cases step_cases hstep with
  | wait => exact h.others (by simp) (by simp)
  | accept =>
    simp only [State.accept]
    split <;> exact h.others (by simp) (by simp)
  | visit i _ _ hvisit => exact (visit_cases hvisit).echoing h
  | beyond | finish => exact h

end PollServer

namespace EchoServer

open Runs

/-- Every connection, from the `accept` that returns its
descriptor to the next one that does, has been sent exactly the bytes it sent, as long as
no write to it failed. -/
def Isolated {W : Type} (log : List (Event W)) : Prop :=
  ∀ pre fd post, log = pre ++ .accept fd :: post → 0 ≤ fd →
    (∀ sent ret, .write fd sent ret ∈ session Event.accepted fd post → ret ≠ -1) →
      writtenTo fd (session Event.accepted fd post) = readFrom fd (session Event.accepted fd post)

theorem Echoing.isolated {W : Type} {log : List (Event W)} (h : Echoing log) : Isolated log := by
  intro pre fd post hlog hfd
  exact h.everySession pre (.accept fd) post fd hlog (if_pos hfd)

/-- In every run of either server, with any number of clients and any interleaving, every
connection is sent back its own bytes in order and nothing else. -/
theorem echo_isolated :
    (∀ (size : ℕ) (base : FdSet) (serve : ℤ) (buffer : Memory UInt8)
      (t : SelectServer.State size),
      Reachable SelectServer.step (SelectServer.start size base serve buffer) t →
        Isolated t.log) ∧
    ∀ (m : ℕ) (base : FdSet) (listenfd : ℤ) (garbage : Fin (m+1) → PollServer.PollFd)
      (buffer : Memory UInt8) (t : PollServer.State m),
      Reachable PollServer.step (PollServer.start base listenfd garbage buffer) t →
        Isolated t.log := by
  constructor
  · intro size base serve buffer t hrun
    have hecho : Echoing t.log := hrun.invariant (I := fun x => Echoing x.log) .nil
      fun a x y hx hxy => SelectServer.step_echoing hxy hx
    exact hecho.isolated
  · intro m base listenfd garbage buffer t hrun
    have hecho : Echoing t.log := hrun.invariant (I := fun x => Echoing x.log) .nil
      fun a x y hx hxy => PollServer.step_echoing hxy hx
    exact hecho.isolated

def allWritten {W : Type} (log : List (Event W)) : Bool :=
  log.all fun e =>
    match e with
    | .write _ _ ret => ret ≠ -1
    | _ => true

/-- When no write has failed, every connection in the log has been sent what it sent. -/
theorem Isolated.connection {W : Type} {log : List (Event W)} {fd : ℤ} (h : Isolated log)
    (hall : allWritten log = true) (hmem : .accept fd ∈ log) (hfd : 0 ≤ fd) :
    ∃ pre post, log = pre ++ .accept fd :: post ∧
      writtenTo fd (session Event.accepted fd post) =
        readFrom fd (session Event.accepted fd post) := by
  obtain ⟨pre,post,hlog⟩ := List.append_of_mem hmem
  refine ⟨pre,post,hlog,h pre fd post hlog hfd ?_⟩
  intro sent ret hwrite
  have hpost : .write fd sent ret ∈ post := (List.takeWhile_sublist _).subset hwrite
  have hok := List.all_eq_true.mp hall (.write fd sent ret) (by simp [hlog,hpost])
  simpa using hok

/-- Two clients of each server, with writes that are cut short and interrupted. -/
theorem echo_isolated_two :
    (∃ (t : SelectServer.State 4) (pre post : List (Event SelectServer.Selected)),
      t.log = pre ++ .accept 1 :: post ∧ reads t.log = [1,2] ∧ writtenTo 1 t.log = [7,8] ∧
        writtenTo 1 (session Event.accepted 1 post) = readFrom 1 (session Event.accepted 1 post)) ∧
    ∃ (t : PollServer.State 2) (pre post : List (Event PollServer.Polled)),
      t.log = pre ++ .accept 4 :: post ∧ reads t.log = [4,5] ∧ writtenTo 4 t.log = [7,8] ∧
        writtenTo 4 (session Event.accepted 4 post) =
          readFrom 4 (session Event.accepted 4 post) := by
  constructor
  · obtain ⟨t,hrun,ht⟩ := exists_reachable SelectServer.step
      (SelectServer.start 4 {0} 0 fun _ => 0)
      [.ready {0} 1 (.data []),.ready {0} 1 (.data []),.ready {0} 2 (.data []),
        .ready {0} 2 (.data []),.ready {1,2} 0 (.data []),
        ⟨.fail,0,.data [7,8],[.accepted 1,.fail .eintr,.accepted 9]⟩,.ready {1,2} 0 (.data [9])]
      (fun t => t.log.contains (.accept 1) && allWritten t.log && reads t.log = [1,2] &&
        writtenTo 1 t.log = [7,8]) (by decide +kernel)
    simp only [Bool.and_eq_true,decide_eq_true_eq,List.contains_iff_mem] at ht
    obtain ⟨⟨⟨hmem,hall⟩,hreads⟩,hwritten⟩ := ht
    have hisolated := echo_isolated.1 4 {0} 0 _ t hrun
    obtain ⟨pre,post,hlog,hecho⟩ := hisolated.connection hall hmem (by decide)
    exact ⟨t,pre,post,hlog,hreads,hwritten,hecho⟩
  · obtain ⟨t,hrun,ht⟩ := exists_reachable PollServer.step
      (PollServer.start {3} 3 (fun _ => ⟨0,0,0⟩) (fun _ => 0) : PollServer.State 2)
      [.ready [0] 4 (.data []) false,.ready [0] 4 (.data []) false,.ready [0] 5 (.data []) false,
        .ready [0] 5 (.data []) false,.ready [1,2] 0 (.data []) false,
        ⟨.fail,0,.data [7,8],false,[.accepted 1,.fail .eintr,.accepted 9]⟩,
        .ready [] 0 (.data [9]) false]
      (fun t => t.log.contains (.accept 4) && allWritten t.log && reads t.log = [4,5] &&
        writtenTo 4 t.log = [7,8]) (by decide +kernel)
    simp only [Bool.and_eq_true,decide_eq_true_eq,List.contains_iff_mem] at ht
    obtain ⟨⟨⟨hmem,hall⟩,hreads⟩,hwritten⟩ := ht
    have hisolated := echo_isolated.2 2 {3} 3 _ _ t hrun
    obtain ⟨pre,post,hlog,hecho⟩ := hisolated.connection hall hmem (by decide)
    exact ⟨t,pre,post,hlog,hreads,hwritten,hecho⟩

end EchoServer

end CPrograming
