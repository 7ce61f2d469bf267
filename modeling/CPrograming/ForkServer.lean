import CPrograming.Posix
import CPrograming.Runs

/-!
# Children of `server.c`

The parent accepts a connection, forks a child for it and goes on. Its handler `sig_child`
collects the children that have ended. A `SIGCHLD` that comes while one is pending is lost,
and none is delivered while the handler runs; a child may end at any moment, also between
the last `waitpid` of the handler and its return.
-/

namespace CPrograming
namespace ForkServer

open Runs

inductive Main
  | accept
  | test (clntSock : ℤ)
  | fork (clntSock : ℤ)
  | close (clntSock : ℤ)
  | exited
  deriving DecidableEq, Repr

inductive Handler
  | waitpid
  | print (pid : ℕ) (stat : ℤ)
  | ret
  deriving DecidableEq, Repr

def sigchld : ℤ := 17

/-- The parent, its handler while it runs, the pending bit of `SIGCHLD`, the children that run
and those that have ended with their status, and the lines that the handler has printed. -/
structure State where
  main : Main
  handler : Option Handler
  pending : Bool
  errno : Errno
  running : List ℕ
  zombies : List (ℕ × ℤ)
  printed : List (ℕ × ℤ × ℤ)
  deriving DecidableEq, Repr

def start : State := ⟨.accept,none,false,.other,[],[],[]⟩

inductive Action
  | accepted (clntSock : ℕ)
  | acceptFail (errno : Errno)
  | main
  | fork (pid : ℕ)
  | forkFail
  | exit (pid : ℕ) (stat : ℤ)
  | signal
  | deliver
  | handler (k : ℕ)
  deriving DecidableEq, Repr

/-- The statements of `main` that no environment takes part in. -/
def Main.next (errno : Errno) : Main → Option Main
  | .test clntSock =>
    if clntSock < 0 then if errno = .eintr then some .accept else some .exited
    else some (.fork clntSock)
  | .close _ => some .accept
  | .accept | .fork _ | .exited => none

/-- A statement of `sig_child`. Its `waitpid` gives the `k`-th of the children that have ended,
or fails: with 0 if others run, or with -1 and a new `errno`. -/
def State.handle (s : State) (k : ℕ) : Handler → Option State
  | .waitpid =>
    if s.zombies = [] then
      some { s with
        handler := some .ret
        errno := if s.running = [] then .other else s.errno }
    else
      s.zombies[k]?.map fun child =>
        { s with handler := some (.print child.1 child.2), zombies := s.zombies.eraseIdx k }
  | .print pid stat =>
    some { s with handler := some .waitpid, printed := s.printed ++ [(pid,stat,sigchld)] }
  | .ret => some { s with handler := none }

/-- The parent goes on only when the handler does not run. -/
def step (s : State) : Action → Option State
  | .accepted clntSock =>
    if s.handler = none ∧ s.main = .accept then some { s with main := .test clntSock } else none
  | .acceptFail errno =>
    if s.handler = none ∧ s.main = .accept then some { s with main := .test (-1), errno := errno }
    else none
  | .main =>
    if s.handler = none then (s.main.next s.errno).map fun main => { s with main := main } else none
  | .fork pid =>
    match s.main with
    | .fork clntSock =>
      if s.handler = none ∧ pid ∉ s.running ∧ pid ∉ s.zombies.map Prod.fst then
        some { s with main := .close clntSock, running := pid :: s.running }
      else none
    | _ => none
  | .forkFail =>
    match s.main with
    | .fork clntSock => if s.handler = none then some { s with main := .close clntSock } else none
    | _ => none
  | .exit pid stat =>
    if s.main ≠ .exited ∧ pid ∈ s.running then
      some { s with
        running := s.running.erase pid
        zombies := s.zombies ++ [(pid,stat)]
        pending := true }
    else none
  | .signal => if s.main ≠ .exited then some { s with pending := true } else none
  | .deliver =>
    if s.main ≠ .exited ∧ s.handler = none ∧ s.pending = true then
      some { s with pending := false, handler := some .waitpid }
    else none
  | .handler k => s.handler.bind (s.handle k)

inductive Step (s : State) : State → Prop
  | main (main : Main) (errno : Errno) : Step s { s with main := main, errno := errno }
  | fork (main : Main) (pid : ℕ) : Step s { s with main := main, running := pid :: s.running }
  | exit (pid : ℕ) (stat : ℤ) : Step s { s with
      running := s.running.erase pid
      zombies := s.zombies ++ [(pid,stat)]
      pending := true }
  | signal : Step s { s with pending := true }
  | deliver (hhandler : s.handler = none) :
      Step s { s with pending := false, handler := some .waitpid }
  | reap (k : ℕ) (child : ℕ × ℤ) (hhandler : s.handler = some .waitpid) : Step s { s with
      handler := some (.print child.1 child.2)
      zombies := s.zombies.eraseIdx k }
  | none (errno : Errno) (hhandler : s.handler = some .waitpid) (hzombies : s.zombies = []) :
      Step s { s with handler := some .ret, errno := errno }
  | print (pid : ℕ) (stat : ℤ) (hhandler : s.handler = some (.print pid stat)) : Step s { s with
      handler := some .waitpid
      printed := s.printed ++ [(pid,stat,sigchld)] }
  | ret (hhandler : s.handler = some .ret) : Step s { s with handler := Option.none }

theorem handle_cases {s t : State} {k : ℕ} {place : Handler} (hhandler : s.handler = some place)
    (h : s.handle k place = some t) : Step s t := by
  cases place with
  | waitpid =>
    by_cases hzombies : s.zombies = []
    · rw [State.handle,if_pos hzombies] at h
      obtain rfl := Option.some.inj h
      exact .none _ hhandler hzombies
    · rw [State.handle,if_neg hzombies] at h
      obtain ⟨child,-,rfl⟩ := Option.map_eq_some_iff.mp h
      exact .reap k child hhandler
  | print pid stat =>
    obtain rfl := Option.some.inj h
    exact .print pid stat hhandler
  | ret =>
    obtain rfl := Option.some.inj h
    exact .ret hhandler

theorem step_cases {s t : State} {a : Action} (h : step s a = some t) : Step s t := by
  cases a with
  | accepted clntSock =>
    simp only [step] at h
    split_ifs at h
    obtain rfl := Option.some.inj h
    exact .main _ s.errno
  | acceptFail errno =>
    simp only [step] at h
    split_ifs at h
    obtain rfl := Option.some.inj h
    exact .main _ errno
  | main =>
    simp only [step] at h
    split_ifs at h
    obtain ⟨main,-,rfl⟩ := Option.map_eq_some_iff.mp h
    exact .main main s.errno
  | fork pid =>
    simp only [step] at h
    split at h
    · split_ifs at h
      obtain rfl := Option.some.inj h
      exact .fork _ pid
    · cases h
  | forkFail =>
    simp only [step] at h
    split at h
    · split_ifs at h
      obtain rfl := Option.some.inj h
      exact .main _ s.errno
    · cases h
  | exit pid stat =>
    simp only [step] at h
    split_ifs at h
    obtain rfl := Option.some.inj h
    exact .exit pid stat
  | signal =>
    simp only [step] at h
    split_ifs at h
    obtain rfl := Option.some.inj h
    exact .signal
  | deliver =>
    simp only [step] at h
    split_ifs at h with hready
    obtain rfl := Option.some.inj h
    exact .deliver hready.2.1
  | handler k =>
    obtain ⟨place,hhandler,hstep⟩ := Option.bind_eq_some_iff.mp h
    exact handle_cases hhandler hstep

def Handler.Looping : Option Handler → Prop
  | some .waitpid | some (.print _ _) => True
  | some .ret | none => False

/-- A child that has ended is noticed: by a signal to come or by a `waitpid` to come. -/
def Noticed (s : State) : Prop :=
  s.zombies = [] ∨ s.pending = true ∨ Handler.Looping s.handler

theorem Noticed.step {s t : State} {a : Action} (h : Noticed s) (hstep : step s a = some t) :
    Noticed t := by
  cases step_cases hstep with
  | main | fork => exact h
  | exit | signal => exact Or.inr (Or.inl rfl)
  | deliver | reap | print => exact Or.inr (Or.inr trivial)
  | none errno hhandler hzombies => exact Or.inl hzombies
  | ret hhandler =>
    rcases h with hzombies | hpending | hlooping
    · exact Or.inl hzombies
    · exact Or.inr (Or.inl hpending)
    · rw [hhandler] at hlooping
      exact hlooping.elim

/-- Whenever the handler does not run and no `SIGCHLD` is pending, every child that has ended
has been collected, however many of them ended at once or while the handler ran. -/
theorem no_zombies {s : State} (hreach : Reachable step start s) (hhandler : s.handler = none)
    (hpending : s.pending = false) : s.zombies = [] := by
  have hnoticed : Noticed s := hreach.invariant (I := Noticed) (Or.inl rfl)
    fun _ _ _ hx hxy => hx.step hxy
  rcases hnoticed with hzombies | hset | hlooping
  · exact hzombies
  · rw [hpending] at hset
    cases hset
  · rw [hhandler] at hlooping
    exact hlooping.elim

/-- Two children end before one signal is delivered, and a third one behind the last `waitpid`
of the handler. -/
theorem no_zombies_three : ∃ s, Reachable step start s ∧ s.handler = none ∧ s.pending = false ∧
    s.printed = [(11,0,17),(10,0,17),(12,9,17)] ∧ s.zombies = [] := by
  obtain ⟨t,hreach,ht⟩ := exists_reachable step start
    [.accepted 4,.main,.fork 10,.main,.accepted 4,.main,.fork 11,.main,.accepted 4,.main,.fork 12,
      .exit 10 0,.exit 11 0,.deliver,.handler 1,.handler 0,.handler 0,.handler 0,.handler 0,
      .exit 12 9,.handler 0,.main,.deliver,.handler 0,.handler 0,.handler 0,.handler 0,
      .acceptFail .eintr,.main]
    (fun t => t.handler = none ∧ t.pending = false ∧
      t.printed = [(11,0,17),(10,0,17),(12,9,17)]) (by decide +kernel)
  obtain ⟨hhandler,hpending,hprinted⟩ := of_decide_eq_true ht
  exact ⟨t,hreach,hhandler,hpending,hprinted,no_zombies hreach hhandler hpending⟩

end ForkServer
end CPrograming
