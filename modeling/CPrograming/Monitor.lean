import Mathlib.Tactic

/-!
# A mutex and a condition variable

A main thread and `n` other threads share a mutex, and only the main thread waits on the
condition variable. What else there is in the state of the program is left open.
-/

namespace CPrograming
namespace Monitor

inductive Owner (n : ℕ)
  | main
  | worker (i : Fin n)
  deriving DecidableEq

variable {n : ℕ} {S : Type*}

/-- `pthread_mutex_lock`: blocks while the mutex is taken; `set` stores its new owner. -/
def acquire (mutex : Option (Owner n)) (set : Option (Owner n) → S) (o : Owner n) : Option S :=
  if mutex = none then some (set (some o)) else none

theorem acquire_eq_some {mutex : Option (Owner n)} {set : Option (Owner n) → S} {o : Owner n}
    {t : S} : acquire mutex set o = some t ↔ mutex = none ∧ t = set (some o) := by
  simp [acquire,eq_comm]

/-- `pthread_cond_signal`: wakes the main thread if it waits and is lost otherwise. -/
def signal (waits : Prop) [Decidable waits] (woken s : S) : S := if waits then woken else s

end Monitor
end CPrograming
