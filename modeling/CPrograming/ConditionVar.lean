import CPrograming.Runs
import CPrograming.Counting
import CPrograming.Monitor

/-!
# The wake-up of `thread/condition_var.c`

`main` creates `n` threads, and waits on a condition variable until it has collected all of
them. Each thread sleeps, sets its flag, signals and returns. A signal that is sent while
`main` does not wait is lost, and `main` does not look at the flags before it waits.
`pthread_create` is taken to succeed.
-/

namespace CPrograming
namespace ConditionVar

open Runs Counting Monitor

/-- The values of `flag`: 0, `THREAD_DONE`, `THREAD_COLLECTION`. -/
inductive Flag
  | zero | done | collection
  deriving DecidableEq, Repr

inductive Worker
  | idle
  | sleep
  | lock
  | setDone
  | signal
  | unlock
  | leave
  | returned
  deriving DecidableEq, Repr

/-- `struct thread_instance`, with its thread. -/
structure Thread where
  flag : Flag
  worker : Worker
  deriving DecidableEq, Repr

/-- Where `main` is. The arguments are values of its loop variable. -/
inductive Main (n : ℕ)
  | setFlag (i : ℕ)
  | create (i : Fin n)
  | test
  | lock
  | wait
  | waiting
  | woken
  | scan (i : ℕ)
  | join (i : Fin n)
  | count (i : Fin n)
  | mark (i : Fin n)
  | unlock
  | returned
  deriving DecidableEq

structure State (n : ℕ) where
  thread : Fin n → Thread
  main : Main n
  mutex : Option (Owner n)
  ndone : ℤ

def init (n : ℕ) : State n := ⟨fun _ => ⟨.zero,.idle⟩,.setFlag 0,none,n⟩

variable {n : ℕ}

def State.goto (s : State n) (m : Main n) : State n := { s with main := m }

def State.put (s : State n) (i : Fin n) (t : Thread) : State n :=
  { s with thread := Function.update s.thread i t }

def State.advance (s : State n) (i : Fin n) (w : Worker) : State n :=
  s.put i { s.thread i with worker := w }

def State.acquire (s : State n) (o : Owner n) : Option (State n) :=
  Monitor.acquire s.mutex (fun m => { s with mutex := m }) o

def State.release (s : State n) : State n := { s with mutex := none }

def State.signal (s : State n) : State n :=
  Monitor.signal (s.main = .waiting) (s.goto .woken) s

def mainStep (s : State n) : Option (State n) :=
  match s.main with
  | .setFlag i =>
    if h : i < n then
      some ((s.put ⟨i,h⟩ { s.thread ⟨i,h⟩ with flag := .zero }).goto (.create ⟨i,h⟩))
    else some (s.goto .test)
  | .create i => some ((s.advance i .sleep).goto (.setFlag (i+1)))
  | .test => some (s.goto (if 0 < s.ndone then .lock else .returned))
  | .lock => (s.acquire .main).map fun t => t.goto .wait
  | .wait => some (s.release.goto .waiting)
  | .waiting => none
  | .woken => (s.acquire .main).map fun t => t.goto (.scan 0)
  | .scan i =>
    if h : i < n then
      some (s.goto (if (s.thread ⟨i,h⟩).flag = .done then .join ⟨i,h⟩ else .scan (i+1)))
    else some (s.goto .unlock)
  | .join i => if (s.thread i).worker = .returned then some (s.goto (.count i)) else none
  | .count i => some { s.goto (.mark i) with ndone := s.ndone-1 }
  | .mark i => some ((s.put i { s.thread i with flag := .collection }).goto (.scan (i+1)))
  | .unlock => some (s.release.goto .test)
  | .returned => none

def workerStep (s : State n) (i : Fin n) : Option (State n) :=
  match (s.thread i).worker with
  | .idle => none
  | .sleep => some (s.advance i .lock)
  | .lock => (s.acquire (.worker i)).map fun t => t.advance i .setDone
  | .setDone => some (s.put i ⟨.done,.signal⟩)
  | .signal => some (s.advance i .unlock).signal
  | .unlock => some (s.advance i .leave).release
  | .leave => some (s.advance i .returned)
  | .returned => none

inductive Action (n : ℕ)
  | main
  | worker (i : Fin n)
  | spurious
  deriving DecidableEq

def step (s : State n) : Action n → Option (State n)
  | .main => mainStep s
  | .worker i => workerStep s i
  | .spurious => if s.main = .waiting then some (s.goto .woken) else none

/-- `main` waits for threads that have all returned. -/
structure Stuck (s : State n) : Prop where
  main : s.main = .waiting
  ndone : 0 < s.ndone
  worker : ∀ i, (s.thread i).worker = .returned

/-- Every signal is sent while `main` waits. -/
def heard (s : State n) : Action n → Prop
  | .worker i => (s.thread i).worker = .signal → s.main = .waiting
  | .main | .spurious => True

instance (s : State n) : (a : Action n) → Decidable (heard s a)
  | .worker _ => inferInstanceAs (Decidable (_ → _))
  | .main | .spurious => isTrue trivial

section Heard

/-- `main` will look at the flag of the thread before it waits again. -/
def Visits (i : Fin n) : Main n → Prop
  | .woken => True
  | .scan k => k ≤ i.val
  | .join k | .count k | .mark k => k.val ≤ i.val
  | _ => False

def Uncreated (i : Fin n) : Main n → Prop
  | .setFlag k => k ≤ i.val
  | .create k => k.val ≤ i.val
  | _ => False

/-- `main` has seen the flag of the thread, and has joined it except at the `join`. -/
def Collects (i : Fin n) (t : Thread) : Main n → Prop
  | .join k => k = i → t.flag = .done
  | .count k | .mark k => k = i → t = ⟨.done,.returned⟩
  | _ => True

/-- The threads that `main` has counted down but not marked. -/
def counted : Main n → ℕ
  | .mark _ => 1
  | _ => 0

/-- What is known of a thread as long as every signal is heard. -/
structure Known (m : Main n) (i : Fin n) (t : Thread) : Prop where
  early : t.worker = .idle ∨ t.worker = .sleep ∨ t.worker = .lock ∨ t.worker = .setDone →
    t.flag = .zero
  signal : t.worker = .signal → t.flag = .done
  late : t.worker = .unlock ∨ t.worker = .leave ∨ t.worker = .returned →
    t.flag = .collection ∨ t.flag = .done ∧ Visits i m
  fresh : Uncreated i m → t.worker = .idle
  collects : Collects i t m

structure Inv (s : State n) : Prop where
  known : ∀ i, Known s.main i (s.thread i)
  ndone : s.ndone + counted s.main =
    Counting.count (fun t : Thread => t.flag ≠ .collection) s.thread

variable {s t : State n}

theorem Known.goto {m m' : Main n} {i : Fin n} {x : Thread} (h : Known m i x)
    (hvisits : x.flag = .done → Visits i m → Visits i m') (hfresh : Uncreated i m' → Uncreated i m)
    (hcollects : Collects i x m') : Known m' i x := by
  refine ⟨h.early,h.signal,?_,fun hm => h.fresh (hfresh hm),hcollects⟩
  intro hlate
  exact (h.late hlate).imp_right fun ⟨hdone,hvisit⟩ => ⟨hdone,hvisits hdone hvisit⟩

theorem Inv.goto (h : Inv s) {m : Main n} {o : Option (Owner n)}
    (hvisits : ∀ i, (s.thread i).flag = .done → Visits i s.main → Visits i m)
    (hfresh : ∀ i, Uncreated i m → Uncreated i s.main)
    (hcollects : ∀ i, Collects i (s.thread i) m) (hcounted : counted m = counted s.main) :
    Inv ⟨s.thread,m,o,s.ndone⟩ := by
  refine ⟨fun i => (h.known i).goto (hvisits i) (hfresh i) (hcollects i),?_⟩
  rw [hcounted]
  exact h.ndone

theorem Inv.put (h : Inv s) {m : Main n} {o : Option (Owner n)} (i : Fin n) {x : Thread}
    (hx : Known m i x) (hvisits : ∀ j ≠ i, Visits j s.main → Visits j m)
    (hfresh : ∀ j ≠ i, Uncreated j m → Uncreated j s.main)
    (hcollects : ∀ j ≠ i, Collects j (s.thread j) m)
    (hcounted : counted m + weight (fun t : Thread => t.flag ≠ .collection) (s.thread i) =
      counted s.main + weight (fun t : Thread => t.flag ≠ .collection) x) :
    Inv ⟨Function.update s.thread i x,m,o,s.ndone⟩ := by
  refine ⟨?_,?_⟩
  · intro j
    by_cases hj : j = i
    · subst j
      simpa only [Function.update_self] using hx
    · simp only [Function.update_of_ne hj]
      exact (h.known j).goto (fun _ => hvisits j hj) (hfresh j hj) (hcollects j hj)
  · have hupdate := count_update (p := fun t : Thread => t.flag ≠ .collection) (f := s.thread) i x
    have hndone := h.ndone
    dsimp only
    omega

attribute [local simp] Visits Uncreated Collects counted

theorem Inv.setFlag {k : ℕ} (h : Inv s) (hmain : s.main = .setFlag k) (hk : k < n) :
    Inv ((s.put ⟨k,hk⟩ { s.thread ⟨k,hk⟩ with flag := .zero }).goto (.create ⟨k,hk⟩)) := by
  have hidle := (h.known ⟨k,hk⟩).fresh (by simp [hmain])
  have hzero := (h.known ⟨k,hk⟩).early (Or.inl hidle)
  have hsame : { s.thread ⟨k,hk⟩ with flag := .zero } = s.thread ⟨k,hk⟩ := by rw [← hzero]
  rw [hsame,State.put,Function.update_eq_self]
  apply h.goto <;> simp [hmain]

theorem Inv.create {i : Fin n} (h : Inv s) (hmain : s.main = .create i) :
    Inv ((s.advance i .sleep).goto (.setFlag (i+1))) := by
  have hidle := (h.known i).fresh (by simp [hmain])
  have hzero := (h.known i).early (Or.inl hidle)
  apply h.put i
  · exact ⟨fun _ => hzero,by simp,by simp,by simp,trivial⟩
  · simp [hmain]
  · intro j _ hj
    simp only [hmain,Uncreated] at hj ⊢
    omega
  · simp
  · simp [hmain,weight]

/-- `main` looks at a flag. If the thread is not done, it will not come back to it. -/
theorem Inv.scan {k : ℕ} (h : Inv s) (hmain : s.main = .scan k) (hk : k < n) :
    Inv (s.goto (if (s.thread ⟨k,hk⟩).flag = .done then .join ⟨k,hk⟩ else .scan (k+1))) := by
  split_ifs with hflag
  · apply h.goto
    · simp [hmain]
    · simp
    · rintro i rfl
      exact hflag
    · simp [hmain]
  · apply h.goto
    · intro i hi hle
      simp only [hmain,Visits] at hle ⊢
      have hne : k ≠ i.val := by
        rintro rfl
        exact hflag hi
      omega
    · simp
    · simp
    · simp [hmain]

theorem Inv.scanned {k : ℕ} (h : Inv s) (hmain : s.main = .scan k) (hk : ¬ k < n) :
    Inv (s.goto .unlock) := by
  apply h.goto
  · intro i _ hle
    simp only [hmain,Visits] at hle
    omega
  · simp
  · simp
  · simp [hmain]

theorem Inv.join {i : Fin n} (h : Inv s) (hmain : s.main = .join i)
    (hreturned : (s.thread i).worker = .returned) : Inv (s.goto (.count i)) := by
  have hdone := (h.known i).collects
  simp only [hmain,Collects,true_imp_iff] at hdone
  apply h.goto
  · simp [hmain]
  · simp
  · rintro j rfl
    exact congrArg₂ Thread.mk hdone hreturned
  · simp [hmain]

theorem Inv.count {i : Fin n} (h : Inv s) (hmain : s.main = .count i) :
    Inv { s.goto (.mark i) with ndone := s.ndone-1 } := by
  have hndone := h.ndone
  refine ⟨?_,?_⟩
  · intro j
    have hcollects := (h.known j).collects
    rw [hmain] at hcollects
    exact (h.known j).goto (by simp [hmain,State.goto]) (by simp [State.goto]) hcollects
  · simp only [hmain,counted,State.goto] at hndone ⊢
    omega

theorem Inv.mark {i : Fin n} (h : Inv s) (hmain : s.main = .mark i) :
    Inv ((s.put i { s.thread i with flag := .collection }).goto (.scan (i+1))) := by
  have hthread := (h.known i).collects
  simp only [hmain,Collects,true_imp_iff] at hthread
  apply h.put i
  · exact ⟨by simp [hthread],by simp [hthread],by simp,by simp,trivial⟩
  · intro j hj hle
    simp only [hmain,Visits] at hle ⊢
    have hne : i.val ≠ j.val := fun hij => hj (Fin.ext hij.symm)
    omega
  · simp
  · simp
  · simp [hmain,hthread,weight]

theorem Inv.mainStep (h : Inv s) (hstep : mainStep s = some t) : Inv t := by
  simp only [ConditionVar.mainStep] at hstep
  cases hmain : s.main with
  | setFlag k =>
    simp only [hmain] at hstep
    split_ifs at hstep with hk
    · obtain rfl := Option.some.inj hstep
      exact h.setFlag hmain hk
    · obtain rfl := Option.some.inj hstep
      apply h.goto <;> simp [hmain]
  | create i =>
    simp only [hmain] at hstep
    obtain rfl := Option.some.inj hstep
    exact h.create hmain
  | test =>
    simp only [hmain] at hstep
    obtain rfl := Option.some.inj hstep
    split_ifs <;> apply h.goto <;> simp [hmain]
  | lock | woken =>
    simp only [hmain] at hstep
    obtain ⟨u,hu,rfl⟩ := Option.map_eq_some_iff.mp hstep
    obtain ⟨-,rfl⟩ := acquire_eq_some.mp hu
    apply h.goto <;> simp [hmain]
  | wait | unlock =>
    simp only [hmain] at hstep
    obtain rfl := Option.some.inj hstep
    apply h.goto <;> simp [hmain]
  | scan k =>
    simp only [hmain] at hstep
    split at hstep
    next hk =>
      obtain rfl := Option.some.inj hstep
      exact h.scan hmain hk
    next hk =>
      obtain rfl := Option.some.inj hstep
      exact h.scanned hmain hk
  | join i =>
    simp only [hmain] at hstep
    split_ifs at hstep with hreturned
    obtain rfl := Option.some.inj hstep
    exact h.join hmain hreturned
  | count i =>
    simp only [hmain] at hstep
    obtain rfl := Option.some.inj hstep
    exact h.count hmain
  | mark i =>
    simp only [hmain] at hstep
    obtain rfl := Option.some.inj hstep
    exact h.mark hmain
  | waiting | returned => simp [hmain] at hstep

theorem Collects.work {m : Main n} {i : Fin n} {x y : Thread} (h : Collects i x m)
    (hworker : x.worker ≠ .returned) (hflag : x.flag = .done → y.flag = .done) :
    Collects i y m := by
  cases m with
  | join k => exact fun hk => hflag (h hk)
  | count k | mark k =>
    intro hk
    exact absurd (by rw [h hk]) hworker
  | setFlag k | create k | test | lock | wait | waiting | woken | scan k | unlock | returned =>
    trivial

theorem Inv.work (h : Inv s) {i : Fin n} {x : Thread} {o : Option (Owner n)}
    (hidle : (s.thread i).worker ≠ .idle) (hreturned : (s.thread i).worker ≠ .returned)
    (hflag : (s.thread i).flag = .done → x.flag = .done)
    (hcollection : x.flag ≠ .collection ↔ (s.thread i).flag ≠ .collection)
    (hearly : x.worker = .idle ∨ x.worker = .sleep ∨ x.worker = .lock ∨ x.worker = .setDone →
      x.flag = .zero)
    (hsignal : x.worker = .signal → x.flag = .done)
    (hlate : x.worker = .unlock ∨ x.worker = .leave ∨ x.worker = .returned →
      x.flag = .collection ∨ x.flag = .done ∧ Visits i s.main) :
    Inv ⟨Function.update s.thread i x,s.main,o,s.ndone⟩ := by
  apply h.put i
  · refine ⟨hearly,hsignal,hlate,?_,(h.known i).collects.work hreturned hflag⟩
    exact fun hfresh => absurd ((h.known i).fresh hfresh) hidle
  · exact fun _ _ hj => hj
  · exact fun _ _ hj => hj
  · exact fun j _ => (h.known j).collects
  · simp only [weight,hcollection]

theorem Inv.workerStep (h : Inv s) {i : Fin n} (hheard : heard s (.worker i))
    (hstep : workerStep s i = some t) : Inv t := by
  simp only [ConditionVar.workerStep] at hstep
  have hknown := h.known i
  cases hworker : (s.thread i).worker with
  | idle => simp [hworker] at hstep
  | sleep =>
    simp only [hworker] at hstep
    obtain rfl := Option.some.inj hstep
    have hzero := hknown.early (by simp [hworker])
    apply h.work <;> simp [hworker,hzero]
  | lock =>
    simp only [hworker] at hstep
    obtain ⟨u,hu,rfl⟩ := Option.map_eq_some_iff.mp hstep
    have hzero := hknown.early (by simp [hworker])
    obtain ⟨-,rfl⟩ := acquire_eq_some.mp hu
    apply h.work <;> simp [hworker,hzero]
  | setDone =>
    simp only [hworker] at hstep
    obtain rfl := Option.some.inj hstep
    have hzero := hknown.early (by simp [hworker])
    apply h.work <;> simp [hworker,hzero]
  | signal =>
    simp only [hworker] at hstep
    obtain rfl := Option.some.inj hstep
    have hwaiting : s.main = .waiting := hheard hworker
    have hdone := hknown.signal hworker
    have hsignal : (s.advance i .unlock).signal = (s.advance i .unlock).goto .woken :=
      if_pos hwaiting
    rw [hsignal]
    apply h.put i
    · exact ⟨by simp,by simp,fun _ => Or.inr ⟨hdone,trivial⟩,by simp,trivial⟩
    · simp
    · simp
    · simp
    · simp [hwaiting,hdone,weight]
  | unlock | leave =>
    simp only [hworker] at hstep
    obtain rfl := Option.some.inj hstep
    have hlate := hknown.late (by simp [hworker])
    apply h.work <;> simp [hworker]
    exact hlate
  | returned => simp [hworker] at hstep

theorem Inv.step (h : Inv s) {a : Action n} (hstep : restrict heard step s a = some t) :
    Inv t := by
  obtain ⟨hheard,hstep⟩ := restrict_eq_some.mp hstep
  cases a with
  | main => exact h.mainStep hstep
  | worker i => exact h.workerStep hheard hstep
  | spurious =>
    simp only [ConditionVar.step] at hstep
    split_ifs at hstep with hmain
    obtain rfl := Option.some.inj hstep
    apply h.goto <;> simp [hmain]

theorem init_inv (n : ℕ) : Inv (init n) := by
  refine ⟨?_,?_⟩
  · intro i
    exact ⟨fun _ => rfl,by simp [init],by simp [init],fun _ => rfl,trivial⟩
  · simp [init]

theorem Inv.not_stuck (h : Inv s) : ¬ Stuck s := by
  intro hstuck
  have hndone := h.ndone
  have hzero : Counting.count (fun t : Thread => t.flag ≠ .collection) s.thread = 0 := by
    rw [count_eq_zero_iff]
    intro i
    have hlate := (h.known i).late (by simp [hstuck.worker i])
    rw [hstuck.main] at hlate
    simpa using hlate
  have hpos := hstuck.ndone
  simp only [hstuck.main,counted,hzero] at hndone
  omega

end Heard

section Lost

def created (n k : ℕ) : State n :=
  ⟨fun i => if i.val < k then ⟨.zero,.sleep⟩ else ⟨.zero,.idle⟩,.setFlag k,none,n⟩

theorem created_succ (k : Fin n) : Reachable step (created n k) (created n (k+1)) := by
  have hflag : step (created n k) .main = some ((created n k).goto (.create k)) := by
    have hsame : { (created n k).thread k with flag := .zero } = (created n k).thread k := by
      simp [created]
    have hmain : (created n k).main = .setFlag k := rfl
    simp only [step,mainStep,hmain,k.isLt,dite_true,Fin.eta,hsame,State.put,
      Function.update_eq_self]
    rfl
  have hcreate : step ((created n k).goto (.create k)) .main = some (created n (k+1)) := by
    simp only [step,mainStep,created,State.goto,State.advance,State.put,Option.some.injEq,
      State.mk.injEq,and_true]
    simpa using update_below k (fun _ => (⟨.zero,.sleep⟩ : Thread)) fun _ => ⟨.zero,.idle⟩
  exact ((Reachable.refl _).tail hflag).tail hcreate

theorem reaches_created {k : ℕ} (hk : k ≤ n) : Reachable step (init n) (created n k) := by
  induction k with
  | zero =>
    have hinit : created n 0 = init n := by simp [created,init]
    rw [hinit]
    exact .refl _
  | succ k ih => exact (ih (by omega)).trans (created_succ ⟨k,hk⟩)

theorem worker_run {s : State n} {i : Fin n} (hsleep : (s.thread i).worker = .sleep)
    (hmutex : s.mutex = none) (hmain : s.main ≠ .waiting) :
    Reachable step s (s.put i ⟨.done,.returned⟩) := by
  set locked : State n := { s with mutex := some (.worker i) }
  have hlock : step s (.worker i) = some (s.advance i .lock) := by
    simp only [step,workerStep,hsleep]
  have hacquire : step (s.advance i .lock) (.worker i) = some (locked.advance i .setDone) := by
    simp [step,workerStep,State.advance,State.put,State.acquire,acquire,hmutex,locked]
  have hset : step (locked.advance i .setDone) (.worker i) =
      some (locked.put i ⟨.done,.signal⟩) := by
    simp [step,workerStep,State.advance,State.put]
  have hsignal : step (locked.put i ⟨.done,.signal⟩) (.worker i) =
      some (locked.put i ⟨.done,.unlock⟩) := by
    simp [step,workerStep,State.advance,State.put,State.signal,signal,hmain,locked]
  have hunlock : step (locked.put i ⟨.done,.unlock⟩) (.worker i) =
      some (s.put i ⟨.done,.leave⟩) := by
    simp [step,workerStep,State.advance,State.put,State.release,hmutex,locked]
  have hleave : step (s.put i ⟨.done,.leave⟩) (.worker i) = some (s.put i ⟨.done,.returned⟩) := by
    simp [step,workerStep,State.advance,State.put]
  have hlocked := (((Reachable.refl _).tail hlock).tail hacquire).tail hset
  exact ((hlocked.tail hsignal).tail hunlock).tail hleave

def finished (n k : ℕ) : State n :=
  ⟨fun i => if i.val < k then ⟨.done,.returned⟩ else ⟨.zero,.sleep⟩,.test,none,n⟩

theorem finished_succ (k : Fin n) : Reachable step (finished n k) (finished n (k+1)) := by
  have hrun : Reachable step (finished n k) ((finished n k).put k ⟨.done,.returned⟩) :=
    worker_run (by simp [finished]) rfl (by simp [finished])
  have hnext : (finished n k).put k ⟨.done,.returned⟩ = finished n (k+1) := by
    simp only [finished,State.put,State.mk.injEq,and_true]
    exact update_below k (fun _ => (⟨.done,.returned⟩ : Thread)) fun _ => ⟨.zero,.sleep⟩
  rwa [hnext] at hrun

theorem reaches_finished {k : ℕ} (hk : k ≤ n) : Reachable step (init n) (finished n k) := by
  induction k with
  | zero =>
    have htest : step (created n n) .main = some (finished n 0) := by
      simp [step,mainStep,created,finished,State.goto]
    exact (reaches_created (le_refl n)).tail htest
  | succ k ih => exact (ih (by omega)).trans (finished_succ ⟨k,hk⟩)

/-- All threads return before `main` waits. -/
theorem reaches_stuck (hn : 0 < n) : ∃ s : State n, Reachable step (init n) s ∧ Stuck s := by
  have hpos : (0 : ℤ) < n := by exact_mod_cast hn
  have htest : step (finished n n) .main = some ((finished n n).goto .lock) := by
    simp [step,mainStep,finished,hn]
  have hlock : step ((finished n n).goto .lock) .main =
      some { (finished n n).goto .wait with mutex := some .main } := by
    simp [step,mainStep,finished,State.goto,State.acquire,acquire]
  have hwait : step { (finished n n).goto .wait with mutex := some .main } .main =
      some ((finished n n).goto .waiting) := by
    simp [step,mainStep,finished,State.goto,State.release]
  refine ⟨_,(((reaches_finished (le_refl n)).tail htest).tail hlock).tail hwait,rfl,hpos,?_⟩
  intro i
  simp [finished,State.goto]

end Lost

/-- `main` never waits for threads that have all returned exactly if there are no threads at
all: with any number of threads all of them may return before `main` waits. If every signal
is sent while `main` waits, then it never does. -/
theorem never_stuck_iff (n : ℕ) :
    ((∀ s : State n, Reachable step (init n) s → ¬ Stuck s) ↔ n = 0) ∧
      ∀ s : State n, Reachable (restrict heard step) (init n) s → ¬ Stuck s := by
  refine ⟨⟨?_,?_⟩,?_⟩
  · intro hnever
    by_contra hn
    obtain ⟨s,hreach,hstuck⟩ := reaches_stuck (Nat.pos_of_ne_zero hn)
    exact hnever s hreach hstuck
  · rintro rfl s hreach
    have hinv : Inv s := hreach.invariant (I := Inv) (init_inv 0) ?_
    · exact hinv.not_stuck
    · intro a x y hx hxy
      refine hx.step (restrict_eq_some.mpr ⟨?_,hxy⟩)
      cases a with
      | worker i => exact i.elim0
      | main | spurious => trivial
  · intro s hreach
    have hinv : Inv s := hreach.invariant (I := Inv) (init_inv n) fun _ _ _ hx hxy => hx.step hxy
    exact hinv.not_stuck

/-- The three threads of the program return before `main` waits. -/
theorem three_threads_stuck : ∃ s : State 3, Reachable step (init 3) s ∧ Stuck s :=
  reaches_stuck (by decide)

end ConditionVar
end CPrograming
