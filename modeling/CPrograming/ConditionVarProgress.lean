import CPrograming.ConditionVar

/-!
# How a run of `thread/condition_var.c` can end

`main` holds the mutex in `pthread_join`, but the thread that it waits for does not need it any
more. A run stops when `main` has collected every thread, or when it waits for a signal that is
lost; one wake-up without a signal is then enough. No step goes in circles: between two
wake-ups there are only so many.
-/

namespace CPrograming
namespace ConditionVar

open Runs Counting Monitor

variable {n : ℕ} {s t : State n} {i : Fin n}

section Steps

inductive Moves (s : State n) : Action n → State n → Prop
  | setFlag (i : Fin n) (hmain : s.main = .setFlag i) : Moves s .main
      ⟨Function.update s.thread i { s.thread i with flag := .zero },.create i,s.mutex,s.ndone⟩
  | created {k : ℕ} (hmain : s.main = .setFlag k) (hk : n ≤ k) :
    Moves s .main ⟨s.thread,.test,s.mutex,s.ndone⟩
  | create (i : Fin n) (hmain : s.main = .create i) : Moves s .main
      ⟨Function.update s.thread i { s.thread i with worker := .sleep },.setFlag (i+1),s.mutex,
        s.ndone⟩
  | enter (hmain : s.main = .test) (hndone : 0 < s.ndone) :
    Moves s .main ⟨s.thread,.lock,s.mutex,s.ndone⟩
  | leave (hmain : s.main = .test) (hndone : s.ndone ≤ 0) :
    Moves s .main ⟨s.thread,.returned,s.mutex,s.ndone⟩
  | lock (hmain : s.main = .lock) (hfree : s.mutex = none) :
    Moves s .main ⟨s.thread,.wait,some .main,s.ndone⟩
  | wait (hmain : s.main = .wait) : Moves s .main ⟨s.thread,.waiting,none,s.ndone⟩
  | wake (hmain : s.main = .woken) (hfree : s.mutex = none) :
    Moves s .main ⟨s.thread,.scan 0,some .main,s.ndone⟩
  | found (i : Fin n) (hmain : s.main = .scan i) (hflag : (s.thread i).flag = .done) :
    Moves s .main ⟨s.thread,.join i,s.mutex,s.ndone⟩
  | passed (i : Fin n) (hmain : s.main = .scan i) (hflag : (s.thread i).flag ≠ .done) :
    Moves s .main ⟨s.thread,.scan (i+1),s.mutex,s.ndone⟩
  | scanned {k : ℕ} (hmain : s.main = .scan k) (hk : n ≤ k) :
    Moves s .main ⟨s.thread,.unlock,s.mutex,s.ndone⟩
  | join (i : Fin n) (hmain : s.main = .join i) (hworker : (s.thread i).worker = .returned) :
    Moves s .main ⟨s.thread,.count i,s.mutex,s.ndone⟩
  | count (i : Fin n) (hmain : s.main = .count i) :
    Moves s .main ⟨s.thread,.mark i,s.mutex,s.ndone-1⟩
  | mark (i : Fin n) (hmain : s.main = .mark i) : Moves s .main
      ⟨Function.update s.thread i { s.thread i with flag := .collection },.scan (i+1),s.mutex,
        s.ndone⟩
  | unlock (hmain : s.main = .unlock) : Moves s .main ⟨s.thread,.test,none,s.ndone⟩
  | slept (i : Fin n) (hworker : (s.thread i).worker = .sleep) : Moves s (.worker i)
      ⟨Function.update s.thread i { s.thread i with worker := .lock },s.main,s.mutex,s.ndone⟩
  | locked (i : Fin n) (hworker : (s.thread i).worker = .lock) (hfree : s.mutex = none) :
    Moves s (.worker i)
      ⟨Function.update s.thread i { s.thread i with worker := .setDone },s.main,
        some (.worker i),s.ndone⟩
  | done (i : Fin n) (hworker : (s.thread i).worker = .setDone) :
    Moves s (.worker i) ⟨Function.update s.thread i ⟨.done,.signal⟩,s.main,s.mutex,s.ndone⟩
  | heard (i : Fin n) (hworker : (s.thread i).worker = .signal) (hmain : s.main = .waiting) :
    Moves s (.worker i)
      ⟨Function.update s.thread i { s.thread i with worker := .unlock },.woken,s.mutex,s.ndone⟩
  | lost (i : Fin n) (hworker : (s.thread i).worker = .signal) (hmain : s.main ≠ .waiting) :
    Moves s (.worker i)
      ⟨Function.update s.thread i { s.thread i with worker := .unlock },s.main,s.mutex,s.ndone⟩
  | unlocked (i : Fin n) (hworker : (s.thread i).worker = .unlock) : Moves s (.worker i)
      ⟨Function.update s.thread i { s.thread i with worker := .leave },s.main,none,s.ndone⟩
  | left (i : Fin n) (hworker : (s.thread i).worker = .leave) : Moves s (.worker i)
      ⟨Function.update s.thread i { s.thread i with worker := .returned },s.main,s.mutex,s.ndone⟩
  | spurious (hmain : s.main = .waiting) :
    Moves s .spurious ⟨s.thread,.woken,s.mutex,s.ndone⟩

theorem mainStep_moves (h : mainStep s = some t) : Moves s .main t := by
  simp only [mainStep] at h
  cases hmain : s.main with
  | setFlag k =>
    simp only [hmain] at h
    split_ifs at h with hk
    · obtain rfl := Option.some.inj h
      exact .setFlag ⟨k,hk⟩ hmain
    · obtain rfl := Option.some.inj h
      exact .created hmain (Nat.le_of_not_lt hk)
  | create i =>
    simp only [hmain] at h
    obtain rfl := Option.some.inj h
    exact .create i hmain
  | test =>
    simp only [hmain] at h
    obtain rfl := Option.some.inj h
    split_ifs with hndone
    · exact .enter hmain hndone
    · exact .leave hmain (Int.not_lt.mp hndone)
  | lock =>
    simp only [hmain] at h
    obtain ⟨u,hu,rfl⟩ := Option.map_eq_some_iff.mp h
    obtain ⟨hfree,rfl⟩ := acquire_eq_some.mp hu
    exact .lock hmain hfree
  | wait =>
    simp only [hmain] at h
    obtain rfl := Option.some.inj h
    exact .wait hmain
  | woken =>
    simp only [hmain] at h
    obtain ⟨u,hu,rfl⟩ := Option.map_eq_some_iff.mp h
    obtain ⟨hfree,rfl⟩ := acquire_eq_some.mp hu
    exact .wake hmain hfree
  | scan k =>
    simp only [hmain] at h
    split at h
    next hk =>
      obtain rfl := Option.some.inj h
      split_ifs with hflag
      · exact .found ⟨k,hk⟩ hmain hflag
      · exact .passed ⟨k,hk⟩ hmain hflag
    next hk =>
      obtain rfl := Option.some.inj h
      exact .scanned hmain (Nat.le_of_not_lt hk)
  | join i =>
    simp only [hmain] at h
    split_ifs at h with hworker
    obtain rfl := Option.some.inj h
    exact .join i hmain hworker
  | count i =>
    simp only [hmain] at h
    obtain rfl := Option.some.inj h
    exact .count i hmain
  | mark i =>
    simp only [hmain] at h
    obtain rfl := Option.some.inj h
    exact .mark i hmain
  | unlock =>
    simp only [hmain] at h
    obtain rfl := Option.some.inj h
    exact .unlock hmain
  | waiting | returned => simp [hmain] at h

theorem workerStep_moves (h : workerStep s i = some t) : Moves s (.worker i) t := by
  simp only [workerStep] at h
  cases hworker : (s.thread i).worker with
  | idle | returned => simp [hworker] at h
  | sleep =>
    simp only [hworker] at h
    obtain rfl := Option.some.inj h
    exact .slept i hworker
  | lock =>
    simp only [hworker] at h
    obtain ⟨u,hu,rfl⟩ := Option.map_eq_some_iff.mp h
    obtain ⟨hfree,rfl⟩ := acquire_eq_some.mp hu
    exact .locked i hworker hfree
  | setDone =>
    simp only [hworker] at h
    obtain rfl := Option.some.inj h
    exact .done i hworker
  | signal =>
    simp only [hworker] at h
    obtain rfl := Option.some.inj h
    simp only [State.signal,signal]
    split_ifs with hmain
    · exact .heard i hworker hmain
    · exact .lost i hworker hmain
  | unlock =>
    simp only [hworker] at h
    obtain rfl := Option.some.inj h
    exact .unlocked i hworker
  | leave =>
    simp only [hworker] at h
    obtain rfl := Option.some.inj h
    exact .left i hworker

theorem step_moves {a : Action n} (h : step s a = some t) : Moves s a t := by
  cases a with
  | main => exact mainStep_moves h
  | worker i => exact workerStep_moves h
  | spurious =>
    simp only [step] at h
    split_ifs at h with hmain
    obtain rfl := Option.some.inj h
    exact .spurious hmain

end Steps

section Mutex

def Main.Inside : Main n → Prop
  | .wait | .scan _ | .join _ | .count _ | .mark _ | .unlock => True
  | _ => False

def Worker.Inside : Worker → Prop
  | .setDone | .signal | .unlock => True
  | _ => False

structure Locked (s : State n) : Prop where
  main : s.main.Inside ↔ s.mutex = some .main
  worker : ∀ i, (s.thread i).worker.Inside ↔ s.mutex = some (.worker i)

theorem Locked.same {th : Fin n → Thread} {m : Main n} {k : ℤ} (h : Locked s)
    (hmain : m.Inside ↔ s.main.Inside)
    (hworker : ∀ i, (th i).worker.Inside ↔ (s.thread i).worker.Inside) :
    Locked ⟨th,m,s.mutex,k⟩ :=
  ⟨hmain.trans h.main,fun i => (hworker i).trans (h.worker i)⟩

theorem Locked.goto {m : Main n} {k : ℤ} (h : Locked s) (hmain : m.Inside ↔ s.main.Inside) :
    Locked ⟨s.thread,m,s.mutex,k⟩ :=
  h.same hmain fun _ => Iff.rfl

theorem Locked.put {m : Main n} {x : Thread} {k : ℤ} (h : Locked s)
    (hmain : m.Inside ↔ s.main.Inside)
    (hworker : x.worker.Inside ↔ (s.thread i).worker.Inside) :
    Locked ⟨Function.update s.thread i x,m,s.mutex,k⟩ := by
  apply h.same hmain
  intro j
  by_cases hj : j = i
  · subst j
    rw [Function.update_self]
    exact hworker
  · rw [Function.update_of_ne hj]

theorem Locked.lock {m : Main n} {k : ℤ} (h : Locked s) (hfree : s.mutex = none)
    (hmain : m.Inside) : Locked ⟨s.thread,m,some .main,k⟩ := by
  refine ⟨iff_of_true hmain rfl,?_⟩
  intro j
  have hj := h.worker j
  simpa [hfree] using hj

theorem Locked.unlock {m : Main n} {k : ℤ} (h : Locked s) (hmain : s.main.Inside)
    (hm : ¬ m.Inside) : Locked ⟨s.thread,m,none,k⟩ := by
  refine ⟨iff_of_false hm (by simp),?_⟩
  intro j
  have hj := h.worker j
  simpa [h.main.mp hmain] using hj

theorem Locked.workerLock {x : Thread} {k : ℤ} (h : Locked s) (hfree : s.mutex = none)
    (hx : x.worker.Inside) :
    Locked ⟨Function.update s.thread i x,s.main,some (.worker i),k⟩ := by
  have hmain := h.main
  refine ⟨by simpa [hfree] using hmain,?_⟩
  intro j
  by_cases hj : j = i
  · subst j
    simpa using hx
  · have hother := h.worker j
    simpa [hfree,Ne.symm hj,hj] using hother

theorem Locked.workerUnlock {x : Thread} {k : ℤ} (h : Locked s)
    (hworker : (s.thread i).worker.Inside) (hx : ¬ x.worker.Inside) :
    Locked ⟨Function.update s.thread i x,s.main,none,k⟩ := by
  have howner := (h.worker i).mp hworker
  have hmain := h.main
  refine ⟨by simpa [howner] using hmain,?_⟩
  intro j
  by_cases hj : j = i
  · subst j
    simpa using hx
  · have hother := h.worker j
    simpa [howner,Ne.symm hj,hj] using hother

end Mutex

section Tracking

def Seen (i : Fin n) : Main n → Prop
  | .scan k => i.val < k
  | .join k | .count k | .mark k => i.val < k.val
  | .unlock => True
  | _ => False

/-- A thread that `main` joins has left its critical section, and one that it has joined has
returned. -/
def Collected (i : Fin n) (x : Thread) : Main n → Prop
  | .join k => k = i → x.flag = .done ∧ (x.worker = .leave ∨ x.worker = .returned)
  | .count k | .mark k => k = i → x = ⟨.done,.returned⟩
  | _ => True

/-- `main` waits only while there are threads to collect, and returns when there are none. -/
def Owed (k : ℤ) : Main n → Prop
  | .lock | .wait | .waiting => 0 < k
  | .returned => k ≤ 0
  | _ => True

structure Tracked (m : Main n) (i : Fin n) (x : Thread) : Prop where
  early : x.worker = .idle ∨ x.worker = .sleep ∨ x.worker = .lock ∨ x.worker = .setDone →
    x.flag = .zero
  late : x.worker = .signal ∨ x.worker = .unlock ∨ x.worker = .leave → x.flag = .done
  returned : x.worker = .returned → x.flag ≠ .zero
  idle : x.worker = .idle ↔ Uncreated i m
  seen : Seen i m → x.flag ≠ .done
  collected : Collected i x m

structure Sync (s : State n) : Prop where
  locked : Locked s
  tracked : ∀ i, Tracked s.main i (s.thread i)
  ndone : s.ndone+counted s.main = Counting.count (fun x : Thread => x.flag ≠ .collection) s.thread
  owed : Owed s.ndone s.main

theorem Tracked.goto {m m' : Main n} {x : Thread} (h : Tracked m i x)
    (hidle : Uncreated i m' ↔ Uncreated i m) (hseen : Seen i m' → x.flag ≠ .done)
    (hcollected : Collected i x m') : Tracked m' i x :=
  ⟨h.early,h.late,h.returned,h.idle.trans hidle.symm,hseen,hcollected⟩

theorem Tracked.worker_of_collection {m : Main n} {x : Thread} (h : Tracked m i x)
    (hflag : x.flag = .collection) : x.worker = .returned := by
  have hearly := h.early
  have hlate := h.late
  rw [hflag] at hearly hlate
  cases hworker : x.worker <;> simp [hworker] at hearly hlate ⊢

theorem Sync.goto {m : Main n} {o : Option (Owner n)} (h : Sync s)
    (hlocked : Locked ⟨s.thread,m,o,s.ndone⟩)
    (hidle : ∀ i, Uncreated i m ↔ Uncreated i s.main)
    (hseen : ∀ i, Seen i m → (s.thread i).flag ≠ .done)
    (hcollected : ∀ i, Collected i (s.thread i) m)
    (hcounted : counted m = counted s.main) (howed : Owed s.ndone m) :
    Sync ⟨s.thread,m,o,s.ndone⟩ := by
  refine ⟨hlocked,?_,?_,howed⟩
  · exact fun i => (h.tracked i).goto (hidle i) (hseen i) (hcollected i)
  · rw [hcounted]
    exact h.ndone

theorem Sync.put {m : Main n} {o : Option (Owner n)} {x : Thread} (h : Sync s)
    (hlocked : Locked ⟨Function.update s.thread i x,m,o,s.ndone⟩) (hx : Tracked m i x)
    (hidle : ∀ j ≠ i, (Uncreated j m ↔ Uncreated j s.main))
    (hseen : ∀ j ≠ i, Seen j m → (s.thread j).flag ≠ .done)
    (hcollected : ∀ j ≠ i, Collected j (s.thread j) m)
    (hcounted : counted m+weight (fun x : Thread => x.flag ≠ .collection) (s.thread i) =
      counted s.main+weight (fun x : Thread => x.flag ≠ .collection) x)
    (howed : Owed s.ndone m) : Sync ⟨Function.update s.thread i x,m,o,s.ndone⟩ := by
  refine ⟨hlocked,?_,?_,howed⟩
  · intro j
    by_cases hj : j = i
    · subst j
      simpa only [Function.update_self] using hx
    · simp only [Function.update_of_ne hj]
      exact (h.tracked j).goto (hidle j hj) (hseen j hj) (hcollected j hj)
  · have hupdate := count_update (p := fun x : Thread => x.flag ≠ .collection) (f := s.thread) i x
    have hndone := h.ndone
    dsimp only
    omega

theorem Collected.work {m : Main n} {x y : Thread} (h : Collected i x m)
    (hreturned : x.worker ≠ .returned) (hleave : x.worker = .leave → y = ⟨x.flag,.returned⟩) :
    Collected i y m := by
  cases m with
  | join k =>
    intro hk
    obtain ⟨hflag,hworker⟩ := h hk
    rw [hleave (hworker.resolve_right hreturned)]
    exact ⟨hflag,Or.inr rfl⟩
  | count k | mark k =>
    intro hk
    exact absurd (congrArg Thread.worker (h hk)) hreturned
  | setFlag k | create k | test | lock | wait | waiting | woken | scan k | unlock | returned =>
    trivial

theorem Sync.work {o : Option (Owner n)} {x : Thread} (h : Sync s)
    (hlocked : Locked ⟨Function.update s.thread i x,s.main,o,s.ndone⟩)
    (hidle : (s.thread i).worker ≠ .idle) (hx : x.worker ≠ .idle)
    (hreturned : (s.thread i).worker ≠ .returned)
    (hearly : x.worker = .sleep ∨ x.worker = .lock ∨ x.worker = .setDone → x.flag = .zero)
    (hlate : x.worker = .signal ∨ x.worker = .unlock ∨ x.worker = .leave → x.flag = .done)
    (hleave : (s.thread i).worker = .leave → x = ⟨(s.thread i).flag,.returned⟩)
    (hafter : x.worker = .returned → x.flag ≠ .zero)
    (hseen : Seen i s.main → x.flag ≠ .done)
    (hcollection : (s.thread i).flag ≠ .collection ∧ x.flag ≠ .collection) :
    Sync ⟨Function.update s.thread i x,s.main,o,s.ndone⟩ := by
  have hi := h.tracked i
  apply h.put hlocked
  · refine ⟨?_,hlate,hafter,iff_of_false hx fun hm => hidle (hi.idle.mpr hm),hseen,?_⟩
    · exact fun hworker => hearly (hworker.resolve_left hx)
    · exact hi.collected.work hreturned hleave
  · exact fun _ _ => Iff.rfl
  · exact fun j _ => (h.tracked j).seen
  · exact fun j _ => (h.tracked j).collected
  · simp [weight,hcollection.1,hcollection.2]
  · exact h.owed

attribute [local simp] Main.Inside Worker.Inside Seen Collected Owed Uncreated counted

theorem init_sync (n : ℕ) : Sync (init n) := by
  refine ⟨⟨by simp [init],by simp [init]⟩,?_,by simp [init],by simp [init]⟩
  intro i
  exact ⟨fun _ => rfl,by simp [init],by simp [init],by simp [init],by simp [init],by simp [init]⟩

theorem Sync.setFlag (h : Sync s) (hmain : s.main = .setFlag i) :
    Sync ⟨Function.update s.thread i { s.thread i with flag := .zero },.create i,s.mutex,
      s.ndone⟩ := by
  have hidle := (h.tracked i).idle.mpr (by simp [hmain])
  have hzero := (h.tracked i).early (Or.inl hidle)
  have hsame : { s.thread i with flag := .zero } = s.thread i := by rw [← hzero]
  rw [hsame,Function.update_eq_self]
  refine h.goto (h.locked.goto (by simp [hmain])) ?_ ?_ ?_ ?_ ?_ <;> simp [hmain]

theorem Sync.create (h : Sync s) (hmain : s.main = .create i) :
    Sync ⟨Function.update s.thread i { s.thread i with worker := .sleep },.setFlag (i+1),
      s.mutex,s.ndone⟩ := by
  have hidle := (h.tracked i).idle.mpr (by simp [hmain])
  have hzero := (h.tracked i).early (Or.inl hidle)
  apply h.put
  · exact h.locked.put (by simp [hmain]) (by simp [hidle])
  · exact ⟨fun _ => hzero,by simp,by simp,by simp,by simp,by simp⟩
  · intro j hj
    have hne : j.val ≠ i.val := fun h => hj (Fin.ext h)
    simp only [hmain,Uncreated]
    omega
  · simp
  · simp
  · simp [hmain,weight]
  · simp

/-- `main` looks at a flag. A thread whose flag is set has left its critical section. -/
theorem Sync.found (h : Sync s) (hmain : s.main = .scan i) (hflag : (s.thread i).flag = .done) :
    Sync ⟨s.thread,.join i,s.mutex,s.ndone⟩ := by
  have howner := h.locked.main.mp (by simp [hmain])
  have hout : ¬ (s.thread i).worker.Inside := by
    rw [h.locked.worker i,howner]
    simp
  have hworker : (s.thread i).worker = .leave ∨ (s.thread i).worker = .returned := by
    have hearly := (h.tracked i).early
    rw [hflag] at hearly
    cases hworker : (s.thread i).worker <;> simp [hworker] at hearly hout ⊢
  apply h.goto
  · exact h.locked.goto (by simp [hmain])
  · simp [hmain]
  · intro j hj
    exact (h.tracked j).seen (by simpa [hmain] using hj)
  · rintro j rfl
    exact ⟨hflag,hworker⟩
  · simp [hmain]
  · simp

theorem Sync.passed (h : Sync s) (hmain : s.main = .scan i) (hflag : (s.thread i).flag ≠ .done) :
    Sync ⟨s.thread,.scan (i+1),s.mutex,s.ndone⟩ := by
  apply h.goto
  · exact h.locked.goto (by simp [hmain])
  · simp [hmain]
  · intro j hj
    by_cases hji : j = i
    · exact hji ▸ hflag
    · have hne : j.val ≠ i.val := fun h => hji (Fin.ext h)
      refine (h.tracked j).seen ?_
      simp only [hmain,Seen] at hj ⊢
      omega
  · simp
  · simp [hmain]
  · simp

theorem Sync.scanned {k : ℕ} (h : Sync s) (hmain : s.main = .scan k) (hk : n ≤ k) :
    Sync ⟨s.thread,.unlock,s.mutex,s.ndone⟩ := by
  apply h.goto
  · exact h.locked.goto (by simp [hmain])
  · simp [hmain]
  · intro j _
    refine (h.tracked j).seen ?_
    simp only [hmain,Seen]
    omega
  · simp
  · simp [hmain]
  · simp

theorem Sync.join (h : Sync s) (hmain : s.main = .join i)
    (hworker : (s.thread i).worker = .returned) :
    Sync ⟨s.thread,.count i,s.mutex,s.ndone⟩ := by
  have hcollected := (h.tracked i).collected
  simp only [hmain,Collected,true_imp_iff] at hcollected
  apply h.goto
  · exact h.locked.goto (by simp [hmain])
  · simp [hmain]
  · intro j hj
    exact (h.tracked j).seen (by simpa [hmain] using hj)
  · rintro j rfl
    exact congrArg₂ Thread.mk hcollected.1 hworker
  · simp [hmain]
  · simp

theorem Sync.count (h : Sync s) (hmain : s.main = .count i) :
    Sync ⟨s.thread,.mark i,s.mutex,s.ndone-1⟩ := by
  have hndone := h.ndone
  refine ⟨h.locked.goto (by simp [hmain]),?_,?_,trivial⟩
  · intro j
    apply (h.tracked j).goto
    · simp [hmain]
    · intro hj
      exact (h.tracked j).seen (by simpa [hmain] using hj)
    · have hcollected := (h.tracked j).collected
      rwa [hmain] at hcollected
  · simp only [hmain,counted] at hndone ⊢
    omega

theorem Sync.mark (h : Sync s) (hmain : s.main = .mark i) :
    Sync ⟨Function.update s.thread i { s.thread i with flag := .collection },.scan (i+1),
      s.mutex,s.ndone⟩ := by
  have hthread := (h.tracked i).collected
  simp only [hmain,Collected,true_imp_iff] at hthread
  apply h.put
  · exact h.locked.put (by simp [hmain]) (by simp)
  · exact ⟨by simp [hthread],by simp [hthread],by simp,by simp [hthread],by simp,by simp⟩
  · simp [hmain]
  · intro j hj hseen
    have hne : j.val ≠ i.val := fun h => hj (Fin.ext h)
    refine (h.tracked j).seen ?_
    simp only [hmain,Seen] at hseen ⊢
    omega
  · simp
  · simp [hmain,hthread,weight]
  · simp

theorem Sync.not_seen (h : Sync s) (hinside : (s.thread i).worker.Inside) : ¬ Seen i s.main := by
  have howner := (h.locked.worker i).mp hinside
  intro hseen
  have hmain : s.main.Inside := by
    cases hplace : s.main <;> simp [hplace] at hseen ⊢
  simp [h.locked.main.mp hmain] at howner

theorem Sync.step {a : Action n} (h : Sync s) (hstep : step s a = some t) : Sync t := by
  cases step_moves hstep with
  | setFlag i hmain => exact h.setFlag hmain
  | created hmain hk =>
    refine h.goto (h.locked.goto (by simp [hmain])) ?_ ?_ ?_ ?_ ?_ <;> simp [hmain]
    omega
  | create i hmain => exact h.create hmain
  | enter hmain hndone | leave hmain hndone =>
    refine h.goto (h.locked.goto (by simp [hmain])) ?_ ?_ ?_ ?_ ?_ <;> simp [hmain,hndone]
  | lock hmain hfree =>
    have howed := h.owed
    rw [hmain] at howed
    refine h.goto (h.locked.lock hfree trivial) ?_ ?_ ?_ ?_ howed <;> simp [hmain]
  | wait hmain =>
    have howed := h.owed
    rw [hmain] at howed
    refine h.goto (h.locked.unlock (by simp [hmain]) (by simp)) ?_ ?_ ?_ ?_ howed <;>
      simp [hmain]
  | wake hmain hfree =>
    refine h.goto (h.locked.lock hfree trivial) ?_ ?_ ?_ ?_ ?_ <;> simp [hmain]
  | found i hmain hflag => exact h.found hmain hflag
  | passed i hmain hflag => exact h.passed hmain hflag
  | scanned hmain hk => exact h.scanned hmain hk
  | join i hmain hworker => exact h.join hmain hworker
  | count i hmain => exact h.count hmain
  | mark i hmain => exact h.mark hmain
  | unlock hmain =>
    refine h.goto (h.locked.unlock (by simp [hmain]) (by simp)) ?_ ?_ ?_ ?_ ?_ <;> simp [hmain]
  | slept i hworker =>
    have hzero := (h.tracked i).early (by simp [hworker])
    apply h.work (h.locked.put Iff.rfl (by simp [hworker])) <;> simp [hworker,hzero]
  | locked i hworker hfree =>
    have hzero := (h.tracked i).early (by simp [hworker])
    apply h.work (h.locked.workerLock hfree (by simp)) <;> simp [hworker,hzero]
  | done i hworker =>
    have hzero := (h.tracked i).early (by simp [hworker])
    have hseen := h.not_seen (i := i) (by simp [hworker])
    apply h.work (h.locked.put Iff.rfl (by simp [hworker])) <;> simp [hworker,hzero]
    exact hseen
  | heard i hworker hmain =>
    have hdone := (h.tracked i).late (by simp [hworker])
    apply h.put
    · exact h.locked.put (by simp [hmain]) (by simp [hworker])
    · exact ⟨by simp,fun _ => hdone,by simp,by simp,by simp,by simp⟩
    · simp [hmain]
    · simp
    · simp
    · simp [hmain,weight]
    · simp
  | lost i hworker hmain =>
    have hdone := (h.tracked i).late (by simp [hworker])
    have hseen := h.not_seen (i := i) (by simp [hworker])
    apply h.work (h.locked.put Iff.rfl (by simp [hworker])) <;> simp [hworker,hdone]
    exact hseen
  | unlocked i hworker =>
    have hdone := (h.tracked i).late (by simp [hworker])
    have hseen := h.not_seen (i := i) (by simp [hworker])
    apply h.work (h.locked.workerUnlock (by simp [hworker]) (by simp)) <;>
      simp [hworker,hdone]
    exact hseen
  | left i hworker =>
    have hdone := (h.tracked i).late (by simp [hworker])
    have hseen := (h.tracked i).seen
    apply h.work (h.locked.put Iff.rfl (by simp [hworker])) <;> simp [hworker,hdone]
    exact fun hmain => hseen hmain hdone
  | spurious hmain =>
    refine h.goto (h.locked.goto (by simp [hmain])) ?_ ?_ ?_ ?_ ?_ <;> simp [hmain]

theorem Sync.reachable (h : Reachable ConditionVar.step (init n) s) : Sync s :=
  h.invariant (I := Sync) (init_sync n) fun _ _ _ hx hxy => hx.step hxy

end Tracking

section Blocking

def CanMove (s : State n) : Prop := ∃ a t, a ≠ Action.spurious ∧ step s a = some t

theorem canMove_of_main (h : (mainStep s).isSome) : CanMove s := by
  obtain ⟨t,ht⟩ := Option.isSome_iff_exists.mp h
  exact ⟨.main,t,by simp,ht⟩

theorem canMove_of_worker (h : (workerStep s i).isSome) : CanMove s := by
  obtain ⟨t,ht⟩ := Option.isSome_iff_exists.mp h
  exact ⟨.worker i,t,by simp,ht⟩

/-- `main` can go on wherever it has the mutex, or the thread that it joins can. -/
theorem Sync.main_inside (h : Sync s) (hmain : s.main.Inside) : CanMove s := by
  cases hplace : s.main with
  | wait | count i | mark i | unlock => exact canMove_of_main (by simp [mainStep,hplace])
  | scan k =>
    apply canMove_of_main
    simp only [mainStep,hplace]
    split_ifs <;> rfl
  | join i =>
    have hcollected := (h.tracked i).collected
    simp only [hplace,Collected,true_imp_iff] at hcollected
    rcases hcollected.2 with hleave | hreturned
    · exact canMove_of_worker (i := i) (by simp [workerStep,hleave])
    · exact canMove_of_main (by simp [mainStep,hplace,hreturned])
  | setFlag k | create i | test | lock | waiting | woken | returned =>
    simp [hplace,Main.Inside] at hmain

theorem worker_inside (h : (s.thread i).worker.Inside) : CanMove s := by
  apply canMove_of_worker (i := i)
  cases hworker : (s.thread i).worker <;> simp [hworker,Worker.Inside] at h <;>
    simp [workerStep,hworker]

theorem worker_free (hfree : s.mutex = none) (hidle : (s.thread i).worker ≠ .idle)
    (hreturned : (s.thread i).worker ≠ .returned) : CanMove s := by
  apply canMove_of_worker (i := i)
  cases hworker : (s.thread i).worker <;> simp [hworker] at hidle hreturned <;>
    simp [workerStep,hworker,State.acquire,acquire,hfree]

/-- While the mutex is free, only a wait for threads that have returned stops everything. -/
theorem Sync.free (h : Sync s) (hfree : s.mutex = none) (hreturned : s.main ≠ .returned)
    (hstuck : ¬ Stuck s) : CanMove s := by
  have houtside : ¬ s.main.Inside := by
    rw [h.locked.main,hfree]
    simp
  cases hmain : s.main with
  | setFlag k =>
    apply canMove_of_main
    simp only [mainStep,hmain]
    split_ifs <;> rfl
  | create i | test => exact canMove_of_main (by simp [mainStep,hmain])
  | lock | woken => exact canMove_of_main (by simp [mainStep,hmain,State.acquire,acquire,hfree])
  | waiting =>
    have howed := h.owed
    rw [hmain] at howed
    obtain ⟨i,hi⟩ : ∃ i, (s.thread i).worker ≠ .returned := by
      by_contra hall
      push Not at hall
      exact hstuck ⟨hmain,howed,hall⟩
    refine worker_free hfree ?_ hi
    rw [Ne,(h.tracked i).idle]
    simp [hmain,Uncreated]
  | wait | scan k | join i | count i | mark i | unlock => simp [hmain,Main.Inside] at houtside
  | returned => exact absurd hmain hreturned

theorem Sync.canMove (h : Sync s) (hreturned : s.main ≠ .returned) (hstuck : ¬ Stuck s) :
    CanMove s := by
  cases hmutex : s.mutex with
  | none => exact h.free hmutex hreturned hstuck
  | some o =>
    cases o with
    | main => exact h.main_inside (h.locked.main.mpr hmutex)
    | worker i => exact worker_inside ((h.locked.worker i).mpr hmutex)

theorem Sync.collected (h : Sync s) (hmain : counted s.main = 0) (hndone : s.ndone ≤ 0) :
    s.ndone = 0 ∧ ∀ i, s.thread i = ⟨.collection,.returned⟩ := by
  have hcount := h.ndone
  rw [hmain] at hcount
  have hzero : Counting.count (fun x : Thread => x.flag ≠ .collection) s.thread = 0 := by omega
  refine ⟨by omega,?_⟩
  intro i
  have hflag : (s.thread i).flag = .collection := by simpa using count_eq_zero_iff.mp hzero i
  exact congrArg₂ Thread.mk hflag ((h.tracked i).worker_of_collection hflag)

theorem Sync.returned (h : Sync s) (hmain : s.main = .returned) :
    s.ndone = 0 ∧ ∀ i, s.thread i = ⟨.collection,.returned⟩ := by
  have howed := h.owed
  rw [hmain] at howed
  exact h.collected (by simp [hmain,counted]) howed

theorem not_canMove_of_workers (hmain : mainStep s = none)
    (hworker : ∀ i, (s.thread i).worker = .returned) : ¬ CanMove s := by
  rintro ⟨a,t,ha,ht⟩
  cases a with
  | main => simp [step,hmain] at ht
  | worker i => simp [step,workerStep,hworker i] at ht
  | spurious => exact ha rfl

/-- In every reachable state: a thread that `main` joins, which it does with the mutex, has set
its flag and left its critical section. Where `main` has returned, it has collected every
thread. If nothing can move, then it has returned, or it waits for threads that have all
returned. -/
theorem main_collects (n : ℕ) (s : State n) (h : Reachable step (init n) s) :
    (∀ i, s.main = .join i → s.mutex = some .main ∧ (s.thread i).flag = .done ∧
      ((s.thread i).worker = .leave ∨ (s.thread i).worker = .returned)) ∧
    (s.main = .returned →
      s.ndone = 0 ∧ s.mutex = none ∧ ∀ i, s.thread i = ⟨.collection,.returned⟩) ∧
    ((∀ a, a ≠ .spurious → step s a = none) ↔ s.main = .returned ∨ Stuck s) := by
  have hs := Sync.reachable h
  refine ⟨?_,?_,?_⟩
  · intro i hmain
    have hcollected := (hs.tracked i).collected
    simp only [hmain,Collected,true_imp_iff] at hcollected
    exact ⟨hs.locked.main.mp (by simp [hmain,Main.Inside]),hcollected⟩
  · intro hmain
    obtain ⟨hndone,hall⟩ := hs.returned hmain
    refine ⟨hndone,?_,hall⟩
    have hm := hs.locked.main
    cases hmutex : s.mutex with
    | none => rfl
    | some o =>
      cases o with
      | main => simp [hmain,hmutex,Main.Inside] at hm
      | worker i =>
        have hi := (hs.locked.worker i).mpr hmutex
        simp [hall i,Worker.Inside] at hi
  · constructor
    · intro hnone
      by_contra hother
      push Not at hother
      obtain ⟨a,t,ha,ht⟩ := hs.canMove hother.1 hother.2
      simp [hnone a ha] at ht
    · intro hend a ha
      have hnot : ¬ CanMove s := by
        rcases hend with hmain | hstuck
        · apply not_canMove_of_workers (by simp [mainStep,hmain])
          simp [(hs.returned hmain).2]
        · exact not_canMove_of_workers (by simp [mainStep,hstuck.main]) hstuck.worker
      cases hstep : step s a with
      | none => rfl
      | some t => exact absurd ⟨a,t,ha,hstep⟩ hnot

/-- With three threads, in the state where all signals are lost. -/
theorem main_collects_three : ∃ s : State 3, Stuck s ∧
    ∀ a, a ≠ Action.spurious → step s a = none := by
  obtain ⟨s,hreach,hstuck⟩ := reaches_stuck (n := 3) (by decide)
  exact ⟨s,hstuck,(main_collects 3 s hreach).2.2.mpr (Or.inr hstuck)⟩

end Blocking

section Progress

/-- How many steps `main` can make before it waits again. -/
def Main.cost : Main n → ℕ
  | .setFlag k => 2*(n-k)+5
  | .create i => 2*(n-i)+4
  | .test => 4
  | .lock => 3
  | .wait => 2
  | .waiting => 1
  | .woken => 4*n+7
  | .scan k => 4*(n-k)+6
  | .join i => 4*(n-i)+5
  | .count i => 4*(n-i)+4
  | .mark i => 4*(n-i)+3
  | .unlock => 5
  | .returned => 0

/-- The steps of a thread, with those of `main` that its signal is worth. -/
def Worker.cost (n : ℕ) : Worker → ℕ
  | .idle | .sleep => 4*n+12
  | .lock => 4*n+11
  | .setDone => 4*n+10
  | .signal => 4*n+9
  | .unlock => 2
  | .leave => 1
  | .returned => 0

def rank (s : State n) : ℕ := s.main.cost+∑ i, (s.thread i).worker.cost n

theorem rank_goto {m : Main n} {o : Option (Owner n)} {k : ℤ} (hcost : m.cost < s.main.cost) :
    rank ⟨s.thread,m,o,k⟩ < rank s :=
  Nat.add_lt_add_right hcost _

theorem rank_put {m : Main n} {x : Thread} {o : Option (Owner n)} {k : ℤ}
    (hcost : m.cost+x.worker.cost n < s.main.cost+(s.thread i).worker.cost n) :
    rank ⟨Function.update s.thread i x,m,o,k⟩ < rank s := by
  have hsum := sum_update (f := s.thread) (fun x => x.worker.cost n) i x
  simp only [rank]
  omega

/-- Every step but a spurious wake-up lowers the rank. -/
theorem Sync.rank_lt {a : Action n} (hs : Sync s) (h : ConditionVar.step s a = some t)
    (ha : a ≠ .spurious) :
    rank t < rank s := by
  cases step_moves h with
  | setFlag i hmain | mark i hmain =>
    apply rank_put
    simp only [hmain,Main.cost]
    omega
  | create i hmain =>
    have hidle := (hs.tracked i).idle.mpr (by simp [hmain,Uncreated])
    apply rank_put
    simp only [hmain,hidle,Main.cost,Worker.cost]
    omega
  | created hmain | enter hmain | leave hmain | lock hmain | wait hmain | wake hmain
  | found i hmain | passed i hmain | scanned hmain | join i hmain | count i hmain
  | unlock hmain =>
    apply rank_goto
    simp only [hmain,Main.cost]
    omega
  | slept i hworker | locked i hworker | done i hworker | lost i hworker | unlocked i hworker
  | left i hworker =>
    apply rank_put
    simp only [hworker,Worker.cost]
    omega
  | heard i hworker hmain =>
    apply rank_put
    simp only [hworker,hmain,Worker.cost,Main.cost]
    omega
  | spurious => exact absurd rfl ha

theorem rank_spurious (h : step s .spurious = some t) : rank t = rank s+(4*n+6) := by
  cases step_moves h with
  | spurious hmain =>
    simp only [rank,hmain,Main.cost]
    omega

/-- `main` looks at every flag before it waits again, or has nothing to wait for. -/
def Last (k : ℤ) : Main n → Prop
  | .woken | .scan _ | .join _ | .count _ | .mark _ | .unlock | .returned => True
  | .test => k ≤ 0
  | _ => False

/-- The threads have returned, and `main` will not wait any more. -/
structure Final (s : State n) : Prop where
  worker : ∀ i, (s.thread i).worker = .returned
  main : Last s.ndone s.main

theorem Final.goto {m : Main n} {o : Option (Owner n)} {k : ℤ} (h : Final s) (hlast : Last k m) :
    Final ⟨s.thread,m,o,k⟩ :=
  ⟨h.worker,hlast⟩

theorem Final.unlock (h : Final s) (hs : Sync s) (hmain : s.main = .unlock) : s.ndone = 0 := by
  have hzero : Counting.count (fun x : Thread => x.flag ≠ .collection) s.thread = 0 := by
    rw [count_eq_zero_iff]
    intro i
    have hdone := (hs.tracked i).seen (by simp [hmain,Seen])
    have hset := (hs.tracked i).returned (h.worker i)
    cases hflag : (s.thread i).flag <;> simp [hflag] at hdone hset ⊢
  have hndone := hs.ndone
  simp only [hmain,counted,hzero] at hndone
  omega

theorem Final.step {a : Action n} (h : Final s) (hs : Sync s)
    (hstep : ConditionVar.step s a = some t) : Final t := by
  have hlast := h.main
  cases step_moves hstep with
  | setFlag i hmain | created hmain | create i hmain | lock hmain | wait hmain | spurious hmain =>
    simp [hmain,Last] at hlast
  | enter hmain hndone =>
    simp only [hmain,Last] at hlast
    omega
  | leave hmain | wake hmain | found i hmain | passed i hmain | scanned hmain | join i hmain
  | count i hmain => exact h.goto trivial
  | unlock hmain => exact h.goto (h.unlock hs hmain).le
  | mark i hmain =>
    refine ⟨?_,trivial⟩
    intro j
    have hj := h.worker j
    by_cases hji : j = i
    · subst j
      simpa using hj
    · simpa [hji] using hj
  | slept i hworker | locked i hworker | done i hworker | heard i hworker | lost i hworker
  | unlocked i hworker | left i hworker => simp [h.worker i] at hworker

theorem Final.not_stuck (h : Final s) : ¬ Stuck s := by
  intro hstuck
  have hlast := h.main
  simp [hstuck.main,Last] at hlast

abbrev quietStep : State n → Action n → Option (State n) :=
  restrict (fun _ a => a ≠ .spurious) ConditionVar.step

theorem Final.returns (h : Final s) (hs : Sync s) :
    ∃ t, Reachable quietStep s t ∧ t.main = .returned := by
  have hdescend : ∀ x : State n, Sync x ∧ Final x → ¬ x.main = .returned →
      ∃ y, Reachable quietStep x y ∧ (Sync y ∧ Final y) ∧ rank y < rank x := by
    rintro x ⟨hx,hfinal⟩ hopen
    obtain ⟨a,y,ha,hy⟩ := hx.canMove hopen hfinal.not_stuck
    have hquiet : quietStep x a = some y := restrict_eq_some.mpr ⟨ha,hy⟩
    exact ⟨y,(Reachable.refl x).tail hquiet,⟨hx.step hy,hfinal.step hx hy⟩,hx.rank_lt hy ha⟩
  obtain ⟨t,hreach,-,hmain⟩ := Reachable.descend rank hdescend ⟨hs,h⟩
  exact ⟨t,hreach,hmain⟩

theorem Sync.quiet_end (hs : Sync s) :
    ∃ t, Reachable quietStep s t ∧ Sync t ∧ (t.main = .returned ∨ Stuck t) := by
  have hdescend : ∀ x : State n, Sync x → ¬ (x.main = .returned ∨ Stuck x) →
      ∃ y, Reachable quietStep x y ∧ Sync y ∧ rank y < rank x := by
    intro x hx hend
    push Not at hend
    obtain ⟨a,y,ha,hy⟩ := hx.canMove hend.1 hend.2
    have hquiet : quietStep x a = some y := restrict_eq_some.mpr ⟨ha,hy⟩
    exact ⟨y,(Reachable.refl x).tail hquiet,hx.step hy,hx.rank_lt hy ha⟩
  exact Reachable.descend rank hdescend hs

theorem count_spurious {as : List (Action n)} (h : ∀ a ∈ as, a ≠ .spurious) :
    as.count .spurious = 0 :=
  List.count_eq_zero.mpr fun hmem => h _ hmem rfl

/-- From anywhere `main` can come to its end; from a wait without hope it is woken up first. -/
theorem Sync.returns (hs : Sync s) : ∃ as t, exec ConditionVar.step s as = some t ∧
    t.main = .returned ∧ as.count .spurious ≤ 1 := by
  obtain ⟨t,hreach,ht,hend⟩ := hs.quiet_end
  obtain ⟨as,has,hquiet⟩ := hreach.exec_restrict
  rcases hend with hmain | hstuck
  · exact ⟨as,t,has,hmain,by simp [count_spurious hquiet]⟩
  · have hwake : ConditionVar.step t .spurious = some (t.goto .woken) := if_pos hstuck.main
    have hfinal : Final (t.goto .woken) := ⟨hstuck.worker,trivial⟩
    obtain ⟨u,hu,hmain⟩ := hfinal.returns (ht.step hwake)
    obtain ⟨bs,hbs,hquiet'⟩ := hu.exec_restrict
    refine ⟨as ++ .spurious :: bs,u,?_,hmain,?_⟩
    · rw [exec_append,has,Option.bind_some,exec,hwake,Option.bind_some,hbs]
    · simp [count_spurious hquiet,count_spurious hquiet']

theorem rank_init (n : ℕ) : rank (init n) = n*(4*n+14)+5 := by
  simp only [rank,init,Main.cost,Worker.cost,Finset.sum_const,Finset.card_univ,Fintype.card_fin,
    smul_eq_mul]
  ring_nf
  omega

/-- Whatever has happened, `main` can still return, with at most one more wake-up without a
signal. And only these keep the program busy: without one of them there are at most so many
steps. -/
theorem main_can_return (n : ℕ) (as : List (Action n)) (s : State n)
    (h : exec step (init n) as = some s) :
    (∃ bs t, exec step s bs = some t ∧ t.main = .returned ∧ bs.count .spurious ≤ 1) ∧
    as.countP (fun a => decide (a ≠ .spurious)) ≤
      n*(4*n+14)+5+(4*n+6)*as.countP fun a => decide (a = .spurious) := by
  refine ⟨(Sync.reachable (reachable_of_exec h)).returns,?_⟩
  have hspent := exec_spends (I := Sync) rank (fun a => decide (a ≠ .spurious))
    (fun a => decide (a = .spurious)) (4*n+6) ?_ (init_sync n) h
  · rw [rank_init] at hspent
    omega
  · intro x a y hx hxy
    refine ⟨hx.step hxy,?_⟩
    by_cases ha : a = .spurious
    · subst a
      simp [rank_spurious hxy]
    · have hlt := hx.rank_lt hxy ha
      simpa [ha] using hlt

/-- One thread, whose signal is lost. -/
theorem one_thread_can_return : ∃ s : State 1,
    exec step (init 1) [.main,.main,.main,.worker 0,.worker 0,.worker 0,.worker 0,.worker 0,
      .main,.main,.main] = some s ∧ s.main = .waiting ∧
    ∃ bs t, exec step s bs = some t ∧ t.main = .returned ∧ bs.count .spurious ≤ 1 := by
  obtain ⟨s,hs,hwaiting⟩ := Option.map_eq_some_iff.mp (show (exec step (init 1) [.main,.main,.main,
    .worker 0,.worker 0,.worker 0,.worker 0,.worker 0,.main,.main,.main]).map
      (fun s => decide (s.main = .waiting)) = some true by decide +kernel)
  exact ⟨s,hs,of_decide_eq_true hwaiting,(main_can_return 1 _ s hs).1⟩

end Progress

end ConditionVar
end CPrograming
