import CPrograming.WebThreadInvariant

/-!
# Joining under the mutex

A thread marks its file done before it asks for the mutex, and `main` joins every
marked file while it holds the mutex. With two threads at work `main` can meet a
mark whose thread still has to take the mutex, and neither moves again. With one
thread at a time the only mark `main` can meet is that of the thread that woke it.
-/

namespace CPrograming
namespace WebThread

open Runs Counting Monitor

variable {n : ℕ} {maxnconn : ℤ}

/-- `main` waits for the end of thread `i`, and thread `i` for the mutex of `main`. -/
def Deadlocked (i : Fin n) (s : State n) : Prop :=
  s.main = .join i ∧ s.mutex = some .main ∧ (s.file i).worker = .lock

instance (i : Fin n) (s : State n) : Decidable (Deadlocked i s) :=
  inferInstanceAs (Decidable (_ ∧ _ ∧ _))

section Mutex

variable {s t : State n}

def Main.holds : Main n → Bool
  | .test => true
  | .reap _ => true
  | .join _ => true
  | .setJoined _ => true
  | .tally _ => true
  | .unlock => true
  | _ => false

abbrev File.Holds (f : File n) : Prop := f.worker = .signal ∨ f.worker = .unlock

structure Owned (s : State n) : Prop where
  main : s.main.holds = true → s.mutex = some .main
  worker : ∀ i, (s.file i).Holds → s.mutex = some (.worker i)

theorem workerStep_mutex {i : Fin n} {fd : ℤ} {got : ReadAnswer}
    (h : workerStep s i fd got = some t) :
    s.mutex = none ∧ t.mutex = some (.worker i) ∨
    (s.file i).Holds ∧ t.mutex = none ∧ ¬ (t.file i).Holds ∨
    t.mutex = s.mutex ∧ ((t.file i).Holds → (s.file i).Holds) := by
  simp only [workerStep] at h
  cases hw : (s.file i).worker <;> simp only [hw,reduceCtorEq,Option.some.injEq] at h
  case read =>
    subst t
    refine Or.inr (Or.inr ⟨rfl,?_⟩)
    split_ifs <;> simp [File.Holds,State.put]
  case lock =>
    obtain ⟨u,hu,rfl⟩ := Option.map_eq_some_iff.mp h
    obtain ⟨hnone,rfl⟩ := acquire_eq_some.mp hu
    exact Or.inl ⟨hnone,rfl⟩
  case signal =>
    subst t
    refine Or.inr (Or.inr ⟨?_,fun _ => Or.inl hw⟩)
    simp only [State.signal,signal]
    split_ifs <;> rfl
  case unlock =>
    subst t
    exact Or.inr (Or.inl ⟨Or.inr hw,rfl,by simp [File.Holds,State.put,State.release]⟩)
  all_goals
    subst t
    exact Or.inr (Or.inr ⟨rfl,by simp [File.Holds,State.put]⟩)

theorem Owned.workerStep {i : Fin n} {fd : ℤ} {got : ReadAnswer} (ho : Owned s)
    (h : workerStep s i fd got = some t) : Owned t := by
  have hmove := workerStep_move h
  have hmain : t.main.holds = s.main.holds := by
    rcases hmove.main with hm | ⟨hm,hm'⟩
    · rw [hm]
    · rw [hm,hm']
      rfl
  rcases workerStep_mutex h with ⟨hs,ht⟩ | ⟨hs,ht,hend⟩ | ⟨ht,hback⟩
  · refine ⟨?_,?_⟩
    · intro hm
      have := ho.main (hmain ▸ hm)
      simp [hs] at this
    · intro j hj
      by_cases hji : j = i
      · rw [ht,hji]
      · rw [hmove.file_ne hji] at hj
        have := ho.worker j hj
        simp [hs] at this
  · have hown := ho.worker i hs
    refine ⟨?_,?_⟩
    · intro hm
      have := ho.main (hmain ▸ hm)
      simp [hown] at this
    · intro j hj
      have hji : j ≠ i := by
        rintro rfl
        exact hend hj
      rw [hmove.file_ne hji] at hj
      have := ho.worker j hj
      simp [hown,hji.symm] at this
  · refine ⟨?_,?_⟩
    · intro hm
      rw [ht]
      exact ho.main (hmain ▸ hm)
    · intro j hj
      rw [ht]
      by_cases hji : j = i
      · subst j
        exact ho.worker i (hback hj)
      · rw [hmove.file_ne hji] at hj
        exact ho.worker j hj

/-- What a step of `main` can do to the mutex, and that it moves no thread into or
out of its critical section. -/
theorem mainStep_mutex (h : mainStep maxnconn s = some t) :
    (∀ i, (t.file i).Holds → (s.file i).Holds) ∧
    (s.mutex = none ∧ t.mutex = some .main ∨
      s.main.holds = true ∧ t.main.holds = false ∨
      t.mutex = s.mutex ∧ t.main.holds = s.main.holds) := by
  have hput (i : Fin n) (f : File n) (hf : ¬ f.Holds ∨ f.worker = (s.file i).worker) (j : Fin n) :
      ((s.put i f).file j).Holds → (s.file j).Holds := by
    by_cases hj : j = i
    · subst j
      rcases hf with hf | hf
      · simp [State.put,hf]
      · simp [State.put,File.Holds,hf]
    · simp [State.put,hj]
  cases mainStep_cases h with
  | outer hm | spawn hm | find _ hm | reap _ hm =>
    refine ⟨fun _ hj => hj,Or.inr (Or.inr ⟨rfl,?_⟩)⟩
    simp only [State.goto,hm]
    split_ifs <;> rfl
  | create i hm =>
    exact ⟨hput i _ (Or.inl (by simp [File.Holds])),Or.inr (Or.inr ⟨rfl,by rw [hm]; rfl⟩)⟩
  | setConnection i hm | storeTid i hm | setJoined i hm =>
    exact ⟨hput i _ (Or.inr rfl),Or.inr (Or.inr ⟨rfl,by rw [hm]; rfl⟩)⟩
  | lock hm hx | woken hm hx => exact ⟨fun _ hj => hj,Or.inl ⟨hx,rfl⟩⟩
  | test hm =>
    split_ifs
    · exact ⟨fun _ hj => hj,Or.inr (Or.inl ⟨by rw [hm]; rfl,rfl⟩)⟩
    · exact ⟨fun _ hj => hj,Or.inr (Or.inr ⟨rfl,by rw [hm]; rfl⟩)⟩
  | unlock hm => exact ⟨fun _ hj => hj,Or.inr (Or.inl ⟨by rw [hm]; rfl,rfl⟩)⟩
  | missing i hm | pass i hm | join i j hm | tally i hm | report hm =>
    exact ⟨fun _ hj => hj,Or.inr (Or.inr ⟨rfl,by rw [hm]; rfl⟩)⟩

theorem Owned.mainStep (ho : Owned s) (h : mainStep maxnconn s = some t) : Owned t := by
  obtain ⟨hfile,⟨hs,ht⟩ | ⟨hs,ht⟩ | ⟨hx,hm⟩⟩ := mainStep_mutex h
  · refine ⟨fun _ => ht,?_⟩
    intro j hj
    have := ho.worker j (hfile j hj)
    simp [hs] at this
  · refine ⟨by simp [ht],?_⟩
    intro j hj
    have := ho.worker j (hfile j hj)
    simp [ho.main hs] at this
  · refine ⟨?_,?_⟩
    · intro hh
      rw [hx]
      exact ho.main (hm ▸ hh)
    · intro j hj
      rw [hx]
      exact ho.worker j (hfile j hj)

theorem Owned.step {a : Action n} (ho : Owned s) (h : step maxnconn s a = some t) : Owned t := by
  cases a with
  | main => exact ho.mainStep h
  | spurious =>
    simp only [WebThread.step] at h
    split_ifs at h
    cases h
    exact ⟨by simp [State.goto,Main.holds],ho.worker⟩
  | worker i fd got => exact ho.workerStep h

theorem reachable_owned (h : Reachable (step maxnconn) (init n) t) : Owned t :=
  h.invariant ⟨by simp [init,Main.holds],by simp [init,File.Holds]⟩ fun _ _ _ ho hs => ho.step hs

/-- In a deadlock `main` and thread `i` cannot move, and the others change nothing
for them. -/
theorem Deadlocked.step {i : Fin n} {a : Action n} (hi : Inv maxnconn s) (ho : Owned s)
    (hd : Deadlocked i s) (h : step maxnconn s a = some t) : Deadlocked i t := by
  obtain ⟨hm,hx,hw⟩ := hd
  cases a with
  | main =>
    have htid := (hi.files i).tid (by simp [hw]) (by simp [hm])
    simp [WebThread.step,WebThread.mainStep,hm,htid,hw] at h
  | spurious => simp [WebThread.step,hm] at h
  | worker j fd got =>
    have hj : i ≠ j := by
      rintro rfl
      simp [WebThread.step,WebThread.workerStep,hw,State.acquire,acquire,hx] at h
    have hmove := workerStep_move h
    refine ⟨?_,?_,?_⟩
    · rw [hmove.main_eq (by simp [hm]),hm]
    · rcases workerStep_mutex h with ⟨hs,-⟩ | ⟨hs,-⟩ | ⟨ht,-⟩
      · simp [hx] at hs
      · have := ho.worker j hs
        simp [hx] at this
      · rw [ht,hx]
    · rw [hmove.file_ne hj,hw]

/-- A deadlock that the program runs into is for ever. -/
theorem Deadlocked.permanent {i : Fin n} (hs : Reachable (WebThread.step maxnconn) (init n) s)
    (hd : Deadlocked i s) (ht : Reachable (WebThread.step maxnconn) s t) : Deadlocked i t := by
  have hall : Inv maxnconn t ∧ Owned t ∧ Deadlocked i t := by
    apply ht.invariant (I := fun u => Inv maxnconn u ∧ Owned u ∧ Deadlocked i u)
    · exact ⟨reachable_inv hs,reachable_owned hs,hd⟩
    · rintro a x y ⟨hi,ho,hd⟩ hxy
      exact ⟨step_inv hi hxy,ho.step hxy,hd.step hi ho hxy⟩
  exact hall.2.2

end Mutex

section Single

variable {s t : State n}

/-- While `main` walks over the files, a thread is counted or none is left to join. -/
def Single (s : State n) : Prop :=
  match s.main with
  | .reap _ | .join _ => 1 ≤ s.ndone ∨ s.nconn ≤ 0
  | _ => True

theorem Inv.nconn_le_one (hi : Inv maxnconn s) (h : n ≤ 1 ∨ maxnconn ≤ 1) : s.nconn ≤ 1 := by
  rcases h with hn | hmax
  · have hc := hi.counters.nconn
    have hle := count_le_card (p := File.Active) (f := s.file)
    rw [Fintype.card_fin] at hle
    cases hm : s.main with
    | tally i =>
      have hjoined : (s.file i).flags = .joined := (hi.here hm).1.2
      have hsub : Subsingleton (Fin n) := Fin.subsingleton_iff_le_one.mpr hn
      have hzero : count File.Active s.file = 0 := by
        apply count_eq_zero_iff.mpr
        intro j hj
        rw [Subsingleton.elim j i] at hj
        exact hj.2 hjoined
      simp only [hm,Main.uncounted,Main.untallied] at hc
      omega
    | _ =>
      simp only [hm,Main.uncounted,Main.untallied] at hc
      omega
  · have := hi.limit
    omega

theorem Single.workerStep {i : Fin n} {fd : ℤ} {got : ReadAnswer} (hs : Single s)
    (h : workerStep s i fd got = some t) : Single t := by
  have hmove := workerStep_move h
  have hle : s.ndone ≤ t.ndone := by
    have hd := hmove.ndone
    have hmono : weight File.Counted (s.file i) ≤ weight File.Counted (t.file i) := by
      by_cases hc : (s.file i).Counted
      · rw [weight_of hc,weight_of (hmove.move.counted hc)]
      · rw [weight_of_not hc]
        exact Nat.zero_le _
    omega
  simp only [Single] at hs ⊢
  rcases hmove.main with hm | ⟨-,hm⟩
  · rw [hm,hmove.nconn]
    cases hms : s.main <;> simp only [hms] at hs ⊢ <;> omega
  · simp [hm]

theorem Single.mainStep (hi : Inv maxnconn s) (h1 : n ≤ 1 ∨ maxnconn ≤ 1) (hs : Single s)
    (h : mainStep maxnconn s = some t) : Single t := by
  cases mainStep_cases h with
  | outer | spawn | find =>
    simp only [Single]
    simp only [State.goto]
    split_ifs <;> trivial
  | test hm =>
    split_ifs with hd
    · trivial
    · have hc := hi.counters.ndone
      simp only [hm,Main.untallied] at hc
      left
      show 1 ≤ s.ndone
      omega
  | reap i hm =>
    simp only [Single,hm] at hs
    simp only [Single]
    simp only [State.goto]
    split_ifs <;> exact hs
  | tally i hm =>
    right
    have hone := hi.nconn_le_one h1
    show s.nconn-1 ≤ 0
    omega
  | missing | setConnection | create | storeTid | lock | woken | pass | join | setJoined |
    unlock | report => trivial

theorem reachable_single (h1 : n ≤ 1 ∨ maxnconn ≤ 1)
    (h : Reachable (step maxnconn) (init n) t) : Inv maxnconn t ∧ Single t := by
  apply h.invariant (I := fun u => Inv maxnconn u ∧ Single u)
  · exact ⟨init_inv maxnconn,trivial⟩
  · rintro a x y ⟨hi,hs⟩ hxy
    refine ⟨step_inv hi hxy,?_⟩
    cases a with
    | main => exact hs.mainStep hi h1 hxy
    | spurious =>
      simp only [step] at hxy
      split_ifs at hxy
      cases hxy
      trivial
    | worker i fd got => exact hs.workerStep hxy

/-- The thread that `main` joins is then the one that is counted, past its mutex. -/
theorem Single.not_deadlocked (hi : Inv maxnconn s) (hs : Single s) (h1 : n ≤ 1 ∨ maxnconn ≤ 1)
    (i : Fin n) : ¬ Deadlocked i s := by
  rintro ⟨hm,-,hw⟩
  have hdone : (s.file i).flags = .done := (hi.here hm).1
  simp only [Single,hm] at hs
  have hone := hi.nconn_le_one h1
  have hact : (s.file i).Active := ⟨by simp [hw],by simp [hdone]⟩
  obtain ⟨-,h2,-,h4⟩ := hi.counters
  simp only [hm,Main.uncounted,Main.untallied,add_zero] at h2 h4
  have hpos := count_pos_iff.mpr ⟨i,hact⟩
  obtain ⟨j,hj,hleft⟩ := count_pos_iff.mp (show 0 < count File.Finished s.file by omega)
  have hactj : (s.file j).Active := by
    refine ⟨?_,hleft⟩
    rcases hj with hj | hj <;> simp [hj]
  have hij := eq_of_count_le_one (show count File.Active s.file ≤ 1 by omega) hact hactj
  rw [← hij] at hj
  rcases hj with hj | hj <;> simp [hw] at hj

end Single

section Schedule

variable {s : State n}

@[simp] theorem put_file_self (i : Fin n) (f : File n) : (s.put i f).file i = f := by
  simp [State.put]

@[simp] theorem put_put (i : Fin n) (f g : File n) : (s.put i f).put i g = s.put i g := by
  simp [State.put]

theorem find_runs {k : Fin n} (hz : (s.file k).flags = .zero)
    (hlt : ∀ j < k, (s.file j).flags ≠ .zero) {j : ℕ} (hj : j ≤ k.val) :
    Reachable (step maxnconn) (s.goto (.find j)) (s.goto (.setConnection k)) := by
  induction hj using Nat.decreasingInduction with
  | self =>
    apply (Reachable.refl _).tail (a := .main)
    simp [step,mainStep,State.goto,k.isLt,hz]
  | of_succ j hj ih =>
    refine Reachable.trans ?_ ih
    have hn : j < n := lt_trans hj k.isLt
    apply (Reachable.refl _).tail (a := .main)
    simp [step,mainStep,State.goto,hn,hlt ⟨j,hn⟩ hj]

def spawned (n k : ℕ) (log : List (Event n)) : State n where
  file := fun i => if i.val < k then ⟨.connection,0,some i,.connect⟩ else ⟨.zero,0,none,.idle⟩
  main := .spawn
  mutex := none
  ndone := 0
  nconn := k
  nlefttoconn := n-k
  nlefttoread := n
  log := log

theorem spawned_succ (k : Fin n) (log : List (Event n)) (hk : k < maxnconn) :
    Reachable (step maxnconn) (spawned n k log) (spawned n (k+1) (log ++ [.create k])) := by
  have hzero : ((spawned n k log).file k) = ⟨.zero,0,none,.idle⟩ := by simp [spawned]
  have hstart : Reachable (step maxnconn) (spawned n k log) ((spawned n k log).goto (.find 0)) := by
    apply (Reachable.refl _).tail (a := .main)
    have : (k : ℤ) < n := by exact_mod_cast k.isLt
    simp [step,mainStep,spawned,hk,this,State.goto]
  have hfind : Reachable (step maxnconn) ((spawned n k log).goto (.find 0))
      ((spawned n k log).goto (.setConnection k)) := by
    apply find_runs
    · rw [hzero]
    · intro j hj
      simp [spawned,hj]
    · exact Nat.zero_le _
  have hflag : step maxnconn ((spawned n k log).goto (.setConnection k)) .main =
      some (((spawned n k log).put k ⟨.connection,0,none,.idle⟩).goto (.create k)) := by
    simp [step,mainStep,State.goto,State.put,hzero]
  have hcreate : step maxnconn
      (((spawned n k log).put k ⟨.connection,0,none,.idle⟩).goto (.create k)) .main =
      some ((((spawned n k log).put k ⟨.connection,0,none,.connect⟩).record (.create k)).goto
        (.storeTid k)) := by
    simp [step,mainStep,State.goto,State.put,State.record]
  have hstore : step maxnconn ((((spawned n k log).put k ⟨.connection,0,none,.connect⟩).record
      (.create k)).goto (.storeTid k)) .main = some (spawned n (k+1) (log ++ [.create k])) := by
    simp only [step,mainStep,State.goto,State.put,State.record,Option.some.injEq,spawned,
      State.mk.injEq,Nat.cast_add,Nat.cast_one,true_and,and_true]
    refine ⟨?_,by ring⟩
    simpa using update_below k (fun i => (⟨.connection,0,some i,.connect⟩ : File n))
      fun _ => ⟨.zero,0,none,.idle⟩
  exact (((hstart.trans hfind).tail hflag).tail hcreate).tail hstore

theorem reaches_spawned (hn : 0 < n) {k : ℕ} (hk : k ≤ n) (hmax : k ≤ maxnconn) :
    ∃ log, Reachable (step maxnconn) (init n) (spawned n k log) := by
  induction k with
  | zero =>
    refine ⟨[],(Reachable.refl _).tail (a := .main) ?_⟩
    simp [step,mainStep,init,spawned,hn,State.goto]
  | succ k ih =>
    push_cast at hmax
    obtain ⟨log,hlog⟩ := ih (by omega) (by omega)
    exact ⟨_,hlog.trans (spawned_succ ⟨k,hk⟩ log (by simpa using hmax))⟩

theorem worker_marks {i : Fin n} (hf : s.file i = ⟨.connection,0,some i,.connect⟩) :
    Reachable (step maxnconn) s (s.put i ⟨.done,0,some i,.lock⟩) := by
  have h1 : step maxnconn s (.worker i 0 (.data [])) =
      some (s.put i ⟨.connection,0,some i,.request⟩) := by simp [step,workerStep,hf]
  have h2 : step maxnconn (s.put i ⟨.connection,0,some i,.request⟩) (.worker i 0 (.data [])) =
      some (s.put i ⟨.connection,0,some i,.setReading⟩) := by simp [step,workerStep]
  have h3 : step maxnconn (s.put i ⟨.connection,0,some i,.setReading⟩) (.worker i 0 (.data [])) =
      some (s.put i ⟨.reading,0,some i,.read⟩) := by simp [step,workerStep]
  have h4 : step maxnconn (s.put i ⟨.reading,0,some i,.read⟩) (.worker i 0 (.data [])) =
      some (s.put i ⟨.reading,0,some i,.close⟩) := by simp [step,workerStep]
  have h5 : step maxnconn (s.put i ⟨.reading,0,some i,.close⟩) (.worker i 0 (.data [])) =
      some (s.put i ⟨.reading,0,some i,.setDone⟩) := by simp [step,workerStep]
  have h6 : step maxnconn (s.put i ⟨.reading,0,some i,.setDone⟩) (.worker i 0 (.data [])) =
      some (s.put i ⟨.done,0,some i,.lock⟩) := by simp [step,workerStep]
  exact ((((((Reachable.refl s).tail h1).tail h2).tail h3).tail h4).tail h5).tail h6

theorem worker_finishes {i : Fin n} (hf : s.file i = ⟨.connection,0,some i,.connect⟩)
    (hx : s.mutex = none) (hm : s.main ≠ .waiting) :
    Reachable (step maxnconn) s
      { s.put i ⟨.done,0,some i,.exited⟩ with ndone := s.ndone+1 } := by
  have h1 : step maxnconn (s.put i ⟨.done,0,some i,.lock⟩) (.worker i 0 (.data [])) =
      some { s.put i ⟨.done,0,some i,.signal⟩ with mutex := some (.worker i) } := by
    simp [step,workerStep,State.acquire,acquire,State.put,hx]
  have h2 : step maxnconn { s.put i ⟨.done,0,some i,.signal⟩ with mutex := some (.worker i) }
      (.worker i 0 (.data [])) = some { s.put i ⟨.done,0,some i,.unlock⟩ with
        mutex := some (.worker i), ndone := s.ndone+1 } := by
    simp [step,workerStep,State.signal,signal,State.put,hm]
  have h3 : step maxnconn { s.put i ⟨.done,0,some i,.unlock⟩ with
        mutex := some (.worker i), ndone := s.ndone+1 } (.worker i 0 (.data [])) =
      some { s.put i ⟨.done,0,some i,.exited⟩ with ndone := s.ndone+1 } := by
    simp [step,workerStep,State.release,State.put,hx]
  exact (((worker_marks hf).tail h1).tail h2).tail h3

theorem main_meets_mark {i : Fin n} (hi : i.val = 0) (hm : s.main = .lock) (hx : s.mutex = none)
    (hd : s.ndone ≠ 0) (hf : (s.file i).flags = .done) :
    Reachable (step maxnconn) s
      { s with main := .join i, mutex := some .main, log := s.log ++ [.lock] } := by
  have h1 : step maxnconn s .main =
      some { s with main := .test, mutex := some .main, log := s.log ++ [.lock] } := by
    simp [step,mainStep,hm,State.acquire,acquire,hx,State.goto,State.record]
  have h2 : step maxnconn
      { s with main := .test, mutex := some .main, log := s.log ++ [.lock] } .main =
      some { s with main := .reap 0, mutex := some .main, log := s.log ++ [.lock] } := by
    simp [step,mainStep,hd,State.goto]
  have hzero : i = ⟨0,hi ▸ i.isLt⟩ := Fin.ext hi
  have h3 : step maxnconn
      { s with main := .reap 0, mutex := some .main, log := s.log ++ [.lock] } .main =
      some { s with main := .join i, mutex := some .main, log := s.log ++ [.lock] } := by
    rw [hzero] at hf ⊢
    simp [step,mainStep,State.goto,hf,hi ▸ i.isLt]
  exact (((Reachable.refl s).tail h1).tail h2).tail h3

/-- The second thread finishes, the first one marks its file, and `main` comes by. -/
theorem reaches_deadlock (hn : 2 ≤ n) (hmax : 2 ≤ maxnconn) :
    ∃ s i, Reachable (step maxnconn) (init n) s ∧ Deadlocked (n := n) i s := by
  obtain ⟨k,hk2,hkn,hkm,hfull⟩ : ∃ k : ℕ, 2 ≤ k ∧ k ≤ n ∧ (k : ℤ) ≤ maxnconn ∧
      ((k : ℤ) = n ∨ (k : ℤ) = maxnconn) := by
    refine ⟨min n maxnconn.toNat,?_,?_,?_,?_⟩ <;> omega
  obtain ⟨log,hspawned⟩ := reaches_spawned (by omega) hkn hkm
  let i : Fin n := ⟨0,by omega⟩
  let j : Fin n := ⟨1,by omega⟩
  have hij : i ≠ j := by simp [i,j]
  let s₀ := (spawned n k log).goto .lock
  have hlock : step maxnconn (spawned n k log) .main = some s₀ := by
    have hno : ¬ ((k : ℤ) < maxnconn ∧ (0 : ℤ) < n-k) := by omega
    simp only [step,mainStep,spawned,hno,if_false]
    rfl
  let s₁ : State n := { s₀.put j ⟨.done,0,some j,.exited⟩ with ndone := s₀.ndone+1 }
  have hfin : Reachable (step maxnconn) s₀ s₁ := by
    apply worker_finishes
    · simp [s₀,spawned,State.goto,j,show 1 < k by omega]
    · rfl
    · simp [s₀,State.goto]
  have hmark : Reachable (step maxnconn) s₁ (s₁.put i ⟨.done,0,some i,.lock⟩) := by
    apply worker_marks
    simp [s₁,s₀,spawned,State.goto,State.put,hij,i,show 0 < k by omega]
  have hmeet : Reachable (step maxnconn) (s₁.put i ⟨.done,0,some i,.lock⟩) _ :=
    main_meets_mark (i := i) rfl rfl rfl (by simp [State.put,s₁,s₀,spawned,State.goto]) (by simp)
  exact ⟨_,i,(((hspawned.tail hlock).trans hfin).trans hmark).trans hmeet,rfl,rfl,by simp⟩

end Schedule

/-- `main` and one of its threads never wait for each other exactly if there are
never two threads at a time. -/
theorem deadlock_free_iff (n : ℕ) (maxnconn : ℤ) :
    (∀ s : State n, Reachable (step maxnconn) (init n) s → ∀ i, ¬ Deadlocked i s) ↔
      n ≤ 1 ∨ maxnconn ≤ 1 := by
  constructor
  · intro h
    by_contra hno
    obtain ⟨s,i,hs,hd⟩ := reaches_deadlock (show 2 ≤ n by omega) (show 2 ≤ maxnconn by omega)
    exact h s hs i hd
  · intro h1 s hs i
    obtain ⟨hi,hsingle⟩ := reachable_single h1 hs
    exact hsingle.not_deadlocked hi h1 i

/-- Two files, two connections: thread 1 runs to its end and thread 0 up to the mutex
before `main` takes it. -/
theorem two_threads_deadlock : ∃ s : State 2, Reachable (step 2) (init 2) s ∧ Deadlocked 0 s ∧
    ∀ t, Reachable (step 2) s t → Deadlocked 0 t := by
  obtain ⟨s,hs,hp⟩ := exists_reachable (step 2) (init 2)
    (List.replicate 13 Action.main ++ List.replicate 9 (Action.worker 1 5 (.data [])) ++
      List.replicate 6 (Action.worker 0 4 (.data [])) ++ List.replicate 3 Action.main)
    (fun s => decide (Deadlocked 0 s)) (by decide +kernel)
  have hd : Deadlocked 0 s := of_decide_eq_true hp
  exact ⟨s,hs,hd,fun t ht => hd.permanent hs ht⟩

end WebThread
end CPrograming
