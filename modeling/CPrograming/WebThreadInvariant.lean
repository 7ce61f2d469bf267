import CPrograming.WebThread

/-!
# Invariants of the threaded web client

The counters of `main` are numbers of files, up to the updates that `main` has
still to make at the place where it is. Worker threads move one file at a time
and only forward; `WorkerMove` says all that such a step can do.
-/

namespace CPrograming
namespace WebThread

open Runs Counting Monitor

variable {n : ℕ}

abbrev File.Zero (f : File n) : Prop := f.flags = .zero
abbrev File.Left (f : File n) : Prop := f.flags ≠ .joined
abbrev File.Active (f : File n) : Prop := f.worker ≠ .idle ∧ f.flags ≠ .joined
abbrev File.Counted (f : File n) : Prop := f.worker = .unlock ∨ f.worker = .exited
abbrev File.Finished (f : File n) : Prop := f.Counted ∧ f.flags ≠ .joined

/-- A file is flagged and not yet subtracted from `nlefttoconn`. -/
def Main.unborn : Main n → ℤ
  | .create _ => 1
  | .storeTid _ => 1
  | _ => 0

/-- A thread runs that is not yet added to `nconn`. -/
def Main.uncounted : Main n → ℤ
  | .storeTid _ => 1
  | _ => 0

/-- A file is marked joined and not yet subtracted from the other counters. -/
def Main.untallied : Main n → ℤ
  | .tally _ => 1
  | _ => 0

structure Counters (s : State n) : Prop where
  nlefttoconn : s.nlefttoconn = count File.Zero s.file+s.main.unborn
  nconn : s.nconn+s.main.uncounted = count File.Active s.file+s.main.untallied
  nlefttoread : s.nlefttoread = count File.Left s.file+s.main.untallied
  ndone : s.ndone = count File.Finished s.file+s.main.untallied

def FlagsOk (m : Main n) (i : Fin n) (f : File n) : Prop :=
  match f.worker with
  | .idle => f.flags = if m = .create i then .connection else .zero
  | .connect | .request | .setReading => f.flags = .connection
  | .read | .close | .setDone => f.flags = .reading
  | .lock | .signal | .unlock => f.flags = .done
  | .exited => f.flags = .done ∨ f.flags = .joined

structure FileInv (m : Main n) (log : List (Event n)) (i : Fin n) (f : File n) : Prop where
  flags : FlagsOk m i f
  tid : f.worker ≠ .idle → m ≠ .storeTid i → f.tid = some i
  created : log.count (.create i) = if f.worker = .idle then 0 else 1
  joins : log.count (.join i) = if f.flags = .joined ∨ m = .setJoined i then 1 else 0

def Main.about (m : Main n) (i : Fin n) : Prop :=
  m = .create i ∨ m = .storeTid i ∨ m = .setJoined i

/-- While `main` is busy elsewhere, the invariant of a file does not depend on it. -/
theorem FileInv.frame {m m' : Main n} {log log' : List (Event n)} {i : Fin n} {f : File n}
    (h : FileInv m log i f) (hm : ¬ m.about i) (hm' : ¬ m'.about i)
    (hc : log'.count (.create i) = log.count (.create i))
    (hj : log'.count (.join i) = log.count (.join i)) : FileInv m' log' i f := by
  simp only [Main.about,not_or] at hm hm'
  refine ⟨?_,?_,?_,?_⟩
  · have hf := h.flags
    simp only [FlagsOk] at hf ⊢
    simpa only [hm.1,hm'.1] using hf
  · intro hw _
    exact h.tid hw hm.2.1
  · rw [hc,h.created]
  · have hjoins := h.joins
    simp only [hm.2.2,or_false] at hjoins
    simp only [hj,hjoins,hm'.2.2,or_false]

/-- The events after the last time `main` took the mutex, last one first. -/
def sinceLock (log : List (Event n)) : List (Event n) :=
  log.reverse.takeWhile fun e => e ≠ .lock

def Event.printed : Event n → Option ℤ
  | .print v _ => some v
  | _ => none

def lastPrint (log : List (Event n)) : ℤ := (log.filterMap Event.printed).getLast?.getD n

/-- When a pass is reported it has joined a thread, and fewer files are left. -/
def PassOk (pre : List (Event n)) : Event n → Prop
  | .print v _ => (∃ i, .join i ∈ sinceLock pre) ∧ v < lastPrint pre
  | _ => True

def Progress (s : State n) : Prop :=
  (∃ i, .join i ∈ sinceLock s.log) ∧ s.nlefttoread < lastPrint s.log

def PassInv (s : State n) : Prop :=
  match s.main with
  | .reap k => Progress s ∨
      s.nlefttoread = lastPrint s.log ∧ ∃ i : Fin n, k ≤ i.val ∧ (s.file i).Finished
  | .join _ => s.nlefttoread ≤ lastPrint s.log
  | .setJoined _ | .tally _ =>
      (∃ i, .join i ∈ sinceLock s.log) ∧ s.nlefttoread ≤ lastPrint s.log
  | .unlock | .report => Progress s
  | _ => s.nlefttoread = lastPrint s.log

def Place (maxnconn : ℤ) (s : State n) : Prop :=
  match s.main with
  | .spawn => 0 < s.nlefttoread
  | .find k => (0 < s.nlefttoread ∧ s.nconn < maxnconn) ∧
      ∃ i : Fin n, k ≤ i.val ∧ (s.file i).flags = .zero
  | .setConnection i => (0 < s.nlefttoread ∧ s.nconn < maxnconn) ∧ (s.file i).flags = .zero
  | .create i => (0 < s.nlefttoread ∧ s.nconn < maxnconn) ∧ (s.file i).worker = .idle
  | .storeTid _ => 0 < s.nlefttoread ∧ s.nconn < maxnconn
  | .lock | .test | .woken => 1 ≤ maxnconn → 1 ≤ s.nconn
  | .waiting => (1 ≤ maxnconn → 1 ≤ s.nconn) ∧ s.ndone = 0
  | .join i => (s.file i).flags = .done
  | .setJoined i => (s.file i).flags = .done ∧ (s.file i).worker = .exited
  | .tally i => (s.file i).worker = .exited ∧ (s.file i).flags = .joined
  | .returned => s.nlefttoread ≤ 0
  | .nothingFound => False
  | .outer | .reap _ | .unlock | .report => True

structure Inv (maxnconn : ℤ) (s : State n) : Prop where
  files : ∀ i, FileInv s.main s.log i (s.file i)
  counters : Counters s
  limit : s.nconn ≤ max maxnconn 0
  place : Place maxnconn s
  pass : PassInv s
  passes : Always PassOk s.log

inductive MainStep (maxnconn : ℤ) (s : State n) : State n → Prop
  | outer (hm : s.main = .outer) :
      MainStep maxnconn s (s.goto (if 0 < s.nlefttoread then .spawn else .returned))
  | spawn (hm : s.main = .spawn) :
      MainStep maxnconn s
        (s.goto (if s.nconn < maxnconn ∧ 0 < s.nlefttoconn then .find 0 else .lock))
  | find (i : Fin n) (hm : s.main = .find i) :
      MainStep maxnconn s
        (s.goto (if (s.file i).flags = .zero then .setConnection i else .find (i+1)))
  | missing (i : ℕ) (hm : s.main = .find i) (hn : ¬ i < n) :
      MainStep maxnconn s (s.goto .nothingFound)
  | setConnection (i : Fin n) (hm : s.main = .setConnection i) :
      MainStep maxnconn s ((s.put i { s.file i with flags := .connection }).goto (.create i))
  | create (i : Fin n) (hm : s.main = .create i) :
      MainStep maxnconn s
        (((s.put i { s.file i with worker := .connect }).record (.create i)).goto (.storeTid i))
  | storeTid (i : Fin n) (hm : s.main = .storeTid i) :
      MainStep maxnconn s { (s.put i { s.file i with tid := some i }).goto .spawn with
        nconn := s.nconn+1, nlefttoconn := s.nlefttoconn-1 }
  | lock (hm : s.main = .lock) (hx : s.mutex = none) :
      MainStep maxnconn s { s with main := .test, mutex := some .main, log := s.log ++ [.lock] }
  | test (hm : s.main = .test) :
      MainStep maxnconn s (if s.ndone = 0 then s.release.goto .waiting else s.goto (.reap 0))
  | woken (hm : s.main = .woken) (hx : s.mutex = none) :
      MainStep maxnconn s { s with main := .test, mutex := some .main }
  | reap (i : Fin n) (hm : s.main = .reap i) :
      MainStep maxnconn s (s.goto (if (s.file i).flags = .done then .join i else .reap (i+1)))
  | pass (i : ℕ) (hm : s.main = .reap i) (hn : ¬ i < n) : MainStep maxnconn s (s.goto .unlock)
  | join (i j : Fin n) (hm : s.main = .join i) (htid : (s.file i).tid = some j)
      (hw : (s.file j).worker = .exited) :
      MainStep maxnconn s ((s.record (.join j)).goto (.setJoined i))
  | setJoined (i : Fin n) (hm : s.main = .setJoined i) :
      MainStep maxnconn s ((s.put i { s.file i with flags := .joined }).goto (.tally i))
  | tally (i : Fin n) (hm : s.main = .tally i) :
      MainStep maxnconn s { s.goto (.reap (i+1)) with
        nconn := s.nconn-1, nlefttoread := s.nlefttoread-1, ndone := s.ndone-1 }
  | unlock (hm : s.main = .unlock) :
      MainStep maxnconn s ((s.release.record .unlock).goto .report)
  | report (hm : s.main = .report) :
      MainStep maxnconn s ((s.record (.print s.nlefttoread s.ndone)).goto .outer)

theorem mainStep_cases {maxnconn : ℤ} {s t : State n} (h : mainStep maxnconn s = some t) :
    MainStep maxnconn s t := by
  simp only [mainStep] at h
  cases hm : s.main <;> simp only [hm,reduceCtorEq,Option.some.injEq] at h
  case outer => exact h ▸ .outer hm
  case spawn => exact h ▸ .spawn hm
  case find i =>
    by_cases hn : i < n <;> simp only [hn,dite_true,dite_false,Option.some.injEq] at h
    · exact h ▸ .find ⟨i,hn⟩ hm
    · exact h ▸ .missing i hm hn
  case setConnection i => exact h ▸ .setConnection i hm
  case create i => exact h ▸ .create i hm
  case storeTid i => exact h ▸ .storeTid i hm
  case lock =>
    obtain ⟨u,hu,rfl⟩ := Option.map_eq_some_iff.mp h
    obtain ⟨hx,rfl⟩ := acquire_eq_some.mp hu
    exact .lock hm hx
  case test => exact h ▸ .test hm
  case woken =>
    obtain ⟨u,hu,rfl⟩ := Option.map_eq_some_iff.mp h
    obtain ⟨hx,rfl⟩ := acquire_eq_some.mp hu
    exact .woken hm hx
  case reap i =>
    by_cases hn : i < n <;> simp only [hn,dite_true,dite_false,Option.some.injEq] at h
    · exact h ▸ .reap ⟨i,hn⟩ hm
    · exact h ▸ .pass i hm hn
  case join i =>
    cases htid : (s.file i).tid with
    | none => simp [htid] at h
    | some j =>
      simp only [htid] at h
      split_ifs at h with hw
      cases h
      exact .join i j hm htid hw
  case setJoined i => exact h ▸ .setJoined i hm
  case tally i => exact h ▸ .tally i hm
  case unlock => exact h ▸ .unlock hm
  case report => exact h ▸ .report hm

@[simp] theorem sinceLock_snoc (log : List (Event n)) (e : Event n) :
    sinceLock (log ++ [e]) = if e = .lock then [] else e :: sinceLock log := by
  by_cases h : e = .lock <;> simp [sinceLock,h]

@[simp] theorem lastPrint_snoc (log : List (Event n)) (e : Event n) :
    lastPrint (log ++ [e]) = e.printed.getD (lastPrint log) := by
  cases h : e.printed <;> simp [lastPrint,List.filterMap_append,h]

theorem init_inv (maxnconn : ℤ) : Inv maxnconn (init n) where
  files i := ⟨rfl,by simp [init],by simp [init],by simp [init]⟩
  counters := ⟨by simp [init,Main.unborn],by simp [init,Main.uncounted,Main.untallied],
    by simp [init,Main.untallied],by simp [init,Main.untallied]⟩
  limit := le_max_right maxnconn 0
  place := trivial
  pass := by simp [PassInv,init,lastPrint]
  passes := always_nil _

/-- A thread goes forward with its file: it keeps its identity, what it has counted
and the end mark, and its flags stay those of its place. -/
structure FileMove (i : Fin n) (f g : File n) : Prop where
  tid : g.tid = f.tid
  running : f.worker ≠ .idle ∧ f.worker ≠ .exited
  started : g.worker ≠ .idle
  counted : f.Counted → g.Counted
  flags : ∀ m, FlagsOk m i f → FlagsOk m i g ∧ f.flags ≠ .zero ∧ f.flags ≠ .joined ∧
    g.flags ≠ .zero ∧ g.flags ≠ .joined ∧ (f.flags = .done → g.flags = .done)

structure WorkerMove (s : State n) (i : Fin n) (t : State n) : Prop where
  file : t.file = Function.update s.file i (t.file i)
  move : FileMove i (s.file i) (t.file i)
  main : t.main = s.main ∨ s.main = .waiting ∧ t.main = .woken
  log : t.log = s.log
  nconn : t.nconn = s.nconn
  nlefttoconn : t.nlefttoconn = s.nlefttoconn
  nlefttoread : t.nlefttoread = s.nlefttoread
  ndone : t.ndone+weight File.Counted (s.file i) = s.ndone+weight File.Counted (t.file i)
  waits : t.main = .waiting → t.ndone = s.ndone

theorem workerMove_put {s : State n} {i : Fin n} {g : File n} (m : Option (Owner n))
    (h : FileMove i (s.file i) g) (hc : weight File.Counted (s.file i) = weight File.Counted g) :
    WorkerMove s i { s.put i g with mutex := m } where
  file := by simp [State.put]
  move := by simpa [State.put] using h
  main := Or.inl rfl
  log := rfl
  nconn := rfl
  nlefttoconn := rfl
  nlefttoread := rfl
  ndone := by simp [State.put,hc]
  waits _ := rfl

theorem workerMove_signal {s : State n} {i : Fin n} (hw : (s.file i).worker = .signal) :
    WorkerMove s i { (s.put i { s.file i with worker := .unlock }).signal with
      ndone := s.ndone+1 } := by
  have hmove : FileMove i (s.file i) { s.file i with worker := .unlock } :=
    ⟨rfl,by simp [hw],by simp,by simp [File.Counted],by simp_all [FlagsOk]⟩
  simp only [State.signal,signal]
  split_ifs with hm
  · refine ⟨by simp [State.put,State.goto],?_,Or.inr ⟨hm,rfl⟩,rfl,rfl,rfl,rfl,?_,?_⟩
    · simpa [State.put,State.goto] using hmove
    · simp [State.put,State.goto,weight,File.Counted,hw]
    · simp [State.goto]
  · refine ⟨by simp [State.put],?_,Or.inl rfl,rfl,rfl,rfl,rfl,?_,?_⟩
    · simpa [State.put] using hmove
    · simp [State.put,weight,File.Counted,hw]
    · intro hwait
      exact absurd hwait hm

theorem workerStep_move {s t : State n} {i : Fin n} {fd : ℤ} {got : ReadAnswer}
    (h : workerStep s i fd got = some t) : WorkerMove s i t := by
  simp only [workerStep] at h
  cases hw : (s.file i).worker <;> simp only [hw,reduceCtorEq,Option.some.injEq] at h
  case read =>
    subst t
    apply workerMove_put s.mutex
    · refine ⟨rfl,by simp [hw],?_,by simp [File.Counted,hw],?_⟩
      · split_ifs <;> simp
      · split_ifs <;> simp_all [FlagsOk]
    · split_ifs <;> simp [weight,File.Counted,hw]
  case lock =>
    obtain ⟨u,hu,rfl⟩ := Option.map_eq_some_iff.mp h
    obtain ⟨-,rfl⟩ := acquire_eq_some.mp hu
    exact workerMove_put _ ⟨rfl,by simp [hw],by simp,by simp [File.Counted,hw],
      by simp_all [FlagsOk]⟩ (by simp [weight,File.Counted,hw])
  case signal =>
    subst t
    exact workerMove_signal hw
  all_goals
    subst t
    exact workerMove_put _ ⟨rfl,by simp [hw],by simp,by simp [File.Counted,hw],
      by simp_all [FlagsOk]⟩ (by simp [weight,File.Counted,hw])

section Workers

variable {s t : State n} {i : Fin n}

theorem WorkerMove.file_ne (h : WorkerMove s i t) {j : Fin n} (hj : j ≠ i) :
    t.file j = s.file j := by
  rw [h.file,Function.update_of_ne hj]

theorem WorkerMove.count_file (h : WorkerMove s i t) (p : File n → Prop) [DecidablePred p] :
    count p t.file+weight p (s.file i) = count p s.file+weight p (t.file i) := by
  rw [h.file,Function.update_self]
  exact count_update i (t.file i)

theorem WorkerMove.main_eq (h : WorkerMove s i t) (hw : s.main ≠ .waiting) : t.main = s.main := by
  rcases h.main with hm | ⟨hm,-⟩
  · exact hm
  · exact absurd hm hw

theorem WorkerMove.fileInv (h : WorkerMove s i t) {j : Fin n}
    (hf : FileInv s.main s.log j (s.file j)) : FileInv t.main t.log j (t.file j) := by
  have hmain : FileInv t.main t.log j (s.file j) := by
    rw [h.log]
    rcases h.main with hm | ⟨hm,hm'⟩
    · rwa [hm]
    · exact hf.frame (by simp [hm,Main.about]) (by simp [hm',Main.about]) rfl rfl
  by_cases hj : j = i
  · subst j
    obtain ⟨hflags,-,hleft,-,hleft',-⟩ := h.move.flags _ hmain.flags
    refine ⟨hflags,?_,?_,?_⟩
    · intro _ hm
      rw [h.move.tid]
      exact hmain.tid h.move.running.1 hm
    · rw [if_neg h.move.started,hmain.created,if_neg h.move.running.1]
    · simpa [hleft,hleft'] using hmain.joins
  · rwa [h.file_ne hj]

theorem WorkerMove.counters (h : WorkerMove s i t) (hf : FlagsOk s.main i (s.file i))
    (hc : Counters s) : Counters t := by
  obtain ⟨-,hzero,hleft,hzero',hleft',-⟩ := h.move.flags _ hf
  have hz := h.count_file File.Zero
  have ha := h.count_file File.Active
  have hl := h.count_file File.Left
  have hd := h.count_file File.Finished
  have hn := h.ndone
  have hind : t.main.unborn = s.main.unborn ∧ t.main.uncounted = s.main.uncounted ∧
      t.main.untallied = s.main.untallied := by
    rcases h.main with hm | ⟨hm,hm'⟩
    · simp [hm]
    · simp [hm,hm',Main.unborn,Main.uncounted,Main.untallied]
  obtain ⟨hu,hv,hw⟩ := hind
  obtain ⟨h1,h2,h3,h4⟩ := hc
  simp only [weight,File.Zero,File.Active,File.Left,File.Finished,File.Counted,hzero,hzero',hleft,
    hleft',h.move.running.1,h.move.started,ne_eq,not_false_eq_true,and_self,and_true,if_true,
    if_false] at hz ha hl hd hn
  refine ⟨?_,?_,?_,?_⟩
  · rw [h.nlefttoconn,hu]; omega
  · rw [h.nconn,hv,hw]; omega
  · rw [h.nlefttoread,hw]; omega
  · rw [hw]; omega

theorem WorkerMove.place {maxnconn : ℤ} (h : WorkerMove s i t)
    (hf : FlagsOk s.main i (s.file i)) (hp : Place maxnconn s) : Place maxnconn t := by
  obtain ⟨-,hzero,hleft,-,-,hdone⟩ := h.move.flags _ hf
  have hother {j : Fin n} (hj : ¬ j = i) := h.file_ne hj
  by_cases hw : s.main = .waiting
  · simp only [Place,hw] at hp
    rcases h.main with hm | ⟨-,hm⟩
    · simp only [Place,hm,hw,h.nconn,h.waits (hm.trans hw)]
      exact hp
    · simp only [Place,hm,h.nconn]
      exact hp.1
  · have hm := h.main_eq hw
    simp only [Place] at hp ⊢
    rw [hm,h.nconn,h.nlefttoread]
    cases hs : s.main with
    | find k =>
      simp only [hs] at hp
      obtain ⟨hlt,j,hk,hz⟩ := hp
      have hj : j ≠ i := by rintro rfl; exact hzero hz
      exact ⟨hlt,j,hk,by rw [hother hj]; exact hz⟩
    | setConnection j =>
      simp only [hs] at hp
      have hj : j ≠ i := by rintro rfl; exact hzero hp.2
      simpa only [hother hj] using hp
    | create j =>
      simp only [hs] at hp
      have hj : j ≠ i := by rintro rfl; exact h.move.running.1 hp.2
      simpa only [hother hj] using hp
    | join j =>
      simp only [hs] at hp
      by_cases hj : j = i
      · subst j
        exact hdone hp
      · simpa only [hother hj] using hp
    | setJoined j =>
      simp only [hs] at hp
      have hj : j ≠ i := by rintro rfl; exact h.move.running.2 hp.2
      simpa only [hother hj] using hp
    | tally j =>
      simp only [hs] at hp
      have hj : j ≠ i := by rintro rfl; exact h.move.running.2 hp.1
      simpa only [hother hj] using hp
    | waiting => exact absurd hs hw
    | _ =>
      rw [hs] at hp
      exact hp

theorem WorkerMove.pass (h : WorkerMove s i t) (hf : FlagsOk s.main i (s.file i))
    (hp : PassInv s) : PassInv t := by
  obtain ⟨-,-,hleft,-,hleft',-⟩ := h.move.flags _ hf
  by_cases hw : s.main = .waiting
  · simp only [PassInv,hw] at hp
    rcases h.main with hm | ⟨-,hm⟩
    · simpa only [PassInv,hm,hw,h.nlefttoread,h.log] using hp
    · simpa only [PassInv,hm,h.nlefttoread,h.log] using hp
  · have hm := h.main_eq hw
    simp only [PassInv,Progress] at hp ⊢
    rw [hm,h.log,h.nlefttoread]
    cases hs : s.main with
    | reap k =>
      simp only [hs] at hp
      rcases hp with hp | ⟨hl,j,hk,hc⟩
      · exact Or.inl hp
      · refine Or.inr ⟨hl,j,hk,?_⟩
        by_cases hj : j = i
        · subst j
          exact ⟨h.move.counted hc.1,hleft'⟩
        · rw [h.file_ne hj]
          exact hc
    | _ => simpa only [hs] using hp

theorem WorkerMove.inv {maxnconn : ℤ} (h : WorkerMove s i t) (hi : Inv maxnconn s) :
    Inv maxnconn t where
  files j := h.fileInv (hi.files j)
  counters := h.counters (hi.files i).flags hi.counters
  limit := by rw [h.nconn]; exact hi.limit
  place := h.place (hi.files i).flags hi.place
  pass := h.pass (hi.files i).flags hi.pass
  passes := by rw [h.log]; exact hi.passes

end Workers

/-- Between two places that owe no update, only the log and the mutex change. -/
def Main.quiet : Main n → Bool
  | .create _ => false
  | .storeTid _ => false
  | .setJoined _ => false
  | .tally _ => false
  | _ => true

section Steps

variable {maxnconn : ℤ} {s : State n}

theorem Main.not_about {m : Main n} (hm : m.quiet = true) (i : Fin n) : ¬ m.about i := by
  cases m <;> simp_all [Main.quiet,Main.about]

theorem Inv.quiet {m : Main n} {log : List (Event n)} (hi : Inv maxnconn s)
    (hs : s.main.quiet = true) (hm : m.quiet = true) (x : Option (Owner n))
    (hc : ∀ i, log.count (.create i) = s.log.count (.create i))
    (hj : ∀ i, log.count (.join i) = s.log.count (.join i))
    (hplace : Place maxnconn { s with main := m, mutex := x, log := log })
    (hpass : PassInv { s with main := m, mutex := x, log := log })
    (hpasses : Always PassOk log) :
    Inv maxnconn { s with main := m, mutex := x, log := log } where
  files i := (hi.files i).frame (Main.not_about hs i) (Main.not_about hm i) (hc i) (hj i)
  counters := by
    have hz : ∀ m : Main n, m.quiet = true → m.unborn = 0 ∧ m.uncounted = 0 ∧ m.untallied = 0 := by
      intro m hm
      cases m <;> simp_all [Main.quiet,Main.unborn,Main.uncounted,Main.untallied]
    obtain ⟨hu,hv,hw⟩ := hz m hm
    obtain ⟨hu',hv',hw'⟩ := hz s.main hs
    obtain ⟨h1,h2,h3,h4⟩ := hi.counters
    rw [hu'] at h1
    rw [hv',hw'] at h2
    rw [hw'] at h3 h4
    exact ⟨by rw [hu]; exact h1,by rw [hv,hw]; exact h2,by rw [hw]; exact h3,by rw [hw]; exact h4⟩
  limit := hi.limit
  place := hplace
  pass := hpass
  passes := hpasses

theorem Inv.goto {m : Main n} (hi : Inv maxnconn s) (hs : s.main.quiet = true)
    (hm : m.quiet = true) (hplace : Place maxnconn (s.goto m)) (hpass : PassInv (s.goto m)) :
    Inv maxnconn (s.goto m) :=
  hi.quiet hs hm s.mutex (fun _ => rfl) (fun _ => rfl) hplace hpass hi.passes

theorem Inv.here {m : Main n} (hi : Inv maxnconn s) (hm : s.main = m) :
    Place maxnconn (s.goto m) ∧ PassInv (s.goto m) := by
  subst hm
  exact ⟨hi.place,hi.pass⟩

theorem FlagsOk.zero_iff {m : Main n} {i : Fin n} {f : File n} (h : FlagsOk m i f)
    (hm : m ≠ .create i) : f.flags = .zero ↔ f.worker = .idle := by
  simp only [FlagsOk] at h
  cases hw : f.worker <;> simp only [hw,hm,if_false] at h
  case exited => rcases h with h | h <;> simp [h]
  all_goals simp [h]

theorem Inv.left_split (hi : Inv maxnconn s) (hm : ∀ i, s.main ≠ .create i) :
    count File.Left s.file = count File.Zero s.file+count File.Active s.file := by
  have hz (i : Fin n) := (hi.files i).flags.zero_iff (hm i)
  apply count_split
  · intro i
    by_cases h : (s.file i).flags = .zero
    · simp [File.Left,File.Zero,h]
    · have hw : (s.file i).worker ≠ .idle := fun hw => h ((hz i).mpr hw)
      simp [File.Left,File.Zero,File.Active,h,hw]
  · intro i h ha
    exact ha.1 ((hz i).mp h)

theorem inv_outer (hi : Inv maxnconn s) (hm : s.main = .outer) :
    Inv maxnconn (s.goto (if 0 < s.nlefttoread then .spawn else .returned)) := by
  have hpass := (hi.here hm).2
  split_ifs with h
  · exact hi.goto (by rw [hm]; rfl) rfl h hpass
  · exact hi.goto (by rw [hm]; rfl) rfl (not_lt.mp h) hpass

/-- The spawn loop ends with a thread to wait for, if any may be started at all. -/
theorem inv_spawn (hi : Inv maxnconn s) (hm : s.main = .spawn) :
    Inv maxnconn (s.goto
      (if s.nconn < maxnconn ∧ 0 < s.nlefttoconn then .find 0 else .lock)) := by
  obtain ⟨hplace,hpass⟩ := hi.here hm
  obtain ⟨h1,h2,h3,-⟩ := hi.counters
  simp only [hm,Main.unborn,Main.uncounted,Main.untallied,add_zero] at h1 h2 h3
  split_ifs with h
  · refine hi.goto (by rw [hm]; rfl) rfl ⟨⟨hplace,h.1⟩,?_⟩ hpass
    obtain ⟨i,hz⟩ := count_pos_iff.mp (show 0 < count File.Zero s.file by omega)
    exact ⟨i,Nat.zero_le i.val,hz⟩
  · refine hi.goto (by rw [hm]; rfl) rfl ?_ hpass
    intro hmax
    have hsplit := hi.left_split (by simp [hm])
    have hleft : 0 < s.nlefttoread := hplace
    show 1 ≤ s.nconn
    omega

theorem inv_find {i : ℕ} (hi : Inv maxnconn s) (hm : s.main = .find i) (h : i < n) :
    Inv maxnconn (s.goto
      (if (s.file ⟨i,h⟩).flags = .zero then .setConnection ⟨i,h⟩ else .find (i+1))) := by
  obtain ⟨hplace,hpass⟩ := hi.here hm
  split_ifs with hz
  · exact hi.goto (by rw [hm]; rfl) rfl ⟨hplace.1,hz⟩ hpass
  · obtain ⟨hlt,j,hj,hzj⟩ := hplace
    have hne : j.val ≠ i := by
      rintro rfl
      exact hz hzj
    exact hi.goto (by rw [hm]; rfl) rfl ⟨hlt,j,by omega,hzj⟩ hpass

theorem find_bound {i : ℕ} (hi : Inv maxnconn s) (hm : s.main = .find i) : i < n := by
  have hplace := (hi.here hm).1
  obtain ⟨-,j,hj,-⟩ := hplace
  exact lt_of_le_of_lt hj j.isLt

theorem inv_lock (hi : Inv maxnconn s) (hm : s.main = .lock) :
    Inv maxnconn { s with main := .test, mutex := some .main, log := s.log ++ [.lock] } := by
  obtain ⟨hplace,hpass⟩ := hi.here hm
  refine hi.quiet (by rw [hm]; rfl) rfl _ (by simp) (by simp) hplace ?_ ?_
  · have hprinted : s.nlefttoread = lastPrint s.log := hpass
    simpa [PassInv,Event.printed] using hprinted
  · exact (always_snoc _ _ _).mpr ⟨hi.passes,trivial⟩

/-- Leaving the wait loop, some thread has finished and is not yet joined. -/
theorem inv_test (hi : Inv maxnconn s) (hm : s.main = .test) :
    Inv maxnconn (if s.ndone = 0 then s.release.goto .waiting else s.goto (.reap 0)) := by
  obtain ⟨hplace,hpass⟩ := hi.here hm
  split_ifs with h
  · exact hi.quiet (by rw [hm]; rfl) rfl none (fun _ => rfl) (fun _ => rfl) ⟨hplace,h⟩ hpass
      hi.passes
  · refine hi.goto (by rw [hm]; rfl) rfl trivial (Or.inr ⟨hpass,?_⟩)
    have hd := hi.counters.ndone
    simp only [hm,Main.untallied,add_zero] at hd
    obtain ⟨j,hj⟩ := count_pos_iff.mp (show 0 < count File.Finished s.file by omega)
    exact ⟨j,Nat.zero_le j.val,hj⟩

theorem inv_woken (hi : Inv maxnconn s) (hm : s.main = .woken) :
    Inv maxnconn { s with main := .test, mutex := some .main } := by
  obtain ⟨hplace,hpass⟩ := hi.here hm
  exact hi.quiet (by rw [hm]; rfl) rfl _ (fun _ => rfl) (fun _ => rfl) hplace hpass hi.passes

theorem inv_spurious (hi : Inv maxnconn s) (hm : s.main = .waiting) :
    Inv maxnconn (s.goto .woken) := by
  obtain ⟨hplace,hpass⟩ := hi.here hm
  exact hi.goto (by rw [hm]; rfl) rfl hplace.1 hpass

theorem FlagsOk.done_of_finished {m : Main n} {i : Fin n} {f : File n} (h : FlagsOk m i f)
    (hf : f.Finished) : f.flags = .done := by
  obtain ⟨hw | hw,hl⟩ := hf
  · simpa only [FlagsOk,hw] using h
  · simp only [FlagsOk,hw] at h
    exact h.resolve_right hl

theorem inv_reap {i : ℕ} (hi : Inv maxnconn s) (hm : s.main = .reap i) (h : i < n) :
    Inv maxnconn (s.goto
      (if (s.file ⟨i,h⟩).flags = .done then .join ⟨i,h⟩ else .reap (i+1))) := by
  have hpass := (hi.here hm).2
  split_ifs with hd
  · refine hi.goto (by rw [hm]; rfl) rfl hd ?_
    rcases hpass with hpass | hpass
    · exact hpass.2.le
    · exact hpass.1.le
  · refine hi.goto (by rw [hm]; rfl) rfl trivial ?_
    rcases hpass with hpass | ⟨hl,j,hj,hf⟩
    · exact Or.inl hpass
    · have hne : j.val ≠ i := by
        rintro rfl
        exact hd ((hi.files j).flags.done_of_finished hf)
      exact Or.inr ⟨hl,j,by omega,hf⟩

theorem inv_reap_end {i : ℕ} (hi : Inv maxnconn s) (hm : s.main = .reap i) (h : ¬ i < n) :
    Inv maxnconn (s.goto .unlock) := by
  have hpass := (hi.here hm).2
  rcases hpass with hpass | ⟨-,j,hj,-⟩
  · exact hi.goto (by rw [hm]; rfl) rfl trivial hpass
  · exact absurd (lt_of_le_of_lt hj j.isLt) h

theorem inv_unlock (hi : Inv maxnconn s) (hm : s.main = .unlock) :
    Inv maxnconn { s with main := .report, mutex := none, log := s.log ++ [.unlock] } := by
  have hpass := (hi.here hm).2
  refine hi.quiet (by rw [hm]; rfl) rfl _ (by simp) (by simp) trivial ?_ ?_
  · have hprogress : Progress s := hpass
    simpa [PassInv,Progress,Event.printed] using hprogress
  · exact (always_snoc _ _ _).mpr ⟨hi.passes,trivial⟩

theorem inv_report (hi : Inv maxnconn s) (hm : s.main = .report) :
    Inv maxnconn ((s.record (.print s.nlefttoread s.ndone)).goto .outer) := by
  have hpass := (hi.here hm).2
  refine hi.quiet (by rw [hm]; rfl) rfl s.mutex (by simp [State.record]) (by simp [State.record])
    trivial ?_ ?_
  · simp [PassInv,State.record,Event.printed]
  · exact (always_snoc _ _ _).mpr ⟨hi.passes,hpass⟩

/-- An update of file `i` moves each counter by the weight that the file gains, and
by what `main` owes. -/
theorem Counters.put {t : State n} {i : Fin n} {f : File n} (hc : Counters s)
    (hf : t.file = Function.update s.file i f)
    (h1 : t.nlefttoconn+weight File.Zero (s.file i)+s.main.unborn =
      s.nlefttoconn+weight File.Zero f+t.main.unborn)
    (h2 : t.nconn+weight File.Active (s.file i)+s.main.untallied+t.main.uncounted =
      s.nconn+weight File.Active f+t.main.untallied+s.main.uncounted)
    (h3 : t.nlefttoread+weight File.Left (s.file i)+s.main.untallied =
      s.nlefttoread+weight File.Left f+t.main.untallied)
    (h4 : t.ndone+weight File.Finished (s.file i)+s.main.untallied =
      s.ndone+weight File.Finished f+t.main.untallied) : Counters t := by
  obtain ⟨c1,c2,c3,c4⟩ := hc
  have hz : _ = _ := count_update (p := File.Zero) (f := s.file) i f
  have ha : _ = _ := count_update (p := File.Active) (f := s.file) i f
  have hl : _ = _ := count_update (p := File.Left) (f := s.file) i f
  have hd : _ = _ := count_update (p := File.Finished) (f := s.file) i f
  refine ⟨?_,?_,?_,?_⟩ <;> rw [hf] <;> omega

theorem Inv.files_of {m : Main n} {log : List (Event n)} {file : Fin n → File n} {i : Fin n}
    (hi : Inv maxnconn s) (hfile : ∀ j, j ≠ i → file j = s.file j)
    (hs : ∀ j, j ≠ i → ¬ s.main.about j) (hm : ∀ j, j ≠ i → ¬ m.about j)
    (hc : ∀ j, j ≠ i → log.count (.create j) = s.log.count (.create j))
    (hj : ∀ j, j ≠ i → log.count (.join j) = s.log.count (.join j))
    (hf : FileInv m log i (file i)) (j : Fin n) : FileInv m log j (file j) := by
  by_cases hne : j = i
  · subst j
    exact hf
  · rw [hfile j hne]
    exact (hi.files j).frame (hs j hne) (hm j hne) (hc j hne) (hj j hne)

theorem put_file_ne {i j : Fin n} {f : File n} (hj : j ≠ i) :
    Function.update s.file i f j = s.file j := Function.update_of_ne hj f s.file

theorem inv_setConnection {i : Fin n} (hi : Inv maxnconn s) (hm : s.main = .setConnection i) :
    Inv maxnconn ((s.put i { s.file i with flags := .connection }).goto (.create i)) := by
  obtain ⟨hplace,hpass⟩ := hi.here hm
  have hzero : (s.file i).flags = .zero := hplace.2
  have hidle := ((hi.files i).flags.zero_iff (by simp [hm])).mp hzero
  refine ⟨?_,?_,hi.limit,⟨hplace.1,by simp [State.put,State.goto,hidle]⟩,hpass,hi.passes⟩
  · obtain ⟨-,-,hc,hj⟩ := hi.files i
    simp only [hidle,if_true] at hc
    simp only [hm,hzero,reduceCtorEq,or_self,if_false] at hj
    apply hi.files_of (fun j => put_file_ne) (by simp [hm,Main.about])
      (by simp [State.goto,Main.about,eq_comm])
      (fun _ _ => rfl) (fun _ _ => rfl)
    refine ⟨?_,?_,?_,?_⟩ <;> simp [State.put,State.goto,FlagsOk,hidle,hc,hj]
  · apply hi.counters.put rfl <;>
      simp [State.put,State.goto,weight,File.Zero,File.Active,File.Left,File.Finished,
        File.Counted,hm,hidle,hzero,Main.unborn,Main.uncounted,Main.untallied]

theorem inv_create {i : Fin n} (hi : Inv maxnconn s) (hm : s.main = .create i) :
    Inv maxnconn (((s.put i { s.file i with worker := .connect }).record (.create i)).goto
      (.storeTid i)) := by
  obtain ⟨hplace,hpass⟩ := hi.here hm
  have hidle : (s.file i).worker = .idle := hplace.2
  have hprinted : s.nlefttoread = lastPrint s.log := hpass
  obtain ⟨hflags,-,hc,hj⟩ := hi.files i
  simp only [FlagsOk,hidle,hm,if_true] at hflags
  refine ⟨?_,?_,hi.limit,hplace.1,?_,(always_snoc _ _ _).mpr ⟨hi.passes,trivial⟩⟩
  · simp only [hidle,if_true] at hc
    simp only [hm,hflags,reduceCtorEq,or_self,if_false] at hj
    apply hi.files_of (fun j => put_file_ne) (by simp [hm,Main.about,eq_comm])
      (by simp [State.goto,Main.about,eq_comm])
    · intro j hne
      simp [State.goto,State.record,State.put,Ne.symm hne]
    · simp [State.goto,State.record,State.put]
    · refine ⟨?_,?_,?_,?_⟩ <;>
        simp [State.put,State.goto,State.record,FlagsOk,hflags,hc,hj]
  · apply hi.counters.put rfl <;>
      simp [State.put,State.goto,State.record,weight,File.Zero,File.Active,File.Left,
        File.Finished,File.Counted,hm,hflags,hidle,Main.unborn,Main.uncounted,Main.untallied]
  · simpa [PassInv,State.goto,State.record,State.put,Event.printed] using hprinted

theorem inv_storeTid {i : Fin n} (hi : Inv maxnconn s) (hm : s.main = .storeTid i) :
    Inv maxnconn { (s.put i { s.file i with tid := some i }).goto .spawn with
      nconn := s.nconn+1, nlefttoconn := s.nlefttoconn-1 } := by
  obtain ⟨hplace,hpass⟩ := hi.here hm
  have hlt : s.nconn < maxnconn := hplace.2
  refine ⟨?_,?_,?_,hplace.1,hpass,hi.passes⟩
  · obtain ⟨hflags,-,hc,hj⟩ := hi.files i
    apply hi.files_of (fun j => put_file_ne) (by simp [hm,Main.about,eq_comm])
      (by simp [State.goto,Main.about])
      (fun _ _ => rfl) (fun _ _ => rfl)
    refine ⟨?_,?_,?_,?_⟩
    · simpa [FlagsOk,hm,State.put,State.goto] using hflags
    · simp [State.put,State.goto]
    · simpa [State.put,State.goto] using hc
    · simpa [State.put,State.goto,hm] using hj
  · apply hi.counters.put rfl <;>
      simp only [State.put,State.goto,weight,File.Zero,File.Active,File.Left,File.Finished,
        File.Counted,hm,Main.unborn,Main.uncounted,Main.untallied] <;> ring
  · show s.nconn+1 ≤ max maxnconn 0
    have := le_max_left maxnconn 0
    omega

theorem inv_join {i : Fin n} (hi : Inv maxnconn s) (hm : s.main = .join i)
    (hw : (s.file i).worker = .exited) :
    Inv maxnconn ((s.record (.join i)).goto (.setJoined i)) := by
  obtain ⟨hplace,hpass⟩ := hi.here hm
  have hdone : (s.file i).flags = .done := hplace
  have hprinted : s.nlefttoread ≤ lastPrint s.log := hpass
  refine ⟨?_,?_,hi.limit,⟨hdone,hw⟩,?_,(always_snoc _ _ _).mpr ⟨hi.passes,trivial⟩⟩
  · obtain ⟨hflags,htid,hc,hj⟩ := hi.files i
    simp only [hm,hdone,reduceCtorEq,or_self,if_false] at hj
    apply hi.files_of (i := i) (fun _ _ => rfl) (by simp [hm,Main.about])
      (by simp [State.goto,Main.about,eq_comm])
    · simp [State.goto,State.record]
    · intro j hne
      simp [State.goto,State.record,Ne.symm hne]
    · refine ⟨?_,?_,?_,?_⟩
      · simpa [FlagsOk,hm,hw,State.goto,State.record] using hflags
      · intro hne _
        exact htid hne (by simp [hm])
      · simpa [State.goto,State.record] using hc
      · simp [State.goto,State.record,hj]
  · obtain ⟨c1,c2,c3,c4⟩ := hi.counters
    rw [hm] at c1 c2 c3 c4
    exact ⟨c1,c2,c3,c4⟩
  · exact ⟨⟨i,by simp [State.goto,State.record]⟩,
      by simpa [State.goto,State.record,Event.printed] using hprinted⟩

theorem inv_setJoined {i : Fin n} (hi : Inv maxnconn s) (hm : s.main = .setJoined i) :
    Inv maxnconn ((s.put i { s.file i with flags := .joined }).goto (.tally i)) := by
  obtain ⟨hplace,hpass⟩ := hi.here hm
  have hdone : (s.file i).flags = .done := hplace.1
  have hexited : (s.file i).worker = .exited := hplace.2
  refine ⟨?_,?_,hi.limit,by simpa [Place,State.put,State.goto] using hexited,hpass,hi.passes⟩
  · obtain ⟨-,htid,hc,hj⟩ := hi.files i
    simp only [hm,or_true,if_true] at hj
    apply hi.files_of (fun j => put_file_ne) (by simp [hm,Main.about,eq_comm])
      (by simp [State.goto,Main.about]) (fun _ _ => rfl) (fun _ _ => rfl)
    refine ⟨?_,?_,?_,?_⟩
    · simp [FlagsOk,hexited]
    · intro hne _
      simpa [State.put,State.goto] using htid (by simp [hexited]) (by simp [hm])
    · simpa [State.put,State.goto] using hc
    · simp [State.put,State.goto,hj]
  · apply hi.counters.put rfl <;>
      simp [State.put,State.goto,weight,File.Zero,File.Active,File.Left,File.Finished,
        File.Counted,hm,hdone,hexited,Main.unborn,Main.uncounted,Main.untallied]

theorem inv_tally {i : Fin n} (hi : Inv maxnconn s) (hm : s.main = .tally i) :
    Inv maxnconn { s.goto (.reap (i+1)) with
      nconn := s.nconn-1, nlefttoread := s.nlefttoread-1, ndone := s.ndone-1 } := by
  have hpass := (hi.here hm).2
  refine ⟨?_,?_,?_,trivial,Or.inl ⟨hpass.1,?_⟩,hi.passes⟩
  · intro j
    exact (hi.files j).frame (by simp [hm,Main.about]) (by simp [State.goto,Main.about]) rfl rfl
  · obtain ⟨c1,c2,c3,c4⟩ := hi.counters
    simp only [hm,Main.unborn,Main.uncounted,Main.untallied] at c1 c2 c3 c4
    refine ⟨?_,?_,?_,?_⟩ <;>
      simp only [State.goto,Main.unborn,Main.uncounted,Main.untallied] <;> omega
  · have := hi.limit
    show s.nconn-1 ≤ max maxnconn 0
    omega
  · have hprinted : s.nlefttoread ≤ lastPrint s.log := hpass.2
    show s.nlefttoread-1 < lastPrint s.log
    omega

theorem mainStep_inv {t : State n} (hi : Inv maxnconn s) (h : mainStep maxnconn s = some t) :
    Inv maxnconn t := by
  cases mainStep_cases h with
  | outer hm => exact inv_outer hi hm
  | spawn hm => exact inv_spawn hi hm
  | find i hm => exact inv_find hi hm i.isLt
  | missing i hm hn => exact absurd (find_bound hi hm) hn
  | setConnection i hm => exact inv_setConnection hi hm
  | create i hm => exact inv_create hi hm
  | storeTid i hm => exact inv_storeTid hi hm
  | lock hm => exact inv_lock hi hm
  | test hm => exact inv_test hi hm
  | woken hm => exact inv_woken hi hm
  | reap i hm => exact inv_reap hi hm i.isLt
  | pass i hm hn => exact inv_reap_end hi hm hn
  | join i j hm htid hw =>
    have hdone : (s.file i).flags = .done := (hi.here hm).1
    have hstart : (s.file i).worker ≠ .idle := by
      rw [Ne,← (hi.files i).flags.zero_iff (by simp [hm]),hdone]
      simp
    obtain rfl := Option.some.inj (htid.symm.trans ((hi.files i).tid hstart (by simp [hm])))
    exact inv_join hi hm hw
  | setJoined i hm => exact inv_setJoined hi hm
  | tally i hm => exact inv_tally hi hm
  | unlock hm => exact inv_unlock hi hm
  | report hm => exact inv_report hi hm

theorem step_inv {t : State n} {a : Action n} (hi : Inv maxnconn s)
    (h : step maxnconn s a = some t) : Inv maxnconn t := by
  cases a with
  | main => exact mainStep_inv hi h
  | spurious =>
    simp only [step] at h
    split_ifs at h with hm
    cases h
    exact inv_spurious hi hm
  | worker i fd got => exact (workerStep_move h).inv hi

/-- Every state of every interleaving satisfies the invariant. -/
theorem reachable_inv {t : State n} (h : Reachable (step maxnconn) (init n) t) :
    Inv maxnconn t :=
  h.invariant (init_inv maxnconn) fun _ _ _ hi hs => step_inv hi hs

end Steps

end WebThread
end CPrograming
