import CPrograming.WebThreadDeadlock

/-!
# When the threaded web client can still come to its end

A thread that has marked its file and waits for the mutex blocks `main` for ever if `main`
holds the mutex and has that file still before it. Nothing else keeps the program from its
end: as long as there is no such thread, `main` can return. Only wake-ups without a signal can
keep `main` busy for longer than the work there is.
-/

namespace CPrograming
namespace WebThread

open Runs Counting Monitor

variable {n : ℕ} {maxnconn : ℤ} {s t : State n} {i : Fin n}

section Mutex

structure Held (s : State n) : Prop where
  main : s.mutex = some .main → s.main.holds = true
  worker : ∀ i, s.mutex = some (.worker i) → (s.file i).Holds

theorem Held.free {file : Fin n → File n} {m : Main n} {k j l r : ℤ} {log : List (Event n)} :
    Held ⟨file,m,none,k,j,l,r,log⟩ :=
  ⟨by simp,by simp⟩

theorem Held.taken {file : Fin n → File n} {m : Main n} {k j l r : ℤ} {log : List (Event n)}
    (hm : m.holds = true) : Held ⟨file,m,some .main,k,j,l,r,log⟩ :=
  ⟨fun _ => hm,by simp⟩

theorem Held.goto (h : Held s) (hmutex : t.mutex = s.mutex) (hmain : t.main.holds = s.main.holds)
    (hfile : ∀ i, (s.file i).Holds → (t.file i).Holds) : Held t := by
  refine ⟨?_,?_⟩
  · rw [hmutex,hmain]
    exact h.main
  · intro i hi
    rw [hmutex] at hi
    exact hfile i (h.worker i hi)

theorem holds_put {f : File n} (hf : (s.file i).Holds → f.Holds) (j : Fin n)
    (hj : (s.file j).Holds) : ((s.put i f).file j).Holds := by
  by_cases hji : j = i
  · subst j
    simpa [State.put] using hf hj
  · simpa [State.put,hji] using hj

theorem Held.mainStep (h : Held s) (hi : Inv maxnconn s) (hstep : mainStep maxnconn s = some t) :
    Held t := by
  cases mainStep_cases hstep with
  | outer hm | spawn hm | find _ hm | reap _ hm =>
    refine h.goto rfl ?_ fun _ hj => hj
    simp only [State.goto,hm]
    split_ifs <;> rfl
  | create i hm =>
    have hidle := (hi.here hm).1.2
    refine h.goto rfl (by rw [hm]; rfl) (holds_put ?_)
    intro hholds
    have hworker : (s.file i).worker = .idle := hidle
    simp [File.Holds,hworker] at hholds
  | setConnection i hm | storeTid i hm | setJoined i hm =>
    exact h.goto rfl (by rw [hm]; rfl) (holds_put fun hholds => hholds)
  | lock hm hx | woken hm hx => exact Held.taken rfl
  | test hm =>
    split_ifs
    · exact Held.free
    · exact h.goto rfl (by rw [hm]; rfl) fun _ hj => hj
  | unlock hm => exact Held.free
  | missing i hm | pass i hm | join i j hm | tally i hm | report hm =>
    exact h.goto rfl (by rw [hm]; rfl) fun _ hj => hj

theorem WorkerMove.holds (h : WorkerMove s i t) : t.main.holds = s.main.holds := by
  rcases h.main with hm | ⟨hm,hm'⟩
  · rw [hm]
  · rw [hm,hm']
    rfl

theorem Held.workerStep {fd : ℤ} {got : ReadAnswer} (h : Held s)
    (hstep : workerStep s i fd got = some t) : Held t := by
  have hmove := workerStep_move hstep
  have hothers (hmutex : t.mutex = s.mutex) (hi : (s.file i).Holds → (t.file i).Holds) :
      Held t := by
    refine h.goto hmutex hmove.holds ?_
    intro j hj
    by_cases hji : j = i
    · subst j
      exact hi hj
    · rwa [hmove.file_ne hji]
  simp only [WebThread.workerStep] at hstep
  cases hw : (s.file i).worker <;> simp only [hw,reduceCtorEq,Option.some.injEq] at hstep
  case lock =>
    obtain ⟨u,hu,rfl⟩ := Option.map_eq_some_iff.mp hstep
    obtain ⟨-,rfl⟩ := acquire_eq_some.mp hu
    refine ⟨by simp [State.put],?_⟩
    intro j hj
    obtain rfl : i = j := by simpa [State.put] using hj
    simp [State.put,File.Holds]
  case signal =>
    have hmutex : t.mutex = s.mutex := by
      subst t
      simp only [State.signal,signal]
      split_ifs <;> rfl
    refine hothers hmutex fun _ => Or.inr ?_
    subst t
    simp only [State.signal,signal]
    split_ifs <;> simp [State.put,State.goto]
  case unlock =>
    subst t
    exact Held.free
  all_goals
    subst t
    exact hothers rfl (by simp [File.Holds,hw])

theorem Held.step {a : Action n} (h : Held s) (hi : Inv maxnconn s)
    (hstep : step maxnconn s a = some t) : Held t := by
  cases a with
  | main => exact h.mainStep hi hstep
  | spurious =>
    simp only [WebThread.step] at hstep
    split_ifs at hstep with hm
    cases hstep
    exact h.goto rfl (by rw [hm]; rfl) fun _ hj => hj
  | worker i fd got => exact h.workerStep hstep

structure Known (maxnconn : ℤ) (s : State n) : Prop where
  inv : Inv maxnconn s
  owned : Owned s
  held : Held s

theorem Known.step {a : Action n} (h : Known maxnconn s) (hstep : step maxnconn s a = some t) :
    Known maxnconn t :=
  ⟨step_inv h.inv hstep,h.owned.step hstep,h.held.step h.inv hstep⟩

theorem init_known (n : ℕ) (maxnconn : ℤ) : Known maxnconn (init n) :=
  ⟨init_inv maxnconn,⟨by simp [init,Main.holds],by simp [init,File.Holds]⟩,Held.free⟩

theorem reachable_known (h : Reachable (WebThread.step maxnconn) (init n) s) : Known maxnconn s :=
  h.invariant (I := Known maxnconn) (init_known n maxnconn) fun _ _ _ hx hxy => hx.step hxy

end Mutex

section Doomed

/-- A thread from file `k` on has marked its file and waits for the mutex. -/
def Ahead (k : ℕ) (s : State n) : Prop := ∃ j : Fin n, k ≤ j.val ∧ (s.file j).worker = .lock

/-- `main` has the mutex, and a thread that waits for it before it. -/
def Doomed (s : State n) : Prop :=
  match s.main with
  | .test => s.ndone ≠ 0 ∧ Ahead 0 s
  | .reap k => Ahead k s
  | .join i => Ahead i s
  | .setJoined i | .tally i => Ahead (i+1) s
  | _ => False

theorem Ahead.of_le {k l : ℕ} (h : Ahead l s) (hkl : k ≤ l) : Ahead k s := by
  obtain ⟨j,hj,hw⟩ := h
  exact ⟨j,hkl.trans hj,hw⟩

theorem Ahead.congr {k : ℕ} (h : Ahead k s) (hw : ∀ j, (t.file j).worker = (s.file j).worker) :
    Ahead k t := by
  obtain ⟨j,hj,hlock⟩ := h
  exact ⟨j,hj,(hw j).trans hlock⟩

theorem Ahead.succ {k : ℕ} (h : Ahead k s)
    (hk : ∀ hn : k < n, (s.file ⟨k,hn⟩).worker ≠ .lock) : Ahead (k+1) s := by
  obtain ⟨j,hj,hlock⟩ := h
  refine ⟨j,?_,hlock⟩
  by_contra hlt
  obtain rfl : j.val = k := by omega
  exact hk j.isLt hlock

theorem Doomed.holds (h : Doomed s) : s.main.holds = true := by
  simp only [Doomed] at h
  cases hm : s.main <;> simp [hm] at h <;> rfl

theorem Doomed.ahead (h : Doomed s) : ∃ j, (s.file j).worker = .lock := by
  simp only [Doomed] at h
  cases hm : s.main <;> simp only [hm] at h
  case test =>
    obtain ⟨-,j,-,hj⟩ := h
    exact ⟨j,hj⟩
  case reap | join | setJoined | tally =>
    obtain ⟨j,-,hj⟩ := h
    exact ⟨j,hj⟩

theorem worker_ne_lock {m : Main n} {f : File n} (h : FlagsOk m i f) (hflags : f.flags ≠ .done) :
    f.worker ≠ .lock := by
  intro hlock
  simp only [FlagsOk,hlock] at h
  exact hflags h

/-- A step of `main` neither saves nor dooms, but for taking the mutex. -/
theorem Known.doomed_main (h : Known maxnconn s) (hstep : mainStep maxnconn s = some t)
    (hs : s.main.holds = true) : Doomed t ↔ Doomed s := by
  cases mainStep_cases hstep with
  | test hm =>
    by_cases hndone : s.ndone = 0
    · simp [Doomed,hm,hndone,State.goto]
    · simp only [if_neg hndone,Doomed,hm,State.goto]
      exact ⟨fun hahead => ⟨hndone,hahead⟩,fun hdoomed => hdoomed.2⟩
  | reap i hm =>
    by_cases hflags : (s.file i).flags = .done
    · simp only [if_pos hflags,Doomed,hm,State.goto]
      exact Iff.rfl
    · simp only [if_neg hflags,Doomed,hm,State.goto]
      have hlock := worker_ne_lock (h.inv.files i).flags hflags
      constructor
      · exact fun hahead => Ahead.of_le hahead (Nat.le_succ _)
      · exact fun hahead => hahead.succ fun _ => hlock
  | pass i hm hn =>
    simp only [Doomed,hm,State.goto,false_iff]
    rintro ⟨j,hj,-⟩
    exact hn (lt_of_le_of_lt hj j.isLt)
  | join i j hm htid hw =>
    have hidle : (s.file i).worker ≠ .idle := by
      intro hidle
      have hflags := (h.inv.files i).flags
      have hdone : (s.file i).flags = .done := (h.inv.here hm).1
      simp [FlagsOk,hidle,hm,hdone] at hflags
    have htid' := (h.inv.files i).tid hidle (by simp [hm])
    obtain rfl : i = j := Option.some.inj (htid'.symm.trans htid)
    simp only [Doomed,hm,State.goto,State.record]
    constructor
    · exact fun hahead => Ahead.of_le hahead (Nat.le_succ _)
    · exact fun hahead => hahead.succ fun _ => by simp [hw]
  | setJoined i hm =>
    simp only [Doomed,hm,State.goto]
    have hworker : ∀ j, ((s.put i { s.file i with flags := .joined }).file j).worker =
        (s.file j).worker := by
      intro j
      by_cases hji : j = i
      · subst j
        simp [State.put]
      · simp [State.put,hji]
    exact ⟨fun hahead => hahead.congr fun j => (hworker j).symm,fun hahead => hahead.congr hworker⟩
  | tally i hm =>
    simp only [Doomed,hm,State.goto]
    exact Iff.rfl
  | unlock hm => simp [Doomed,hm,State.goto]
  | outer hm | spawn hm | find i hm | missing i hm | setConnection i hm | create i hm
  | storeTid i hm | lock hm | woken hm | report hm => simp [hm,Main.holds] at hs

/-- The thread that waits cannot go on, and the others do not help. -/
theorem Known.doomed_step {a : Action n} (h : Known maxnconn s) (hd : Doomed s)
    (hstep : WebThread.step maxnconn s a = some t) : Doomed t := by
  have hholds := hd.holds
  cases a with
  | main => exact (h.doomed_main hstep hholds).mpr hd
  | spurious =>
    simp only [WebThread.step] at hstep
    split_ifs at hstep with hm
    simp [hm,Main.holds] at hholds
  | worker i fd got =>
    have hmutex := h.owned.main hholds
    have hmove := workerStep_move hstep
    have hmain : t.main = s.main := hmove.main_eq (by rintro hm; simp [hm,Main.holds] at hholds)
    have hlock : (s.file i).worker ≠ .lock := by
      intro hlock
      simp [WebThread.step,workerStep,hlock,State.acquire,acquire,hmutex] at hstep
    have hahead (k : ℕ) (hk : Ahead k s) : Ahead k t := by
      obtain ⟨j,hj,hw⟩ := hk
      refine ⟨j,hj,?_⟩
      rwa [hmove.file_ne (by rintro rfl; exact hlock hw)]
    have hndone : s.ndone ≠ 0 → t.ndone ≠ 0 := by
      have hcount := h.inv.counters.ndone
      have hw := hmove.ndone
      have hcounted := hmove.move.counted
      have huntallied : 0 ≤ s.main.untallied := by
        cases s.main <;> simp [Main.untallied]
      intro hs ht
      by_cases hc : (s.file i).Counted
      · rw [weight_of hc,weight_of (hcounted hc)] at hw
        omega
      · rw [weight_of_not hc] at hw
        omega
    simp only [Doomed,hmain] at hd ⊢
    cases hm : s.main <;> simp only [hm] at hd ⊢
    case test => exact ⟨hndone hd.1,hahead 0 hd.2⟩
    case reap k => exact hahead k hd
    case join i => exact hahead _ hd
    case setJoined i | tally i => exact hahead _ hd

end Doomed

section Rank

/-- How far `main` is from the end of a pass, and from the next thread that it starts. -/
def Main.pos : Main n → ℕ
  | .outer => 5*n+11
  | .spawn => 5*n+10
  | .find k => 5*n+9-k
  | .setConnection _ => 4*n+8
  | .create _ => 4*n+7
  | .storeTid _ => 4*n+6
  | .lock | .woken => 4*n+5
  | .test => 4*n+4
  | .reap k => 4*(n-k)+3
  | .join i => 4*(n-i)+2
  | .setJoined i => 4*(n-i)+1
  | .tally i => 4*(n-i)
  | .unlock => 2
  | .report => 1
  | .waiting | .returned | .nothingFound => 0

/-- The steps of a thread, with those of `main` that its signal is worth. -/
def Worker.cost (n : ℕ) : Worker → ℕ
  | .idle | .connect => 4*n+14
  | .request => 4*n+13
  | .setReading => 4*n+12
  | .read => 4*n+11
  | .close => 4*n+10
  | .setDone => 4*n+9
  | .lock => 4*n+8
  | .signal => 4*n+7
  | .unlock => 1
  | .exited => 0

def rank (s : State n) : ℕ :=
  (5*n+12)*(lastPrint s.log).toNat+(n+5)*s.nlefttoconn.toNat+s.main.pos+
    ∑ i, (s.file i).worker.cost n

theorem rank_lt_of_pos (hlog : lastPrint t.log = lastPrint s.log)
    (hconn : t.nlefttoconn = s.nlefttoconn)
    (hworker : ∀ j, (t.file j).worker.cost n = (s.file j).worker.cost n)
    (hpos : t.main.pos < s.main.pos) : rank t < rank s := by
  simp only [rank,hlog,hconn,hworker]
  omega

theorem cost_put {f : File n} (hf : f.worker.cost n = (s.file i).worker.cost n) (j : Fin n) :
    ((s.put i f).file j).worker.cost n = (s.file j).worker.cost n := by
  by_cases hji : j = i
  · subst j
    simpa [State.put] using hf
  · simp [State.put,hji]

theorem Inv.rank_main (hi : Inv maxnconn s) (hstep : mainStep maxnconn s = some t) :
    rank t < rank s := by
  cases mainStep_cases hstep with
  | outer hm | spawn hm =>
    refine rank_lt_of_pos rfl rfl (fun _ => rfl) ?_
    simp only [State.goto,hm]
    split_ifs <;> simp only [Main.pos] <;> omega
  | find i hm =>
    have hlt := i.isLt
    refine rank_lt_of_pos rfl rfl (fun _ => rfl) ?_
    simp only [State.goto,hm]
    split_ifs <;> simp only [Main.pos] <;> omega
  | missing i hm hn => exact absurd (find_bound hi hm) hn
  | setConnection i hm | setJoined i hm =>
    refine rank_lt_of_pos rfl rfl (cost_put rfl) ?_
    simp only [State.goto,hm,Main.pos]
    omega
  | create i hm =>
    have hidle : (s.file i).worker = .idle := (hi.here hm).1.2
    refine rank_lt_of_pos ?_ rfl (cost_put ?_) ?_
    · simp [State.record,State.goto,State.put,Event.printed]
    · simp only [hidle,Worker.cost]
    · simp only [State.goto,hm,Main.pos]
      omega
  | storeTid i hm =>
    have hleft := hi.counters.nlefttoconn
    simp only [hm,Main.unborn] at hleft
    have hcost := cost_put (s := s) (i := i) (f := { s.file i with tid := some i }) rfl
    simp only [rank,State.goto,State.put,hm,Main.pos] at hcost ⊢
    simp only [hcost]
    have hdown : (s.nlefttoconn-1).toNat+1 = s.nlefttoconn.toNat := by omega
    rw [← hdown,Nat.mul_add]
    omega
  | lock hm hx =>
    refine rank_lt_of_pos ?_ rfl (fun _ => rfl) ?_
    · simp [Event.printed]
    · simp [hm,Main.pos]
  | test hm =>
    split_ifs
    · refine rank_lt_of_pos rfl rfl (fun _ => rfl) ?_
      simp [State.goto,hm,Main.pos]
    · refine rank_lt_of_pos rfl rfl (fun _ => rfl) ?_
      simp [State.goto,hm,Main.pos]
  | woken hm hx =>
    refine rank_lt_of_pos rfl rfl (fun _ => rfl) ?_
    simp [hm,Main.pos]
  | reap i hm =>
    refine rank_lt_of_pos rfl rfl (fun _ => rfl) ?_
    simp only [State.goto,hm]
    split_ifs <;> simp only [Main.pos] <;> omega
  | pass i hm hn =>
    refine rank_lt_of_pos rfl rfl (fun _ => rfl) ?_
    simp only [State.goto,hm,Main.pos]
    omega
  | join i j hm =>
    refine rank_lt_of_pos ?_ rfl (fun _ => rfl) ?_
    · simp [State.record,State.goto,Event.printed]
    · simp [State.record,State.goto,hm,Main.pos]
  | tally i hm =>
    refine rank_lt_of_pos rfl rfl (fun _ => rfl) ?_
    simp only [State.goto,hm,Main.pos]
    omega
  | unlock hm =>
    refine rank_lt_of_pos ?_ rfl (fun _ => rfl) ?_
    · simp [State.record,State.goto,State.release,Event.printed]
    · simp [State.record,State.goto,State.release,hm,Main.pos]
  | report hm =>
    have hprogress : Progress s := (hi.here hm).2
    have hleft := hi.counters.nlefttoread
    simp only [hm,Main.untallied,add_zero] at hleft
    have hnew : lastPrint (s.log ++ [.print s.nlefttoread s.ndone]) = s.nlefttoread := by
      simp [Event.printed]
    simp only [rank,State.record,State.goto,hm,Main.pos,hnew]
    have hless : s.nlefttoread.toNat+1 ≤ (lastPrint s.log).toNat := by
      have hlt := hprogress.2
      omega
    have hmul := Nat.mul_le_mul_left (5*n+12) hless
    rw [Nat.mul_add] at hmul
    omega

/-- A thread goes on: only a `read` that is not the last leaves the rank as it is. -/
theorem rank_worker {fd : ℤ} {got : ReadAnswer} (hstep : workerStep s i fd got = some t) :
    rank t ≤ rank s ∧ (got = .data [] → rank t < rank s) := by
  have hmove := workerStep_move hstep
  have hsum := sum_update (f := s.file) (fun f => f.worker.cost n) i (t.file i)
  rw [← hmove.file] at hsum
  have hrank (k : ℕ) (hcost : (t.file i).worker.cost n+t.main.pos+k ≤
      (s.file i).worker.cost n+s.main.pos) : rank t+k ≤ rank s := by
    simp only [rank,hmove.log,hmove.nlefttoconn]
    omega
  have hsame (hmain : t.main = s.main)
      (hcost : (t.file i).worker.cost n+1 ≤ (s.file i).worker.cost n) :
      rank t ≤ rank s ∧ (got = .data [] → rank t < rank s) := by
    have hlt := hrank 1 (by rw [hmain]; omega)
    exact ⟨by omega,fun _ => by omega⟩
  simp only [workerStep] at hstep
  cases hw : (s.file i).worker <;> simp only [hw,reduceCtorEq,Option.some.injEq] at hstep
  case read =>
    by_cases hgot : got = .data []
    · rw [if_pos hgot] at hstep
      subst t
      exact hsame rfl (by simp [State.put,hw,Worker.cost])
    · rw [if_neg hgot] at hstep
      subst t
      have hle := hrank 0 (by simp [State.put,hw])
      exact ⟨by omega,fun hend => absurd hend hgot⟩
  case signal =>
    have hworker : (t.file i).worker = .unlock := by
      subst t
      simp only [State.signal,signal]
      split_ifs <;> simp [State.put,State.goto]
    have hlt := hrank 1 (by
      rw [hworker,hw]
      rcases hmove.main with hm | ⟨hm,hm'⟩
      · rw [hm]
        simp only [Worker.cost]
        omega
      · rw [hm,hm']
        simp only [Worker.cost,Main.pos]
        omega)
    exact ⟨by omega,fun _ => by omega⟩
  case lock =>
    obtain ⟨u,hu,rfl⟩ := Option.map_eq_some_iff.mp hstep
    obtain ⟨-,rfl⟩ := acquire_eq_some.mp hu
    exact hsame rfl (by simp [State.put,hw,Worker.cost])
  all_goals
    subst t
    exact hsame rfl (by simp [State.put,State.release,hw,Worker.cost])

end Rank

section Progress

theorem worker_goes (fd : ℤ) (got : ReadAnswer) (hidle : (s.file i).worker ≠ .idle)
    (hexited : (s.file i).worker ≠ .exited)
    (hlock : (s.file i).worker = .lock → s.mutex = none) :
    ∃ t, workerStep s i fd got = some t := by
  simp only [workerStep]
  cases hw : (s.file i).worker <;> simp [hw,State.acquire,acquire] at hidle hexited hlock ⊢
  exact hlock

/-- With the mutex `main` goes on, if it is not doomed: it meets only threads at their end. -/
theorem Known.main_inside (h : Known maxnconn s) (hmutex : s.mutex = some .main)
    (hsafe : ¬ Doomed s) : ∃ t, mainStep maxnconn s = some t := by
  have hholds := h.held.main hmutex
  simp only [mainStep]
  cases hm : s.main <;> simp [hm,Main.holds] at hholds ⊢
  case reap k => split_ifs <;> simp
  case join i =>
    have hdone : (s.file i).flags = .done := (h.inv.here hm).1
    have hflags := (h.inv.files i).flags
    have hlock : (s.file i).worker ≠ .lock := by
      intro hlock
      apply hsafe
      simp only [Doomed,hm]
      exact ⟨i,le_refl _,hlock⟩
    have howner : ¬ (s.file i).Holds := by
      intro hown
      have hworker := h.owned.worker i hown
      simp [hmutex] at hworker
    have hexited : (s.file i).worker = .exited := by
      simp only [FlagsOk,hdone] at hflags
      cases hw : (s.file i).worker <;> simp [hw,hm,File.Holds] at hflags hlock howner ⊢
    have htid := (h.inv.files i).tid (by simp [hexited]) (by simp [hm])
    simp [htid,hexited]

theorem mainStep_lock (hstep : mainStep maxnconn s = some t) {j : Fin n}
    (hlock : (t.file j).worker = .lock) : (s.file j).worker = .lock := by
  have hput (i : Fin n) (f : File n) (hf : f.worker = .lock → (s.file i).worker = .lock)
      (h : ((s.put i f).file j).worker = .lock) : (s.file j).worker = .lock := by
    by_cases hji : j = i
    · subst j
      exact hf (by simpa [State.put] using h)
    · simpa [State.put,hji] using h
  cases mainStep_cases hstep with
  | setConnection i hm | storeTid i hm | setJoined i hm =>
    refine hput i _ ?_ hlock
    exact fun hf => hf
  | create i hm =>
    refine hput i _ ?_ hlock
    simp
  | test hm =>
    split_ifs at hlock
    · exact hlock
    · exact hlock
  | outer hm | spawn hm | find i hm | missing i hm | lock hm | woken hm | reap i hm | pass i hm
  | join i j hm | tally i hm | unlock hm | report hm => exact hlock

/-- When no thread is under way and the mutex is free, `main` goes on. -/
theorem Known.main_outside (h : Known maxnconn s) (hmax : 1 ≤ maxnconn) (hfree : s.mutex = none)
    (hall : ∀ i, (s.file i).worker = .idle ∨ (s.file i).worker = .exited)
    (hreturned : s.main ≠ .returned) : ∃ t, mainStep maxnconn s = some t := by
  have houtside : s.main.holds ≠ true := by
    intro hholds
    simp [h.owned.main hholds] at hfree
  simp only [mainStep]
  cases hm : s.main <;> simp [hm,Main.holds,State.acquire,acquire,hfree] at houtside hreturned ⊢
  case find k => split_ifs <;> simp
  case waiting =>
    obtain ⟨hconn,hzero⟩ := (h.inv.here hm).1
    have hactive := h.inv.counters.nconn
    have hfinished := h.inv.counters.ndone
    simp only [hm,Main.uncounted,Main.untallied,add_zero] at hactive hfinished
    have hpos : 1 ≤ s.nconn := hconn hmax
    have hndone : s.ndone = 0 := hzero
    obtain ⟨i,hi⟩ := count_pos_iff.mp (show 0 < count File.Active s.file by omega)
    have hnone := count_eq_zero_iff.mp (show count File.Finished s.file = 0 by omega) i
    exact hnone ⟨Or.inr ((hall i).resolve_left hi.1),hi.2⟩
  case nothingFound => exact (h.inv.here hm).1

/-- What is not doomed can be brought nearer to the end without being doomed. -/
theorem Known.safe_step (h : Known maxnconn s) (hmax : 1 ≤ maxnconn) (hsafe : ¬ Doomed s)
    (hreturned : s.main ≠ .returned) :
    ∃ a t, WebThread.step maxnconn s a = some t ∧ ¬ Doomed t ∧ rank t < rank s := by
  have hworker (i : Fin n) (hout : s.main.holds ≠ true) (hidle : (s.file i).worker ≠ .idle)
      (hexited : (s.file i).worker ≠ .exited)
      (hlock : (s.file i).worker = .lock → s.mutex = none) :
      ∃ a t, WebThread.step maxnconn s a = some t ∧ ¬ Doomed t ∧ rank t < rank s := by
    obtain ⟨t,ht⟩ := worker_goes 0 (.data []) hidle hexited hlock
    refine ⟨.worker i 0 (.data []),t,ht,?_,(rank_worker ht).2 rfl⟩
    intro hdoomed
    exact hout ((workerStep_move ht).holds ▸ hdoomed.holds)
  cases hmutex : s.mutex with
  | some o =>
    cases o with
    | main =>
      obtain ⟨t,ht⟩ := h.main_inside hmutex hsafe
      refine ⟨.main,t,ht,?_,h.inv.rank_main ht⟩
      rwa [h.doomed_main ht (h.held.main hmutex)]
    | worker i =>
      have hholds := h.held.worker i hmutex
      apply hworker i
      · intro hmain
        simp [h.owned.main hmain] at hmutex
      · rcases hholds with hw | hw <;> simp [hw]
      · rcases hholds with hw | hw <;> simp [hw]
      · rcases hholds with hw | hw <;> simp [hw]
  | none =>
    by_cases hall : ∀ i, (s.file i).worker = .idle ∨ (s.file i).worker = .exited
    · obtain ⟨t,ht⟩ := h.main_outside hmax hmutex hall hreturned
      refine ⟨.main,t,ht,?_,h.inv.rank_main ht⟩
      intro hdoomed
      obtain ⟨j,hj⟩ := hdoomed.ahead
      rcases hall j with hw | hw <;> simp [mainStep_lock ht hj] at hw
    · push Not at hall
      obtain ⟨i,hidle,hexited⟩ := hall
      refine hworker i ?_ hidle hexited fun _ => hmutex
      intro hmain
      simp [h.owned.main hmain] at hmutex

theorem Known.returns (h : Known maxnconn s) (hmax : 1 ≤ maxnconn) (hsafe : ¬ Doomed s) :
    ∃ t, Reachable (WebThread.step maxnconn) s t ∧ t.main = .returned := by
  have hdescend : ∀ x : State n, Known maxnconn x ∧ ¬ Doomed x → ¬ x.main = .returned →
      ∃ y, Reachable (WebThread.step maxnconn) x y ∧ (Known maxnconn y ∧ ¬ Doomed y) ∧
        rank y < rank x := by
    rintro x ⟨hx,hsafe⟩ hopen
    obtain ⟨a,y,hy,hsafe',hlt⟩ := hx.safe_step hmax hsafe hopen
    exact ⟨y,(Reachable.refl x).tail hy,⟨hx.step hy,hsafe'⟩,hlt⟩
  obtain ⟨t,hreach,-,hmain⟩ := Reachable.descend rank hdescend ⟨h,hsafe⟩
  exact ⟨t,hreach,hmain⟩

theorem Known.doomed_reachable (h : Known maxnconn s) (hd : Doomed s)
    (hreach : Reachable (WebThread.step maxnconn) s t) : Doomed t := by
  have hall : Known maxnconn t ∧ Doomed t := by
    apply hreach.invariant (I := fun x => Known maxnconn x ∧ Doomed x) ⟨h,hd⟩
    exact fun a x y hx hxy => ⟨hx.1.step hxy,hx.1.doomed_step hx.2 hxy⟩
  exact hall.2

/-- If at least one connection is allowed, `main` can still return exactly as long as it does
not hold the mutex with a thread before it that has marked its file and waits for the mutex. -/
theorem can_return_iff (n : ℕ) (maxnconn : ℤ) (hmax : 1 ≤ maxnconn) (s : State n)
    (h : Reachable (step maxnconn) (init n) s) :
    (∃ t, Reachable (step maxnconn) s t ∧ t.main = .returned) ↔ ¬ Doomed s := by
  have hs := reachable_known h
  constructor
  · rintro ⟨t,hreach,hmain⟩ hdoomed
    have hholds := (hs.doomed_reachable hdoomed hreach).holds
    simp [hmain,Main.holds] at hholds
  · exact hs.returns hmax

/-- Two files and one connection at a time, from the start. -/
theorem can_return_at_first : ∃ t : State 2, Reachable (step 1) (init 2) t ∧ t.main = .returned :=
  (can_return_iff 2 1 (le_refl 1) (init 2) (.refl _)).mpr fun h => h

theorem rank_init (n : ℕ) : rank (init n) = 10*n*n+36*n+11 := by
  have hprint : lastPrint ([] : List (Event n)) = n := rfl
  simp only [rank,init,hprint,Main.pos,Worker.cost,Finset.sum_const,Finset.card_univ,
    Fintype.card_fin,smul_eq_mul,Int.toNat_natCast]
  ring

def Action.isMain : Action n → Bool
  | .main => true
  | _ => false

def Action.isSpurious : Action n → Bool
  | .spurious => true
  | _ => false

/-- `main` does not poll: however the threads run, what it does is bounded by the number of
files and of the wake-ups without a signal. -/
theorem main_steps_bounded (n : ℕ) (maxnconn : ℤ) (as : List (Action n)) (s : State n)
    (h : exec (step maxnconn) (init n) as = some s) :
    as.countP Action.isMain ≤ 10*n*n+36*n+11+(4*n+5)*as.countP Action.isSpurious := by
  have hspent := exec_spends (I := Inv maxnconn) rank Action.isMain Action.isSpurious (4*n+5) ?_
    (init_inv maxnconn) h
  · rw [rank_init] at hspent
    omega
  · intro x a y hx hxy
    refine ⟨step_inv hx hxy,?_⟩
    cases a with
    | main =>
      have hlt := hx.rank_main hxy
      simpa [Action.isMain,Action.isSpurious] using hlt
    | spurious =>
      simp only [step] at hxy
      split_ifs at hxy with hm
      obtain rfl := Option.some.inj hxy
      simp only [Action.isMain,Action.isSpurious,rank,State.goto,hm,Main.pos]
      simp
      omega
    | worker i fd got =>
      have hle := (rank_worker hxy).1
      simpa [Action.isMain,Action.isSpurious] using hle

/-- One file: `main` starts its thread, and waits. -/
theorem main_steps_one : ∃ s : State 1,
    exec (step 1) (init 1) [.main,.main,.main,.main,.main,.main,.main,.main,.main] = some s ∧
      s.main = .waiting ∧ 9 ≤ 10*1*1+36*1+11+(4*1+5)*0 := by
  obtain ⟨s,hs,hwaiting⟩ := Option.map_eq_some_iff.mp (show (exec (step 1) (init 1)
    [.main,.main,.main,.main,.main,.main,.main,.main,.main]).map
      (fun s => decide (s.main = .waiting)) = some true by decide +kernel)
  exact ⟨s,hs,of_decide_eq_true hwaiting,main_steps_bounded 1 1 _ s hs⟩

end Progress

end WebThread
end CPrograming
