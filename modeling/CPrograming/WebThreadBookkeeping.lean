import CPrograming.WebThreadInvariant

/-!
# Bookkeeping and wake-ups of the threaded web client

What the counters of `main` mean whenever the outer loop starts over, that every
pass makes progress, and that `main` never sleeps without somebody to wake it.
-/

namespace CPrograming
namespace WebThread

open Runs Counting

variable {n : ℕ} {maxnconn : ℤ} {s : State n}

theorem Inv.created_iff (hi : Inv maxnconn s) (i : Fin n) :
    .create i ∈ s.log ↔ (s.file i).worker ≠ .idle := by
  rw [← List.count_pos_iff,(hi.files i).created]
  split_ifs with hw <;> simp [hw]

theorem Inv.joined_iff (hi : Inv maxnconn s) (hm : ∀ i, s.main ≠ .setJoined i) (i : Fin n) :
    .join i ∈ s.log ↔ (s.file i).flags = .joined := by
  rw [← List.count_pos_iff,(hi.files i).joins]
  simp only [hm i,or_false]
  split_ifs with hw <;> simp [hw]

theorem Inv.card_unjoined (hi : Inv maxnconn s) (hm : ∀ i, s.main ≠ .setJoined i) :
    (Finset.univ.filter fun i => .create i ∈ s.log ∧ .join i ∉ s.log).card =
      count File.Active s.file := by
  unfold count
  congr 1
  ext i
  simp only [Finset.mem_filter,Finset.mem_univ,true_and]
  rw [hi.created_iff i,hi.joined_iff hm i]

theorem count_joins_le_one (hi : Inv maxnconn s) (i : Fin n) : s.log.count (.join i) ≤ 1 := by
  rw [(hi.files i).joins]
  split_ifs <;> omega

/-- When no file is left, each one has been started and joined once. -/
theorem Inv.all_joined (hi : Inv maxnconn s) (hm : s.main = .returned) (i : Fin n) :
    s.log.count (.create i) = 1 ∧ s.log.count (.join i) = 1 := by
  have hended : s.nlefttoread ≤ 0 := (hi.here hm).1
  have hleft := hi.counters.nlefttoread
  simp only [hm,Main.untallied,add_zero] at hleft
  have hnone := count_eq_zero_iff.mp (show count File.Left s.file = 0 by omega) i
  have hjoined : (s.file i).flags = .joined := not_not.mp hnone
  have hidle : (s.file i).worker ≠ .idle := by
    rw [Ne,← (hi.files i).flags.zero_iff (by simp [hm]),hjoined]
    simp
  obtain ⟨-,-,hc,hj⟩ := hi.files i
  rw [if_neg hidle] at hc
  rw [if_pos (Or.inl hjoined)] at hj
  exact ⟨hc,hj⟩

/-- The counters at the head of the outer loop, the exit that is never taken, the
joins, the passes, and the end of the outer loop. -/
theorem main_bookkeeping (n : ℕ) (maxnconn : ℤ) (s : State n)
    (h : Reachable (step maxnconn) (init n) s) :
    (s.main = .outer →
      s.nlefttoconn = (Finset.univ.filter fun i => (s.file i).flags = .zero).card ∧
      s.nconn = (Finset.univ.filter fun i => .create i ∈ s.log ∧ .join i ∉ s.log).card ∧
      s.nlefttoread = s.nlefttoconn+s.nconn ∧
      s.nconn ≤ max maxnconn 0 ∧
      0 ≤ s.ndone ∧ s.ndone ≤ s.nconn) ∧
    s.main ≠ .nothingFound ∧
    (∀ i, s.log.count (.join i) ≤ 1) ∧
    (∀ pre v d post, s.log = pre ++ .print v d :: post →
      (∃ i, .join i ∈ sinceLock pre) ∧ v < lastPrint pre) ∧
    (s.main = .returned →
      ∀ i, s.log.count (.create i) = 1 ∧ s.log.count (.join i) = 1) := by
  have hi := reachable_inv h
  refine ⟨?_,?_,count_joins_le_one hi,?_,hi.all_joined⟩
  · intro hm
    obtain ⟨h1,h2,h3,h4⟩ := hi.counters
    simp only [hm,Main.unborn,Main.uncounted,Main.untallied,add_zero] at h1 h2 h3 h4
    have hsplit := hi.left_split (by simp [hm])
    have hle : count File.Finished s.file ≤ count File.Active s.file := by
      apply count_mono
      rintro i ⟨hw | hw,hl⟩
      · exact ⟨by simp [hw],hl⟩
      · exact ⟨by simp [hw],hl⟩
    rw [hi.card_unjoined (by simp [hm])]
    exact ⟨h1,h2,by omega,hi.limit,by omega,by omega⟩
  · intro hm
    exact (hi.here hm).1
  · intro pre v d post hlog
    exact hi.passes pre _ post hlog

def oneByOne : List (Action 2) :=
  let pass (i : Fin 2) := List.replicate 9 (Action.worker i 5 (.data []))
  List.replicate 7 .main ++ pass 0 ++ List.replicate 10 .main ++
    List.replicate 8 .main ++ pass 1 ++ List.replicate 10 .main ++ [.main]

theorem main_bookkeeping_sample : ∃ s, Reachable (step 1) (init 2) s ∧ s.main = .returned ∧
    ∀ i, s.log.count (.create i) = 1 ∧ s.log.count (.join i) = 1 := by
  obtain ⟨s,hs,hp⟩ := exists_reachable (step 1) (init 2) oneByOne
    (fun s => decide (s.main = .returned)) (by decide +kernel)
  have hret : s.main = .returned := of_decide_eq_true hp
  exact ⟨s,hs,hret,(main_bookkeeping 2 1 s hs).2.2.2.2 hret⟩

/-- While `main` sleeps on the condition variable, nothing is counted and a thread
that has been started has its signal still to send. -/
theorem no_missed_wakeup (n : ℕ) (maxnconn : ℤ) (hmax : 1 ≤ maxnconn) (s : State n)
    (h : Reachable (step maxnconn) (init n) s) (hw : s.main = .waiting) :
    s.ndone = 0 ∧
      ∃ i, .create i ∈ s.log ∧ (s.file i).worker ≠ .unlock ∧ (s.file i).worker ≠ .exited := by
  have hi := reachable_inv h
  have hplace := (hi.here hw).1
  have hconn : 1 ≤ s.nconn := hplace.1 hmax
  have hzero : s.ndone = 0 := hplace.2
  obtain ⟨-,h2,-,h4⟩ := hi.counters
  simp only [hw,Main.uncounted,Main.untallied,add_zero] at h2 h4
  obtain ⟨i,hact⟩ := count_pos_iff.mp (show 0 < count File.Active s.file by omega)
  have hnone := count_eq_zero_iff.mp (show count File.Finished s.file = 0 by omega) i
  refine ⟨hzero,i,(hi.created_iff i).mpr hact.1,?_,?_⟩
  · intro hu
    exact hnone ⟨Or.inl hu,hact.2⟩
  · intro hu
    exact hnone ⟨Or.inr hu,hact.2⟩

theorem no_missed_wakeup_sample : ∃ s, Reachable (step 1) (init 1) s ∧ s.main = .waiting ∧
    s.ndone = 0 ∧
    ∃ i, .create i ∈ s.log ∧ (s.file i).worker ≠ .unlock ∧ (s.file i).worker ≠ .exited := by
  obtain ⟨s,hs,hp⟩ := exists_reachable (step 1) (init 1) (List.replicate 9 .main)
    (fun s => decide (s.main = .waiting)) (by decide +kernel)
  have hwait : s.main = .waiting := of_decide_eq_true hp
  exact ⟨s,hs,hwait,no_missed_wakeup 1 1 (le_refl 1) s hs hwait⟩

end WebThread
end CPrograming
