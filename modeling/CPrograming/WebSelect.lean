import CPrograming.WebInvariant

/-!
# What the web client knows when it calls `select`

The counters, the descriptor sets, and the one way to call `select` for nothing:
a limit that allows no connection at all.
-/

namespace CPrograming
namespace Web

open Runs Counting Keys

variable {n : ℕ} {maxnconn : ℤ} {name : Fin n → List UInt8} {opened : Finset ℤ}

/-- The counters wherever `main` is, in particular at the head of the outer loop and
at `select`, and the exit that is never taken. -/
theorem web_bookkeeping (n : ℕ) (maxnconn : ℤ) (name : Fin n → List UInt8) (opened : Finset ℤ)
    (s : State n) (h : Reachable (step maxnconn) (init name opened) s) :
    s.nlefttoconn = (Finset.univ.filter fun i => (s.file i).flags = .zero).card ∧
    s.nconn = (Finset.univ.filter fun i =>
      (s.file i).flags = .connection ∨ (s.file i).flags = .reading).card ∧
    s.nlefttoread = (Finset.univ.filter fun i => (s.file i).flags ≠ .done).card ∧
    s.nlefttoread = s.nlefttoconn+s.nconn ∧
    s.nconn ≤ max maxnconn 0 ∧
    s.main ≠ .nothingFound := by
  have hi := reachable_inv h
  have h1 := hi.tables.nlefttoconn
  have h2 := hi.tables.nconn
  rw [add_zero] at h1 h2
  refine ⟨h1,h2,hi.tables.nlefttoread,hi.tables.left_split,hi.limit,?_⟩
  intro hm
  have hplace := hi.place
  simp only [Place,hm] at hplace

/-- Answers that let every call succeed at once; the peer closes right away. -/
def prompt : Answers where
  socket := 3
  connect := .connected
  write := [.accepted maxLine]
  line := fun _ => 0
  select := .fail
  sockopt := true
  read := .data []

/-- Two files, one connection: the second file is given the descriptor of the first. -/
theorem reaches_reused : ∃ s : State 2,
    Reachable (step 1) (init (fun _ => ascii "/a.html") {0,1,2}) s ∧
      s.main = .select ∧ (s.file 0).flags = .done ∧ (s.file 0).fd = 3 ∧ s.rset = {3} := by
  obtain ⟨s,hs,hp⟩ := exists_reachable (step 1)
    (init (fun _ : Fin 2 => ascii "/a.html") {0,1,2}) (List.replicate 15 prompt)
    (fun s => decide (s.main = .select ∧ (s.file 0).flags = .done ∧ (s.file 0).fd = 3 ∧
      s.rset = {3})) (by decide +kernel)
  exact ⟨s,hs,of_decide_eq_true hp⟩

theorem web_bookkeeping_sample : ∃ s : State 2,
    Reachable (step 1) (init (fun _ => ascii "/a.html") {0,1,2}) s ∧
      s.main = .select ∧ s.nlefttoread = s.nlefttoconn+s.nconn ∧ s.nconn ≤ max 1 0 := by
  obtain ⟨s,hs,hm,-⟩ := reaches_reused
  obtain ⟨-,-,-,hsplit,hlimit,-⟩ := web_bookkeeping 2 1 _ _ s hs
  exact ⟨s,hs,hm,hsplit,hlimit⟩

/-- The sets wherever `main` is, in particular where they are passed to `select`: the
descriptors of the connections, all of them open. -/
theorem select_sets (n : ℕ) (maxnconn : ℤ) (name : Fin n → List UInt8) (opened : Finset ℤ)
    (s : State n) (h : Reachable (step maxnconn) (init name opened) s) :
    s.rset = (Finset.univ.filter fun i =>
      (s.file i).flags = .connection ∨ (s.file i).flags = .reading).image (fun i => (s.file i).fd) ∧
    s.wset = (Finset.univ.filter fun i =>
      (s.file i).flags = .connection).image (fun i => (s.file i).fd) ∧
    (∀ i j, (s.file i).flags = .connection ∨ (s.file i).flags = .reading →
      (s.file j).flags = .connection ∨ (s.file j).flags = .reading →
      (s.file i).fd = (s.file j).fd → i = j) ∧
    (∀ fd, fd ∈ s.rset ∨ fd ∈ s.wset → fd ≤ s.maxfd) ∧
    (∀ fd, fd ∈ s.rset ∨ fd ∈ s.wset → fd ∈ s.opened) := by
  have htables := (reachable_inv h).tables
  have hmem : ∀ fd, fd ∈ s.rset ∨ fd ∈ s.wset → fd ∈ s.rset := by
    rintro fd (hfd | hfd)
    · exact hfd
    · exact htables.wset_subset hfd
  refine ⟨htables.rset,htables.wset,?_,?_,?_⟩
  · intro i j hi hj hfd
    exact htables.distinct hi hj hfd
  · intro fd hfd
    exact htables.maxfd fd (hmem fd hfd)
  · intro fd hfd
    exact htables.opened (hmem fd hfd)

theorem select_sets_sample : ∃ s : State 2,
    Reachable (step 1) (init (fun _ => ascii "/a.html") {0,1,2}) s ∧ s.main = .select ∧
      (s.file 0).flags = .done ∧ (s.file 0).fd = 3 ∧ 3 ∈ s.rset ∧ 3 ∈ s.opened := by
  obtain ⟨s,hs,hm,hdone,hfd,hrset⟩ := reaches_reused
  have hmem : (3 : ℤ) ∈ s.rset := by simp [hrset]
  exact ⟨s,hs,hm,hdone,hfd,hmem,(select_sets 2 1 _ _ s hs).2.2.2.2 3 (Or.inl hmem)⟩

/-- `select` is called with nothing to watch although files are left. -/
def Hung (s : State n) : Prop :=
  s.main = .select ∧ s.rset = ∅ ∧ s.wset = ∅ ∧ 0 < s.nlefttoread

section Hanging

variable {s t : State n}

theorem Inv.nconn_eq_zero (hi : Inv maxnconn s) (h : ∀ i, ¬ (s.file i).Active) : s.nconn = 0 := by
  have hc := hi.tables.nconn
  rw [count_eq_zero_iff.mpr h] at hc
  omega

theorem Tables.idle_iff {due : ℤ} (h : Tables due s) :
    s.rset = ∅ ↔ ∀ i, ¬ (s.file i).Active := by
  rw [h.rset]
  exact keys_eq_empty_iff

theorem Hung.limit (hi : Inv maxnconn s) (h : Hung s) : maxnconn ≤ 0 := by
  obtain ⟨hm,hr,-,hleft⟩ := h
  have hplace := hi.place
  simp only [Place,hm] at hplace
  have hconn := hi.nconn_eq_zero (hi.tables.idle_iff.mp hr)
  have hsplit := hi.tables.left_split
  by_contra hmax
  exact hplace.2 ⟨by omega,by omega⟩

structure Idle (maxnconn : ℤ) (s : State n) : Prop where
  inv : Inv maxnconn s
  idle : ∀ i, ¬ (s.file i).Active
  left : 0 < s.nlefttoread
  running : s.main ≠ .exited

theorem Idle.step {a : Answers} (hd : Idle maxnconn s) (hmax : maxnconn ≤ 0)
    (h : step maxnconn s a = some t) : Idle maxnconn t := by
  have hinv := step_inv hd.inv h
  have hplace := hd.inv.place
  have hconn := hd.inv.nconn_eq_zero hd.idle
  cases step_cases h with
  | find i hm | missing i hm | start i hm =>
    simp only [Place,hm] at hplace
    omega
  | outer =>
    refine ⟨hinv,hd.idle,hd.left,?_⟩
    simp only [State.goto,hd.left,if_true]
    simp
  | spawn =>
    refine ⟨hinv,hd.idle,hd.left,?_⟩
    simp only [State.goto]
    split_ifs <;> simp
  | select | pass => exact ⟨hinv,hd.idle,hd.left,by simp [State.goto]⟩
  | scan i hm hu =>
    obtain ⟨log,rfl | ⟨hf,-⟩ | ⟨hf,-⟩ | ⟨hf,-⟩⟩ := handle_cases hu
    · simp only [State.andThen,hm,reduceCtorEq,if_false] at hinv ⊢
      exact ⟨hinv,hd.idle,hd.left,by simp [State.goto]⟩
    · exact absurd (Or.inl hf) (hd.idle i)
    · exact absurd (Or.inl hf) (hd.idle i)
    · exact absurd (Or.inr hf) (hd.idle i)

/-- After a call of `select` for nothing, every later call is one, and `main` never ends. -/
theorem Hung.permanent (hi : Inv maxnconn s) (h : Hung s) (ht : Reachable (Web.step maxnconn) s t) :
    t.main ≠ .returned ∧ t.main ≠ .exited ∧ (t.main = .select → Hung t) := by
  have hmax := h.limit hi
  obtain ⟨hm,hr,-,hleft⟩ := h
  have hidle : Idle maxnconn t :=
    ht.invariant ⟨hi,hi.tables.idle_iff.mp hr,hleft,by simp [hm]⟩
      fun _ _ _ hd hs => hd.step hmax hs
  refine ⟨?_,hidle.running,?_⟩
  · intro hret
    have hplace := hidle.inv.place
    simp only [Place,hret] at hplace
    exact absurd hidle.left (not_lt.mpr hplace)
  · intro hsel
    have hempty := hidle.inv.tables.idle_iff.mpr hidle.idle
    have hw := hidle.inv.tables.wset_subset
    rw [hempty,Finset.subset_empty] at hw
    exact ⟨hsel,hempty,hw,hidle.left⟩

theorem reaches_hung (hn : 1 ≤ n) (hmax : maxnconn ≤ 0) :
    ∃ s, Reachable (Web.step maxnconn) (init name opened) s ∧ Hung s := by
  have hleft : (0 : ℤ) < n := by omega
  have h1 : Web.step maxnconn (init name opened) prompt =
      some ((init name opened).goto .spawn) := by
    simp only [Web.step,init,hleft,if_true]
  have h2 : Web.step maxnconn ((init name opened).goto .spawn) prompt =
      some ((init name opened).goto .select) := by
    simp [Web.step,init,State.goto,not_lt.mpr hmax]
  exact ⟨_,((Reachable.refl _).tail h1).tail h2,rfl,rfl,rfl,hleft⟩

end Hanging

/-- `select` is ever called for nothing, and then for ever, exactly if the limit
allows no connection. -/
theorem select_hangs_iff (n : ℕ) (hn : 1 ≤ n) (maxnconn : ℤ) (name : Fin n → List UInt8)
    (opened : Finset ℤ) :
    ((∃ s, Reachable (step maxnconn) (init name opened) s ∧
      s.main = .select ∧ s.rset = ∅ ∧ s.wset = ∅ ∧ 0 < s.nlefttoread) ↔ maxnconn ≤ 0) ∧
    ∀ s, Reachable (step maxnconn) (init name opened) s → Hung s →
      ∀ t, Reachable (step maxnconn) s t →
        t.main ≠ .returned ∧ t.main ≠ .exited ∧ (t.main = .select → Hung t) := by
  refine ⟨⟨?_,?_⟩,?_⟩
  · rintro ⟨s,hs,hhung⟩
    exact Hung.limit (reachable_inv hs) hhung
  · exact reaches_hung hn
  · intro s hs hhung t ht
    exact hhung.permanent (reachable_inv hs) ht

theorem select_hangs_iff_sample :
    ∃ s : State 1, Reachable (step 0) (init (fun _ => ascii "/a.html") {0,1,2}) s ∧
      s.main = .select ∧ s.rset = ∅ ∧ s.wset = ∅ ∧ 0 < s.nlefttoread :=
  (select_hangs_iff 1 (le_refl 1) 0 _ _).1.mpr (le_refl 0)

end Web
end CPrograming
