import CPrograming.PollServerOwnership

/-!
# The bounds of the table of `poll_server.c`

Every entry that holds a descriptor is within the part of the table that `poll` is given
and is watched for input, whatever `accept` and `read` return and in whatever order entries
are taken and released. A full table is left alone.
-/

namespace CPrograming
namespace PollServer

open Runs Keys EchoServer

variable {m : ℕ}

/-- What a step can do to the table: entries that hold a descriptor had it before, with the
same events, or they are watched for input. -/
structure Grown (s t : State m) : Prop where
  listenfd : t.listenfd = s.listenfd
  maxi : s.maxi ≤ t.maxi
  events : ∀ i, 0 ≤ (t.client i).fd → (t.client i).events = pollrdnorm ∨
    (t.client i).fd = (s.client i).fd ∧ (t.client i).events = (s.client i).events

section Steps

variable {s t : State m} {a : Answers} {i : Fin (m+1)}

theorem answered_events (s : State m) (a : PollAnswer) (i : Fin (m+1)) :
    (s.answered a i).events = (s.client i).events := by
  cases a with
  | ready revents =>
    simp only [State.answered]
    split_ifs <;> rfl
  | fail => rfl

theorem grown_release (s : State m) (i j : Fin (m+1)) (h : 0 ≤ (release s.client i j).fd) :
    release s.client i j = s.client j := by
  by_cases hji : j = i
  · subst j
    simp [release] at h
  · exact Function.update_of_ne hji _ _

theorem Visit.grown (h : Visit s i a t) : Grown s t := by
  cases h with
  | idle | failed | echoed => exact ⟨rfl,le_refl _,fun _ _ => Or.inr ⟨rfl,rfl⟩⟩
  | reset | eof =>
    refine ⟨rfl,le_refl _,?_⟩
    intro j hj
    have hsame := grown_release s i j hj
    exact Or.inr ⟨congrArg PollFd.fd hsame,congrArg PollFd.events hsame⟩

theorem accept_grown (s : State m) (fd : ℤ) : Grown s (s.accept fd) := by
  cases hslot : freeSlot s.client with
  | none =>
    simp only [State.accept,hslot]
    exact ⟨rfl,le_refl _,fun _ _ => Or.inr ⟨rfl,rfl⟩⟩
  | some i =>
    simp only [State.accept,hslot]
    refine ⟨rfl,le_max_left _ _,?_⟩
    intro j _
    by_cases hji : j = i
    · subst j
      exact Or.inl (by simp)
    · exact Or.inr (by simp [Function.update_of_ne hji])

theorem step_grown (h : step s a = some t) : Grown s t := by
  cases step_cases h with
  | wait =>
    exact ⟨rfl,le_refl _,fun i _ => Or.inr ⟨s.answered_fd a.poll i,answered_events s a.poll i⟩⟩
  | accept => exact accept_grown s a.accept
  | visit i _ _ hvisit => exact (visit_cases hvisit).grown
  | beyond | finish => exact ⟨rfl,le_refl _,fun _ _ => Or.inr ⟨rfl,rfl⟩⟩

/-- With every entry taken a new connection changes nothing. -/
theorem accept_taken (hfull : ∀ i, i ≠ 0 → 0 ≤ (s.client i).fd) (fd : ℤ) :
    (s.accept fd).client = s.client ∧ (s.accept fd).maxi = s.maxi := by
  have hslot : freeSlot s.client = none := by
    rw [Option.eq_none_iff_forall_ne_some]
    intro i hi
    obtain ⟨hne,hneg⟩ := freeSlot_free hi
    have hpos := hfull i hne
    omega
  simp only [State.accept,hslot]
  exact ⟨trivial,trivial⟩

/-- The scan stays within the table. -/
theorem Table.step_defined (h : Table s) (hstep : step s a = some t) :
    t.main ≠ .undefined := by
  cases step_cases hstep with
  | wait =>
    simp only [State.wait]
    split_ifs <;> simp
  | accept =>
    simp only [State.accept]
    split
    · simp
    · dsimp only
      split_ifs <;> simp
  | visit i _ _ hvisit => simp [(visit_cases hvisit).visited.main]
  | beyond i _ hle hout => exact absurd (hle.trans h.maxi_le) (not_le.mpr hout)
  | finish => simp

end Steps

section Runs

variable {base : FdSet} {listenfd : ℤ} {garbage : Fin (m+1) → PollFd} {buffer : Memory UInt8}
  {s : State m}

structure Watched (listenfd : ℤ) (s : State m) : Prop where
  owned : Owned s
  listenfd : s.listenfd = listenfd
  defined : s.main ≠ .undefined
  events : ∀ i, 0 ≤ (s.client i).fd → (s.client i).events = pollrdnorm

theorem Watched.step {t : State m} {a : Answers} (h : Watched listenfd s)
    (hstep : step s a = some t) : Watched listenfd t := by
  have hgrown := step_grown hstep
  refine ⟨h.owned.step hstep,hgrown.listenfd.trans h.listenfd,
    h.owned.table.step_defined hstep,?_⟩
  intro i hi
  rcases hgrown.events i hi with hevents | ⟨hfd,hevents⟩
  · exact hevents
  · rw [hevents]
    exact h.events i (by rwa [← hfd])

theorem reachable_watched (hlisten : listenfd ∈ base) (hbase : ∀ fd ∈ base, 0 ≤ fd)
    (hrun : Reachable step (start base listenfd garbage buffer) s) : Watched listenfd s := by
  refine hrun.invariant (I := Watched listenfd) ?_ fun _ _ _ hx hxy => hx.step hxy
  refine ⟨reachable_owned hlisten hbase (.refl _),rfl,by simp [start],?_⟩
  intro i hi
  by_cases hzero : i = 0
  · simp [start,hzero]
  · simp [start,hzero] at hi

/-- In every state of every run: entry 0 is the listening socket; no index leaves the table;
an entry that holds a descriptor is at most `maxi` and watched for input; no two entries hold
the same descriptor; no step lowers `maxi`; and a connection that finds every entry taken
leaves the table and `maxi` as they are. -/
theorem table_bounds (hlisten : listenfd ∈ base) (hbase : ∀ fd ∈ base, 0 ≤ fd)
    (hrun : Reachable step (start base listenfd garbage buffer) s) :
    (s.client 0).fd = listenfd ∧ s.main ≠ .undefined ∧ s.maxi < m+1 ∧
      (∀ i, 0 ≤ (s.client i).fd → i ≤ s.maxi ∧ (s.client i).events = pollrdnorm) ∧
      (∀ i j, 0 ≤ (s.client i).fd → (s.client i).fd = (s.client j).fd → i = j) ∧
      (∀ a t, step s a = some t → s.maxi ≤ t.maxi) ∧
      ((∀ i, i ≠ 0 → 0 ≤ (s.client i).fd) → ∀ a t, s.main = .accepting → step s a = some t →
        t.client = s.client ∧ t.maxi = s.maxi) := by
  have h := reachable_watched hlisten hbase hrun
  have htable := h.owned.table
  refine ⟨htable.listen.trans h.listenfd,h.defined,Nat.lt_succ_of_le htable.maxi_le,?_,?_,?_,?_⟩
  · intro i hi
    exact ⟨htable.le_maxi i hi,h.events i hi⟩
  · intro i j hi hij
    exact htable.distinct hi (hi.trans_eq hij) hij
  · intro a t hstep
    exact (step_grown hstep).maxi
  · intro hfull a t hmain hstep
    simp only [step,hmain] at hstep
    split_ifs at hstep
    cases hstep
    exact accept_taken hfull a.accept

/-- The only entry is taken when a second client connects. -/
theorem table_bounds_full : ∃ s : State 1,
    Reachable step (start {3} 3 (fun _ => ⟨0,0,0⟩) fun _ => 0) s ∧ s.main = .accepting ∧
      (∀ a t, step s a = some t → t.client = s.client ∧ t.maxi = s.maxi) := by
  obtain ⟨s,hrun,hs⟩ := exists_reachable step
    (start {3} 3 (fun _ => ⟨0,0,0⟩) (fun _ => 0) : State 1)
    [.ready [0] 4 (.data []) false,.ready [0] 4 (.data []) false,.ready [0] 5 (.data []) false]
    (fun s => s.main = .accepting && ∀ i, i ≠ 0 → 0 ≤ (s.client i).fd) (by decide +kernel)
  simp only [Bool.and_eq_true,decide_eq_true_eq] at hs
  obtain ⟨-,-,-,-,-,-,hkeep⟩ := table_bounds (by decide) (by decide) hrun
  exact ⟨s,hrun,hs.1,fun a t hstep => hkeep hs.2 a t hs.1 hstep⟩

end Runs

end PollServer
end CPrograming
