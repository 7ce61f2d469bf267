import CPrograming.PollServer
import CPrograming.Keys

/-!
# The descriptors of `poll_server.c`

An accepted descriptor is entered in the table or, when that is full, closed at once.
An entry is released in two places: after a reset, where the descriptor is closed first,
and at end of file, where `close` is given the -1 that the entry already holds. So the
table is the set of open connections until the first client ends its connection, and
never again after that.
-/

namespace CPrograming
namespace PollServer

open Runs Keys EchoServer

variable {m : ℕ}

/-- The entries hold open connections, each once, and no index above `maxi` does. -/
structure Table (s : State m) : Prop where
  listen : (s.client 0).fd = s.listenfd
  listen_mem : s.listenfd ∈ s.base
  base_nonneg : ∀ fd ∈ s.base, 0 ≤ fd
  apart : Apart s.base s.log
  distinct : Distinct (fun p : PollFd => 0 ≤ p.fd) PollFd.fd s.client
  mem_live : ∀ i, i ≠ 0 → 0 ≤ (s.client i).fd → (s.client i).fd ∈ live s.log
  le_maxi : ∀ i, 0 ≤ (s.client i).fd → i ≤ s.maxi
  maxi_le : s.maxi ≤ m
  scan_pos : ∀ i, s.main = .scan i → i ≠ 0

namespace Table

variable {s t : State m} {i : Fin (m+1)} {fd : ℤ}

theorem start {base : FdSet} {listenfd : ℤ} (garbage : Fin (m+1) → PollFd)
    (buffer : Memory UInt8) (hlisten : listenfd ∈ base) (hbase : ∀ fd ∈ base, 0 ≤ fd) :
    Table (start base listenfd garbage buffer) := by
  have hzero : ∀ i, 0 ≤ ((PollServer.start base listenfd garbage buffer).client i).fd → i = 0 := by
    intro i hi
    by_contra hne
    simp [PollServer.start,hne] at hi
  refine ⟨rfl,hlisten,hbase,Apart.nil base,?_,?_,?_,Nat.zero_le m,?_⟩
  · intro i hi j hj _
    rw [hzero i hi,hzero j hj]
  · intro i hne hi
    exact absurd (hzero i hi) hne
  · intro i hi
    rw [hzero i hi]
    exact Nat.zero_le _
  · intro i hi
    simp [PollServer.start] at hi

theorem opened_nonneg (h : Table s) (hfd : fd ∈ s.opened) : 0 ≤ fd := by
  rw [State.opened,h.apart.opened,Finset.mem_union] at hfd
  rcases hfd with hfd | hfd
  · exact h.base_nonneg fd hfd
  · exact h.apart.nonneg fd hfd

theorem mem_opened (h : Table s) (hi : 0 ≤ (s.client i).fd) : (s.client i).fd ∈ s.opened := by
  by_cases hzero : i = 0
  · rw [hzero,h.listen,State.opened,h.apart.opened]
    exact Finset.mem_union_left _ h.listen_mem
  · exact h.apart.mem_opened (h.mem_live i hzero hi)

theorem congr (h : Table s) (hlisten : t.listenfd = s.listenfd) (hbase : t.base = s.base)
    (hclient : ∀ i, (t.client i).fd = (s.client i).fd) (hmaxi : t.maxi = s.maxi)
    (hmain : ∀ i, t.main = .scan i → i ≠ 0) (hapart : Apart t.base t.log)
    (hlive : live t.log = live s.log) : Table t := by
  refine ⟨?_,?_,?_,hapart,?_,?_,?_,?_,hmain⟩
  · rw [hclient,hlisten]
    exact h.listen
  · rw [hlisten,hbase]
    exact h.listen_mem
  · rw [hbase]
    exact h.base_nonneg
  · intro i (hi : 0 ≤ (t.client i).fd) j (hj : 0 ≤ (t.client j).fd) hij
    rw [hclient] at hi hj
    have hfd : (s.client i).fd = (s.client j).fd := by
      rw [← hclient,← hclient]
      exact hij
    exact h.distinct hi hj hfd
  · simp only [hclient,hlive]
    exact h.mem_live
  · simp only [hclient,hmaxi]
    exact h.le_maxi
  · rw [hmaxi]
    exact h.maxi_le

/-- One entry gets another descriptor, or none. -/
theorem put {p : PollFd} (h : Table s) (hi : i ≠ 0) (hlisten : t.listenfd = s.listenfd)
    (hbase : t.base = s.base) (hclient : t.client = Function.update s.client i p)
    (hle : s.maxi ≤ t.maxi) (hm : t.maxi ≤ m) (hmain : ∀ i, t.main = .scan i → i ≠ 0)
    (hapart : Apart t.base t.log)
    (hnew : 0 ≤ p.fd → p.fd ∈ live t.log ∧ i ≤ t.maxi ∧ p.fd ∉ s.opened)
    (hkeep : ∀ j, j ≠ i → j ≠ 0 → 0 ≤ (s.client j).fd →
      (s.client j).fd ∈ live t.log) : Table t := by
  refine ⟨?_,?_,?_,hapart,?_,?_,?_,hm,hmain⟩
  · rw [hclient,Function.update_of_ne hi.symm,hlisten]
    exact h.listen
  · rw [hlisten,hbase]
    exact h.listen_mem
  · rw [hbase]
    exact h.base_nonneg
  · rw [hclient]
    refine h.distinct.update ?_
    intro hp j _ hj he
    have hmem := h.mem_opened hj
    rw [he] at hmem
    exact (hnew hp).2.2 hmem
  · rw [hclient]
    intro j hj hfd
    by_cases hji : j = i
    · subst j
      rw [Function.update_self] at hfd ⊢
      exact (hnew hfd).1
    · rw [Function.update_of_ne hji] at hfd ⊢
      exact hkeep j hji hj hfd
  · rw [hclient]
    intro j hfd
    by_cases hji : j = i
    · subst j
      rw [Function.update_self] at hfd
      exact (hnew hfd).2.1
    · rw [Function.update_of_ne hji] at hfd
      exact (h.le_maxi j hfd).trans hle

end Table

def Ended (log : List (Event Polled)) : Prop := ∃ fd, .read fd (.data []) ∈ log

theorem ended_append {log es : List (Event Polled)} (h : ∀ fd, .read fd (.data []) ∉ es) :
    Ended (log ++ es) ↔ Ended log := by
  simp only [Ended,List.mem_append]
  constructor
  · rintro ⟨fd,hfd | hfd⟩
    · exact ⟨fd,hfd⟩
    · exact absurd hfd (h fd)
  · rintro ⟨fd,hfd⟩
    exact ⟨fd,Or.inl hfd⟩

def State.fds (s : State m) : FdSet := keys (fun p : PollFd => 0 ≤ p.fd) PollFd.fd s.client

theorem fds_congr {s t : State m} (h : ∀ i, (t.client i).fd = (s.client i).fd) :
    t.fds = s.fds := by
  ext fd
  simp only [State.fds,mem_keys,h]

/-- The table misses an open connection exactly if some client has ended its connection. -/
structure Owned (s : State m) : Prop where
  table : Table s
  whole : live s.log ⊆ s.fds ↔ ¬ Ended s.log

namespace Owned

variable {s t : State m} {i : Fin (m+1)} {fd : ℤ}

theorem quiet (h : Owned s) {es : List (Event Polled)} (hlisten : t.listenfd = s.listenfd)
    (hbase : t.base = s.base) (hclient : ∀ i, (t.client i).fd = (s.client i).fd)
    (hmaxi : t.maxi = s.maxi) (hmain : ∀ i, t.main = .scan i → i ≠ 0)
    (hlog : t.log = s.log ++ es) (hopen : openAfter s.opened es = s.opened)
    (hlive : openAfter (live s.log) es = live s.log)
    (hread : ∀ fd, .read fd (.data []) ∉ es) : Owned t := by
  have hapart : Apart t.base t.log := by
    rw [hbase,hlog]
    exact h.table.apart.of_unopened hopen hlive
  have hlive : live t.log = live s.log := by rw [hlog,live_append,hlive]
  refine ⟨h.table.congr hlisten hbase hclient hmaxi hmain hapart hlive,?_⟩
  rw [hlive,fds_congr hclient,hlog,ended_append hread]
  exact h.whole

theorem wait (h : Owned s) (a : PollAnswer) : Owned (s.wait a) := by
  refine h.quiet rfl rfl (s.answered_fd a) rfl ?_ rfl rfl rfl (by simp)
  intro i hi
  simp only [State.wait] at hi
  split_ifs at hi
  cases hi
  decide

theorem not_mem_opened (h : Owned s) (hok : acceptable s.opened fd) : fd ∉ s.opened := by
  rcases hok with rfl | hok
  · intro hmem
    exact absurd (h.table.opened_nonneg hmem) (by decide)
  · exact hok.2

theorem accept_full (h : Owned s) (hfull : freeSlot s.client = none)
    (hok : acceptable s.opened fd) : Owned (s.accept fd) := by
  have hsame (o : FdSet) (ho : fd ∉ o) :
      openAfter o [Event.accept fd,.print "too many connections\n" [],(.close fd : Event Polled)] =
        o := by
    simp only [openAfter,List.foldl_cons,List.foldl_nil,Event.opens]
    split_ifs
    · exact Finset.erase_insert ho
    · exact Finset.erase_eq_of_notMem ho
  have hnew := h.not_mem_opened hok
  simp only [State.accept,hfull]
  refine h.quiet rfl rfl (fun _ => rfl) rfl (by simp) rfl (hsame _ hnew) ?_ (by simp)
  exact hsame _ fun hmem => hnew (h.table.apart.mem_opened hmem)

theorem accept_slot (h : Owned s) (hslot : freeSlot s.client = some i)
    (hok : acceptable s.opened fd) : Owned (s.accept fd) := by
  have hnew := h.not_mem_opened hok
  obtain ⟨hi,hfree⟩ := freeSlot_free hslot
  have hmain : ∀ j, (if s.nready-1 ≤ 0 then .head else .scan 1) = Main.scan j → j ≠ 0 := by
    intro j hj
    split_ifs at hj
    cases hj
    decide
  have hmaxi : max s.maxi i ≤ m := max_le h.table.maxi_le (Nat.le_of_lt_succ i.isLt)
  have hended : Ended (s.log ++ [Event.accept fd]) ↔ Ended s.log := ended_append (by simp)
  simp only [State.accept,hslot]
  by_cases hfd : 0 ≤ fd
  · have hes (o : FdSet) : openAfter o [(Event.accept fd : Event Polled)] = insert fd o := by
      simp [openAfter,Event.opens,hfd]
    have hlive : live (s.log ++ [Event.accept fd]) = insert fd (live s.log) := by
      rw [live_append,hes]
    have hfds : keys (fun p : PollFd => 0 ≤ p.fd) PollFd.fd (Function.update s.client i
        { s.client i with fd := fd, events := pollrdnorm }) = insert fd s.fds :=
      keys_update_insert (not_le.mpr hfree) hfd
    refine ⟨h.table.put hi rfl rfl rfl (le_max_left _ _) hmaxi hmain
      (h.table.apart.accept hfd hnew hes) ?_ ?_,?_⟩
    · intro _
      refine ⟨?_,le_max_right _ _,hnew⟩
      rw [hlive]
      exact Finset.mem_insert_self fd _
    · intro j _ hj hjfd
      rw [hlive]
      exact Finset.mem_insert_of_mem (h.table.mem_live j hj hjfd)
    · rw [State.fds,hfds,hlive,hended,← h.whole]
      have hfresh : fd ∉ live s.log := fun hmem => hnew (h.table.apart.mem_opened hmem)
      exact Finset.insert_subset_insert_iff hfresh
  · have hes (o : FdSet) : openAfter o [(Event.accept fd : Event Polled)] = o := by
      simp [openAfter,Event.opens,hfd]
    have hlive : live (s.log ++ [Event.accept fd]) = live s.log := by rw [live_append,hes]
    have hfds : keys (fun p : PollFd => 0 ≤ p.fd) PollFd.fd (Function.update s.client i
        { s.client i with fd := fd, events := pollrdnorm }) = s.fds :=
      keys_update_same (iff_of_false hfd (not_le.mpr hfree)) fun hp => absurd hp hfd
    refine ⟨h.table.put hi rfl rfl rfl (le_max_left _ _) hmaxi hmain
      (h.table.apart.of_unopened (hes _) (hes _)) (fun hp => absurd hp hfd) ?_,?_⟩
    · intro j _ hj hjfd
      rw [hlive]
      exact h.table.mem_live j hj hjfd
    · rw [State.fds,hfds,hlive,hended]
      exact h.whole

/-- An entry of the table is released; `es` are the calls of the step. -/
theorem release (h : Owned s) (hi : i ≠ 0) (hopen : (s.client i).fd ∈ s.opened)
    {es : List (Event Polled)} (hapart : Apart s.base (s.log ++ es))
    (hkeep : (live s.log).erase (s.client i).fd ⊆ live (s.log ++ es))
    (hwhole : live (s.log ++ es) ⊆ s.fds.erase (s.client i).fd ↔ ¬ Ended (s.log ++ es)) :
    Owned { s with
      client := release s.client i
      main := .scan (i+1)
      log := s.log ++ es } := by
  have hfd := h.table.opened_nonneg hopen
  have hnone : ¬ (0 : ℤ) ≤ -1 := by decide
  refine ⟨h.table.put hi rfl rfl rfl le_rfl h.table.maxi_le ?_ hapart ?_ ?_,?_⟩
  · intro j hj
    cases hj
    exact Nat.succ_ne_zero _
  · intro hp
    exact absurd hp hnone
  · intro j hji hj hjfd
    refine hkeep (Finset.mem_erase.mpr ⟨?_,h.table.mem_live j hj hjfd⟩)
    intro he
    exact hji (h.table.distinct hjfd hfd he)
  · rw [State.fds,PollServer.release,keys_update_erase h.table.distinct hfd hnone]
    exact hwhole

theorem mem_live (h : Owned s) (hi : i ≠ 0) (hopen : (s.client i).fd ∈ s.opened) :
    (s.client i).fd ∈ live s.log :=
  h.table.mem_live i hi (h.table.opened_nonneg hopen)

theorem visit {a : Answers} (h : Owned s) (hi : i ≠ 0) (ht : Visit s i a t) : Owned t := by
  have hnext : ∀ j, Main.scan (i+1) = .scan j → j ≠ 0 := by
    intro j hj
    cases hj
    exact Nat.succ_ne_zero _
  cases ht with
  | idle hidle =>
    exact h.quiet rfl rfl (fun _ => rfl) rfl hnext rfl rfl rfl (by simp [State.report])
  | failed e hready =>
    exact h.quiet rfl rfl (fun _ => rfl) rfl hnext rfl rfl rfl (by simp [State.report])
  | echoed bytes sent ret buffer hready hne hsent =>
    refine h.quiet rfl rfl (fun _ => rfl) rfl hnext rfl rfl rfl ?_
    simp [State.report,hne.symm]
  | reset e hready hopen =>
    have hlive := h.mem_live hi hopen
    have hmem : (s.client i).fd ∈ s.fds := key_mem_keys (h.table.opened_nonneg hopen)
    have hclosed : live (s.log ++ [s.report i,.read (s.client i).fd (.fail e),
        .close (s.client i).fd]) = (live s.log).erase (s.client i).fd := live_append _ _
    refine h.release hi hopen (h.table.apart.close hlive fun o => rfl) hclosed.ge ?_
    rw [ended_append (by simp [State.report]),← h.whole,hclosed,Finset.subset_erase,
      and_iff_left (Finset.notMem_erase _ _)]
    exact Finset.erase_subset_iff_of_mem hmem
  | eof hready hopen =>
    have hlive := h.mem_live hi hopen
    have hneg (o : FdSet) (ho : ∀ fd ∈ o, 0 ≤ fd) : openAfter o [s.report i,
        .read (s.client i).fd (.data []),.close (-1)] = o := by
      refine Finset.erase_eq_of_notMem fun hmem => ?_
      exact absurd (ho _ hmem) (by decide)
    have hsame := hneg (live s.log) h.table.apart.nonneg
    refine h.release hi hopen
      (h.table.apart.of_unopened (hneg _ fun fd => h.table.opened_nonneg) hsame) ?_ ?_
    · rw [live_append,hsame]
      exact Finset.erase_subset _ _
    · rw [live_append,hsame]
      refine iff_of_false ?_ ?_
      · intro hsub
        exact Finset.notMem_erase _ _ (hsub hlive)
      · exact not_not.mpr ⟨(s.client i).fd,by simp⟩

theorem step {a : Answers} (h : Owned s) (hstep : PollServer.step s a = some t) : Owned t := by
  cases step_cases hstep with
  | wait => exact h.wait a.poll
  | accept _ hok =>
    cases hslot : freeSlot s.client with
    | none => exact h.accept_full hslot hok
    | some i => exact h.accept_slot hslot hok
  | visit i hmain hle hvisit =>
    refine h.visit ?_ (visit_cases hvisit)
    intro hzero
    exact h.table.scan_pos i hmain (Fin.val_eq_of_eq hzero)
  | beyond i _ hle hout => exact absurd (hle.trans h.table.maxi_le) (not_le.mpr hout)
  | finish =>
    exact h.quiet rfl rfl (fun _ => rfl) rfl (by simp) (List.append_nil s.log).symm rfl rfl
      (by simp)

end Owned

section Runs

variable {base : FdSet} {listenfd : ℤ} {garbage : Fin (m+1) → PollFd} {buffer : Memory UInt8}
  {t : State m}

theorem reachable_owned (hlisten : listenfd ∈ base) (hbase : ∀ fd ∈ base, 0 ≤ fd)
    (hrun : Reachable step (start base listenfd garbage buffer) t) : Owned t := by
  refine hrun.invariant ⟨Table.start garbage buffer hlisten hbase,?_⟩ fun a x y hx => hx.step
  refine iff_of_true (Finset.empty_subset _) ?_
  rintro ⟨fd,hfd⟩
  cases hfd

/-- The descriptors of the clients: the entries 1 to `maxi` that are not negative. -/
def State.held (s : State m) : FdSet :=
  (Finset.univ.filter fun i : Fin (m+1) =>
    1 ≤ (i : ℕ) ∧ i ≤ s.maxi ∧ 0 ≤ (s.client i).fd).image fun i => (s.client i).fd

theorem Table.live_eq_held_iff (h : Table t) : live t.log = t.held ↔ live t.log ⊆ t.fds := by
  have hheld : ∀ fd, fd ∈ t.held ↔
      ∃ i : Fin (m+1), (1 ≤ (i : ℕ) ∧ i ≤ t.maxi ∧ 0 ≤ (t.client i).fd) ∧ (t.client i).fd = fd := by
    simp [State.held]
  constructor
  · intro heq fd hfd
    rw [heq,hheld] at hfd
    obtain ⟨i,⟨-,-,hi⟩,rfl⟩ := hfd
    exact key_mem_keys hi
  · intro hsub
    ext fd
    rw [hheld]
    constructor
    · intro hfd
      obtain ⟨i,hi,rfl⟩ := mem_keys.mp (hsub hfd)
      refine ⟨i,⟨?_,h.le_maxi i hi,hi⟩,rfl⟩
      rw [Nat.one_le_iff_ne_zero]
      intro hzero
      have hbase := h.apart.not_mem_base hfd
      rw [Fin.val_eq_zero_iff.mp hzero,h.listen] at hbase
      exact hbase h.listen_mem
    · rintro ⟨i,⟨hi,-,hfd⟩,rfl⟩
      refine h.mem_live i ?_ hfd
      rintro rfl
      exact absurd hi (Nat.not_succ_le_zero 0)

/-- In every state of every run, the open connections are the descriptors in the table
exactly if no client has ended its connection, that is, no `read` has returned 0. -/
theorem live_eq_held_iff_no_eof (hlisten : listenfd ∈ base) (hbase : ∀ fd ∈ base, 0 ≤ fd)
    (hrun : Reachable step (start base listenfd garbage buffer) t) :
    live t.log = t.held ↔ ∀ fd, .read fd (.data []) ∉ t.log := by
  have h := reachable_owned hlisten hbase hrun
  rw [h.table.live_eq_held_iff,h.whole]
  exact not_exists

/-- A client that is reset leaves nothing behind. -/
theorem live_eq_held_reset : ∃ t : State 2,
    Reachable step (start {3} 3 (fun _ => ⟨0,0,0⟩) fun _ => 0) t ∧ t.main = .head ∧
      reads t.log = [4] ∧ live t.log = t.held := by
  obtain ⟨t,hrun,ht⟩ := exists_reachable step
    (start {3} 3 (fun _ => ⟨0,0,0⟩) (fun _ => 0) : State 2)
    [.ready [0] 4 (.data []) false,.ready [0] 4 (.data []) false,.ready [0] 4 (.data []) false,
      .ready [0] 5 (.data []) false,.ready [1] 0 (.data []) false,.ready [1] 0 (.fail .other) true,
      .ready [1] 0 (.data []) false,.ready [] 0 (.data []) false]
    (fun t => t.main = .head && reads t.log = [4] &&
      !t.log.contains (.read 4 (.data []))) (by decide +kernel)
  simp only [Bool.and_eq_true,decide_eq_true_eq,Bool.not_eq_true',
    List.contains_eq_mem,decide_eq_false_iff_not] at ht
  obtain ⟨⟨hmain,hreads⟩,hopen⟩ := ht
  refine ⟨t,hrun,hmain,hreads,(live_eq_held_iff_no_eof (by decide) (by decide) hrun).mpr ?_⟩
  intro fd hfd
  have hmem := mem_reads hfd
  rw [hreads,List.mem_singleton] at hmem
  rw [hmem] at hfd
  exact hopen hfd

/-- The client ends its connection: its entry is released, and its descriptor stays open. -/
theorem eof_leaks : ∃ t : State 1,
    Reachable step (start {3} 3 (fun _ => ⟨0,0,0⟩) fun _ => 0) t ∧ t.main = .head ∧
      live t.log = {4} ∧ t.held = ∅ := by
  obtain ⟨t,hrun,ht⟩ := exists_reachable step
    (start {3} 3 (fun _ => ⟨0,0,0⟩) (fun _ => 0) : State 1)
    [.ready [0] 4 (.data []) false,.ready [0] 4 (.data []) false,.ready [1] 0 (.data []) false,
      .ready [1] 0 (.data []) false,.ready [1] 0 (.data []) false]
    (fun t => t.main = .head && live t.log = {4} && t.held = ∅) (by decide +kernel)
  simp only [Bool.and_eq_true,decide_eq_true_eq] at ht
  exact ⟨t,hrun,ht.1.1,ht.1.2,ht.2⟩

end Runs

end PollServer
end CPrograming
