import CPrograming.SelectServer

/-!
# The table of `select_server.c`

The entries of `client`, the set `allset` and the bounds `maxi` and `maxfd` are kept by
different statements of the loop. As long as `accept` gives descriptors that fit into
the sets they agree: the entries are the open connections, each once, and the set
is these and the listening socket. That leaves an entry free for every new connection.
-/

namespace CPrograming
namespace SelectServer

open Runs Keys EchoServer

variable {size : ℕ}

def State.clients (s : State size) : FdSet := keys (· ≠ -1) id s.client

@[simp] theorem mem_clients {s : State size} {fd : ℤ} :
    fd ∈ s.clients ↔ ∃ i, s.client i ≠ -1 ∧ s.client i = fd := mem_keys

structure Table (s : State size) : Prop where
  defined : s.main ≠ .undefined
  serve : s.serve ∈ s.base
  live : s.clients = live s.log
  distinct : Distinct (· ≠ -1) id s.client
  allset : s.allset = insert s.serve s.clients
  inSet : ∀ fd ∈ s.allset, inSet size fd
  le_maxi : ∀ i, s.client i ≠ -1 → i ≤ s.maxi
  maxi_lt : s.maxi < size
  le_maxfd : ∀ fd ∈ s.allset, fd ≤ s.maxfd
  apart : Apart s.base s.log

/-- `accept` gives a descriptor that the sets can hold. -/
def Usable (size : ℕ) (_ : State size) (a : Answers) : Prop := SelectServer.inSet size a.accept

instance usableDecidable (size : ℕ) (s : State size) (a : Answers) :
    Decidable (Usable size s a) :=
  inferInstanceAs (Decidable (SelectServer.inSet size a.accept))

theorem Usable.not_mem {s : State size} {a : Answers} (ha : Usable size s a)
    (hok : acceptable s.opened a.accept) : a.accept ∉ s.opened := by
  rcases hok with hneg | hok
  · have := ha.1
    omega
  · exact hok.2

namespace Table

variable {s t : State size} {i : Fin size} {fd : ℤ}

theorem start {base : FdSet} {serve : ℤ} (buffer : Memory UInt8) (hserve : serve ∈ base)
    (hin : SelectServer.inSet size serve) : Table (start size base serve buffer) := by
  have hpos : 0 < size := by
    have := hin.1
    have := hin.2
    omega
  have hnone : (SelectServer.start size base serve buffer).clients = ∅ :=
    keys_eq_empty_iff.mpr fun i => by simp [SelectServer.start]
  refine ⟨?_,hserve,hnone,?_,?_,?_,?_,hpos,?_,Apart.nil base⟩
  · simp [SelectServer.start,hin]
  · intro i hi
    exact absurd rfl hi
  · rw [hnone]
    rfl
  · intro fd hfd
    rw [Finset.mem_singleton.mp hfd]
    exact hin
  · intro i hi
    exact absurd rfl hi
  · intro fd hfd
    exact (Finset.mem_singleton.mp hfd).le

theorem mem_live (h : Table s) (hi : s.client i ≠ -1) : s.client i ∈ EchoServer.live s.log := by
  rw [← h.live,mem_clients]
  exact ⟨i,hi,rfl⟩

theorem mem_allset (h : Table s) (hi : s.client i ≠ -1) : s.client i ∈ s.allset := by
  rw [h.allset,Finset.mem_insert,mem_clients]
  exact Or.inr ⟨i,hi,rfl⟩

theorem ne_serve (h : Table s) (hi : s.client i ≠ -1) : s.client i ≠ s.serve := by
  intro he
  have hbase := h.apart.not_mem_base (h.mem_live hi)
  rw [he] at hbase
  exact hbase h.serve

/-- The clients have distinct descriptors, none of them the listening one, so that they
cannot fill the table. -/
theorem exists_free (h : Table s) : ∃ i, s.client i = -1 := by
  have hserve : SelectServer.inSet size s.serve :=
    h.inSet s.serve (by rw [h.allset]; exact Finset.mem_insert_self _ _)
  have hcard : ((Finset.Ico 0 (size : ℤ)).erase s.serve).card < Fintype.card (Fin size) := by
    rw [Finset.card_erase_of_mem (Finset.mem_Ico.mpr hserve)]
    have := h.maxi_lt
    simp
    omega
  have hfree := h.distinct.exists_not (t := (Finset.Ico 0 (size : ℤ)).erase s.serve) ?_ hcard
  · obtain ⟨i,hi⟩ := hfree
    exact ⟨i,not_not.mp hi⟩
  · intro i hi
    exact Finset.mem_erase.mpr ⟨h.ne_serve hi,Finset.mem_Ico.mpr (h.inSet _ (h.mem_allset hi))⟩

theorem exists_slot (h : Table s) : ∃ i, freeSlot s.client = some i ∧ s.client i = -1 := by
  obtain ⟨j,hj⟩ := h.exists_free
  have hsome : (freeSlot s.client).isSome := Fin.isSome_find?_iff.mpr ⟨j,by simpa using hj⟩
  obtain ⟨i,hi⟩ := Option.isSome_iff_exists.mp hsome
  have hfree := Fin.eq_true_of_find?_eq_some hi
  exact ⟨i,hi,by simpa using hfree⟩

theorem congr (h : Table s) (hmain : t.main ≠ .undefined) (hserve : t.serve = s.serve)
    (hbase : t.base = s.base) (hclient : t.client = s.client) (hallset : t.allset = s.allset)
    (hmaxi : t.maxi = s.maxi) (hmaxfd : t.maxfd = s.maxfd) {es : List (Event Selected)}
    (hlog : t.log = s.log ++ es) (hes : ∀ o, openAfter o es = o) : Table t := by
  have hclients : t.clients = s.clients := by simp only [State.clients,hclient]
  have hapart : Apart t.base t.log := by
    rw [hbase,hlog]
    exact h.apart.of_unopened (hes _) (hes _)
  refine ⟨hmain,?_,?_,?_,?_,?_,?_,?_,?_,hapart⟩
  · rw [hserve,hbase]
    exact h.serve
  · rw [hclients,hlog,live_append,hes]
    exact h.live
  · rw [hclient]
    exact h.distinct
  · rw [hallset,hserve,hclients]
    exact h.allset
  · rw [hallset]
    exact h.inSet
  · rw [hclient,hmaxi]
    exact h.le_maxi
  · rw [hmaxi]
    exact h.maxi_lt
  · rw [hallset,hmaxfd]
    exact h.le_maxfd

theorem goto {m : Main} (h : Table s) (hm : m ≠ .undefined) : Table { s with main := m } :=
  h.congr hm rfl rfl rfl rfl rfl rfl (List.append_nil s.log).symm fun _ => rfl

theorem wait (h : Table s) (a : SelectAnswer) : Table (s.wait a) := by
  refine h.congr ?_ rfl rfl rfl rfl rfl rfl rfl fun o => rfl
  simp only [State.wait]
  split_ifs <;> simp

theorem accept (h : Table s) (hin : SelectServer.inSet size fd) (hnew : fd ∉ s.opened) :
    Table (s.accept fd) := by
  obtain ⟨i,hslot,hfree⟩ := h.exists_slot
  have hneg : fd ≠ -1 := by
    have := hin.1
    omega
  have hclients : keys (· ≠ -1) id (Function.update s.client i fd) = insert fd s.clients :=
    keys_update_insert (by simpa using hfree) hneg
  have hother : ∀ j, s.client j ≠ -1 → s.client j ≠ fd := by
    intro j hj he
    have hopen := h.apart.mem_opened (h.mem_live hj)
    rw [he] at hopen
    exact hnew hopen
  simp only [State.accept,hslot,Option.elim_some,if_pos hin]
  refine ⟨?_,h.serve,?_,?_,?_,?_,?_,?_,?_,?_⟩
  · split_ifs <;> simp
  · rw [live_append,State.clients,hclients,h.live]
    simp [openAfter,Event.opens,hin.1]
  · exact h.distinct.update fun _ j _ hj => hother j hj
  · rw [State.clients,hclients,h.allset,Finset.insert_comm]
  · intro x hx
    rcases Finset.mem_insert.mp hx with rfl | hx
    · exact hin
    · exact h.inSet x hx
  · intro j hj
    by_cases hji : j = i
    · subst j
      exact le_max_right _ _
    · simp only [Function.update_of_ne hji] at hj
      exact (h.le_maxi j hj).trans (le_max_left _ _)
  · exact max_lt h.maxi_lt i.isLt
  · intro x hx
    rcases Finset.mem_insert.mp hx with rfl | hx
    · exact le_max_right _ _
    · exact (h.le_maxfd x hx).trans (le_max_left _ _)
  · exact h.apart.accept hin.1 hnew fun o => by simp [openAfter,Event.opens,hin.1]

theorem visit {a : Answers} (h : Table s) (ht : Visit s i a t) : Table t := by
  cases ht with
  | free hfree => exact h.goto (by simp)
  | outside hfd hout => exact absurd (h.inSet _ (h.mem_allset hfd)) hout
  | idle hfd hidle => exact h.congr (by simp) rfl rfl rfl rfl rfl rfl rfl fun o => rfl
  | echoed got sent ret buffer hfd hready hsent =>
    refine h.congr ?_ rfl rfl rfl rfl rfl rfl rfl fun o => rfl
    split_ifs <;> simp
  | closed got hfd hready heof =>
    have hclients : keys (· ≠ -1) id (Function.update s.client i (-1)) =
        s.clients.erase (s.client i) :=
      keys_update_erase h.distinct hfd (by simp)
    have hsub : ∀ fd ∈ s.allset.erase (s.client i), fd ∈ s.allset := fun fd =>
      Finset.mem_of_mem_erase
    refine ⟨?_,h.serve,?_,?_,?_,?_,?_,h.maxi_lt,?_,?_⟩
    · split_ifs <;> simp
    · rw [live_append,State.clients,hclients,h.live]
      rfl
    · exact h.distinct.update fun hp => absurd rfl hp
    · rw [State.clients,hclients,h.allset,Finset.erase_insert_of_ne (h.ne_serve hfd).symm]
    · exact fun fd hmem => h.inSet fd (hsub fd hmem)
    · intro j hj
      by_cases hji : j = i
      · simp [hji] at hj
      · simp only [Function.update_of_ne hji] at hj
        exact h.le_maxi j hj
    · exact fun fd hmem => h.le_maxfd fd (hsub fd hmem)
    · exact h.apart.close (h.mem_live hfd) fun o => rfl

theorem step {a : Answers} (h : Table s) (ha : Usable size s a)
    (hstep : SelectServer.step s a = some t) : Table t := by
  cases step_cases hstep with
  | wait => exact h.wait a.select
  | accept _ hok => exact h.accept ha (Usable.not_mem ha hok)
  | visit i _ hvisit => exact h.visit hvisit
  | beyond i _ hle hout => exact absurd (hle.trans_lt h.maxi_lt) (not_lt.mpr hout)
  | finish => exact h.goto (by simp)

end Table

theorem step_serve {s t : State size} {a : Answers} (h : step s a = some t) :
    t.serve = s.serve := by
  cases step_cases h with
  | wait | beyond | finish => rfl
  | accept =>
    simp only [State.accept]
    split_ifs <;> rfl
  | visit i _ hvisit => cases hvisit <;> rfl

section Runs

variable {base : FdSet} {serve : ℤ} {buffer : Memory UInt8} {t : State size}

abbrev Served (size : ℕ) (base : FdSet) (serve : ℤ) (buffer : Memory UInt8) (t : State size) :
    Prop :=
  Reachable (restrict (Usable size) step) (start size base serve buffer) t

theorem Served.table (hserve : serve ∈ base) (hin : inSet size serve)
    (hrun : Served size base serve buffer t) : Table t ∧ t.serve = serve := by
  refine hrun.invariant (I := fun x => Table x ∧ x.serve = serve)
    ⟨Table.start buffer hserve hin,rfl⟩ ?_
  rintro a x y ⟨hx,hxserve⟩ hxy
  obtain ⟨ha,hstep⟩ := restrict_eq_some.mp hxy
  exact ⟨hx.step ha hstep,(step_serve hstep).trans hxserve⟩

/-- In every state of every run, for any order of connections, data, read errors and
disconnects, the table, the set and the two bounds agree, and there is a free entry
for the next connection. -/
theorem table_agrees (hserve : serve ∈ base) (hin : inSet size serve)
    (hrun : Served size base serve buffer t) :
    t.main ≠ .undefined ∧ t.allset = insert serve t.clients ∧ t.clients = live t.log ∧
      (∀ i j, t.client i ≠ -1 → t.client i = t.client j → i = j) ∧
      (∀ i, t.client i ≠ -1 → i ≤ t.maxi) ∧ t.maxi < size ∧ (∀ fd ∈ t.allset, fd ≤ t.maxfd) ∧
      ∃ i, freeSlot t.client = some i := by
  obtain ⟨h,rfl⟩ := hrun.table hserve hin
  refine ⟨h.defined,h.allset,h.live,?_,h.le_maxi,h.maxi_lt,h.le_maxfd,?_⟩
  · intro i j hi hij
    have hj : t.client j ≠ -1 := by rwa [← hij]
    exact h.distinct hi hj hij
  · obtain ⟨i,hi,-⟩ := h.exists_slot
    exact ⟨i,hi⟩

/-- Two clients connect, the first one leaves and a third one gets its entry and its
descriptor. -/
theorem table_agrees_reused : ∃ t : State 3,
    Served 3 {0} 0 (fun _ => 0) t ∧ t.main = .head ∧ t.maxi = 1 ∧ t.maxfd = 2 ∧
      t.allset = insert 0 t.clients ∧ ∃ i, freeSlot t.client = some i := by
  obtain ⟨t,hrun,ht⟩ := exists_reachable (restrict (Usable 3) step) (start 3 {0} 0 fun _ => 0)
    [.ready {0} 1 (.data []),.ready {0} 1 (.data []),.ready {0} 1 (.data []),
      .ready {0} 2 (.data []),.ready {1} 1 (.data []),.ready {1} 1 (.data []),
      .ready {0} 1 (.data []),.ready {0} 1 (.data [])]
    (fun t => t.main = .head && t.maxi = 1 && t.maxfd = 2) (by decide +kernel)
  have hall := table_agrees (by decide) (by decide) hrun
  simp only [Bool.and_eq_true,decide_eq_true_eq] at ht
  exact ⟨t,hrun,ht.1.1,ht.1.2,ht.2,hall.2.1,hall.2.2.2.2.2.2.2⟩

end Runs

end SelectServer
end CPrograming
