import CPrograming.SelectServerTable

/-!
# The ready clients of `select_server.c`

`nready` counts the ready descriptors down, once for the listening socket and once for
each client read, and ends the scan when it is used up. Within an iteration it is the
number of ready clients that have not been read, and these lie ahead of the scan.
-/

namespace CPrograming
namespace SelectServer

open Runs Keys EchoServer

variable {size : ℕ}

/-- Each ready client was read at most once, and no other descriptor. -/
structure Orderly (serve : ℤ) (w : Selected) (es : List (Event Selected)) : Prop where
  nodup : (reads es).Nodup
  ready : ∀ fd ∈ reads es, fd ∈ w.rset ∧ fd ≠ serve
  fresh : ∀ fd, .accept fd ∈ es → fd ∉ w.rset

theorem Orderly.skip {serve : ℤ} {w : Selected} {es fs : List (Event Selected)}
    (h : Orderly serve w es) (hreads : reads fs = []) (haccept : ∀ fd, .accept fd ∉ fs) :
    Orderly serve w (es ++ fs) := by
  have hall : reads (es ++ fs) = reads es := by rw [reads_append,hreads,List.append_nil]
  refine ⟨?_,?_,?_⟩
  · rw [hall]
    exact h.nodup
  · rw [hall]
    exact h.ready
  · intro fd hfd
    exact h.fresh fd ((List.mem_append.mp hfd).resolve_right (haccept fd))

theorem Orderly.read {serve fd : ℤ} {w : Selected} {es fs : List (Event Selected)}
    (h : Orderly serve w es) (hreads : reads fs = [fd]) (haccept : ∀ fd, .accept fd ∉ fs)
    (hnew : fd ∉ reads es) (hready : fd ∈ w.rset ∧ fd ≠ serve) : Orderly serve w (es ++ fs) := by
  have hall : reads (es ++ fs) = reads es ++ [fd] := by rw [reads_append,hreads]
  refine ⟨?_,?_,?_⟩
  · rw [hall]
    exact h.nodup.append (List.nodup_singleton fd) (List.disjoint_singleton.mpr hnew)
  · rw [hall]
    intro x hx
    rcases List.mem_append.mp hx with hx | hx
    · exact h.ready x hx
    · rw [List.mem_singleton.mp hx]
      exact hready
  · intro x hx
    exact h.fresh x ((List.mem_append.mp hx).resolve_right (haccept x))

def unread (serve : ℤ) (w : Selected) (es : List (Event Selected)) : FdSet :=
  w.rset.erase serve \ (reads es).toFinset

@[simp] theorem mem_unread {serve fd : ℤ} {w : Selected} {es : List (Event Selected)} :
    fd ∈ unread serve w es ↔ (fd ≠ serve ∧ fd ∈ w.rset) ∧ fd ∉ reads es := by
  simp [unread]

structure Scanning (s : State size) (w : Selected) (es : List (Event Selected)) (i : ℕ) :
    Prop where
  orderly : Orderly s.serve w es
  rset : s.rset = w.rset
  count : s.nready = (unread s.serve w es).card
  ahead : ∀ fd ∈ unread s.serve w es, ∃ j : Fin size, i ≤ j ∧ s.client j ≠ -1 ∧ s.client j = fd
  behind : ∀ j : Fin size, i ≤ j → s.client j ≠ -1 → s.client j ∉ reads es

def Stage (s : State size) (w : Selected) (es : List (Event Selected)) : Prop :=
  match s.main with
  | .head => Orderly s.serve w es ∧ unread s.serve w es = ∅
  | .accepting =>
    s.rset = w.rset ∧ s.nready = w.rset.card ∧ s.serve ∈ w.rset ∧ w.rset ⊆ s.allset ∧
      reads es = [] ∧ ∀ fd, .accept fd ∉ es
  | .scan i => Scanning s w es i
  | .undefined => True

/-- What is known in an iteration whose `select` returned the size of its set. -/
def Progress (s : State size) : Prop :=
  ∀ w es, iteration s.log = some (w,es) → w.nready = w.rset.card → Stage s w es

namespace Scanning

variable {s t : State size} {w : Selected} {es fs : List (Event Selected)} {i : ℕ}

theorem finish (h : Scanning s w es i) (hzero : s.nready ≤ 0) : unread s.serve w es = ∅ := by
  have hcount := h.count
  exact Finset.card_eq_zero.mp (by omega)

theorem past (h : Scanning s w es i) (htable : Table s) (hi : s.maxi < i) :
    unread s.serve w es = ∅ := by
  apply Finset.eq_empty_of_forall_notMem
  intro fd hfd
  obtain ⟨j,hij,hj,-⟩ := h.ahead fd hfd
  have := htable.le_maxi j hj
  omega

/-- The scan begins: every ready descriptor other than the listening one is in the table. -/
theorem begin (hreads : reads es = []) (hfresh : ∀ fd, .accept fd ∈ es → fd ∉ w.rset)
    (hrset : s.rset = w.rset) (hcount : s.nready = (w.rset.erase s.serve).card)
    (hclients : ∀ fd ∈ w.rset, fd ≠ s.serve → ∃ j, s.client j ≠ -1 ∧ s.client j = fd) :
    Scanning s w es 0 := by
  have hunread : unread s.serve w es = w.rset.erase s.serve := by simp [unread,hreads]
  refine ⟨⟨by simp [hreads],by simp [hreads],hfresh⟩,hrset,by rw [hunread,hcount],?_,?_⟩
  · intro fd hfd
    obtain ⟨⟨hne,hmem⟩,-⟩ := mem_unread.mp hfd
    obtain ⟨j,hj⟩ := hclients fd hmem hne
    exact ⟨j,Nat.zero_le _,hj⟩
  · intro j _ _
    simp [hreads]

theorem skip {j : Fin size} (h : Scanning s w es j)
    (hidle : s.client j = -1 ∨ s.client j ∉ s.rset) (hserve : t.serve = s.serve)
    (hrset : t.rset = s.rset) (hnready : t.nready = s.nready) (hclient : t.client = s.client)
    (hreads : reads fs = []) (haccept : ∀ fd, .accept fd ∉ fs) :
    Scanning t w (es ++ fs) (j+1) := by
  have hall : reads (es ++ fs) = reads es := by rw [reads_append,hreads,List.append_nil]
  have hunread : unread t.serve w (es ++ fs) = unread s.serve w es := by
    simp only [unread,hall,hserve]
  refine ⟨?_,hrset.trans h.rset,?_,?_,?_⟩
  · rw [hserve]
    exact h.orderly.skip hreads haccept
  · rw [hunread,hnready]
    exact h.count
  · rw [hunread,hclient]
    intro fd hfd
    obtain ⟨k,hjk,hk,hkfd⟩ := h.ahead fd hfd
    refine ⟨k,?_,hk,hkfd⟩
    have hkj : k ≠ j := by
      rintro rfl
      rcases hidle with hfree | hidle
      · exact hk hfree
      · rw [hkfd,h.rset] at hidle
        exact hidle (mem_unread.mp hfd).1.2
    omega
  · rw [hall,hclient]
    intro k hk
    exact h.behind k (by omega)

/-- A ready entry is read, and the rest of the table is not touched. -/
theorem read {j : Fin size} (h : Scanning s w es j) (htable : Table s) (hfd : s.client j ≠ -1)
    (hready : s.client j ∈ s.rset) (hserve : t.serve = s.serve) (hrset : t.rset = s.rset)
    (hnready : t.nready = s.nready-1) (hclient : ∀ k, k ≠ j → t.client k = s.client k)
    (hreads : reads fs = [s.client j]) (haccept : ∀ fd, .accept fd ∉ fs) :
    Scanning t w (es ++ fs) (j+1) := by
  have hall : reads (es ++ fs) = reads es ++ [s.client j] := by rw [reads_append,hreads]
  have hnew : s.client j ∉ reads es := h.behind j le_rfl hfd
  have hmem : s.client j ∈ unread s.serve w es := by
    rw [mem_unread,← h.rset]
    exact ⟨⟨htable.ne_serve hfd,hready⟩,hnew⟩
  have hunread : unread t.serve w (es ++ fs) = (unread s.serve w es).erase (s.client j) := by
    ext fd
    simp only [mem_unread,hall,hserve,Finset.mem_erase,List.mem_append,List.mem_singleton,not_or]
    tauto
  refine ⟨?_,hrset.trans h.rset,?_,?_,?_⟩
  · rw [hserve]
    exact h.orderly.read hreads haccept hnew ⟨h.rset ▸ hready,htable.ne_serve hfd⟩
  · have hcard := Finset.card_erase_add_one hmem
    have hcount := h.count
    rw [hunread]
    omega
  · rw [hunread]
    intro fd hmem
    obtain ⟨hne,hmem⟩ := Finset.mem_erase.mp hmem
    obtain ⟨k,hjk,hk,rfl⟩ := h.ahead fd hmem
    have hkj : k ≠ j := by
      rintro rfl
      exact hne rfl
    have hlt : (j : ℕ)+1 ≤ k := by omega
    exact ⟨k,hlt,by rwa [hclient k hkj],hclient k hkj⟩
  · intro k hk hkfd
    have hkj : k ≠ j := by
      rintro rfl
      omega
    rw [hclient k hkj] at hkfd ⊢
    rw [hall,List.mem_append,List.mem_singleton,not_or]
    exact ⟨h.behind k (by omega) hkfd,fun he => hkj (htable.distinct hkfd hfd he)⟩

theorem next (h : Scanning t w es i)
    (hmain : t.main = if t.nready ≤ 0 then .head else .scan i) : Stage t w es := by
  simp only [Stage,hmain]
  split_ifs with hzero
  · exact ⟨h.orderly,h.finish hzero⟩
  · exact h

end Scanning

namespace Progress

variable {s t : State size}

theorem wait (htable : Table s) (a : SelectAnswer) : Progress (s.wait a) := by
  intro w es hit hcard
  have hlast : iteration (s.wait a).log = some (⟨(s.wait a).rset,(s.wait a).nready⟩,
      [.print "nready = %d\n" [.int (s.wait a).nready]]) := by
    simp [State.wait,iteration,since,Event.waited]
  rw [hlast] at hit
  obtain ⟨rfl,rfl⟩ := Prod.mk.inj (Option.some.inj hit)
  have hsub : (s.wait a).rset ⊆ s.allset := SelectAnswer.rset_subset s.allset _
  have hmain : (s.wait a).main =
      if s.serve ∈ (s.wait a).rset then .accepting else .scan 0 := rfl
  simp only [Stage,hmain]
  split_ifs with hserve
  · exact ⟨trivial,hcard,hserve,hsub,rfl,by simp⟩
  · refine Scanning.begin rfl (by simp) rfl ?_ ?_
    · have herase := Finset.erase_eq_of_notMem hserve
      exact hcard.trans (congrArg (fun x : FdSet => (x.card : ℤ)) herase.symm)
    · intro fd hfd hne
      have hmem := hsub hfd
      rw [htable.allset,Finset.mem_insert,mem_clients] at hmem
      exact hmem.resolve_left hne

theorem accept {fd : ℤ} (h : Progress s) (htable : Table s) (hmain : s.main = .accepting)
    (hin : inSet size fd) (hnew : fd ∉ s.opened) : Progress (s.accept fd) := by
  obtain ⟨i,hslot,hfree⟩ := htable.exists_slot
  simp only [State.accept,hslot,Option.elim_some,if_pos hin]
  intro w es hit hcard
  obtain ⟨es,hold,rfl⟩ := iteration_append (by simp [Event.waited]) hit
  have hstage := h w es hold hcard
  simp only [Stage,hmain] at hstage
  obtain ⟨hrset,hnready,hserve,hsub,hreads,haccept⟩ := hstage
  have hfresh : fd ∉ w.rset := by
    intro hfd
    have hmem := hsub hfd
    rw [htable.allset,htable.live,Finset.mem_insert] at hmem
    apply hnew
    rcases hmem with rfl | hmem
    · rw [State.opened,htable.apart.opened]
      exact Finset.mem_union_left _ htable.serve
    · exact htable.apart.mem_opened hmem
  refine Scanning.next (i := 0) ?_ rfl
  refine Scanning.begin ?_ ?_ hrset ?_ ?_
  · rw [reads_append,hreads]
    rfl
  · intro x hx
    rcases List.mem_append.mp hx with hx | hx
    · exact absurd hx (haccept x)
    · simp only [List.mem_cons,List.not_mem_nil,or_false,reduceCtorEq,false_or,
        Event.accept.injEq] at hx
      rwa [hx]
  · have hcount := Finset.card_erase_add_one hserve
    simp only [hnready]
    omega
  · intro x hx hne
    have hmem := hsub hx
    rw [htable.allset,Finset.mem_insert,mem_clients] at hmem
    obtain ⟨j,hj,hjx⟩ := hmem.resolve_left hne
    have hji : j ≠ i := by
      rintro rfl
      exact hj hfree
    exact ⟨j,by simpa only [Function.update_of_ne hji] using ⟨hj,hjx⟩⟩

theorem visit {i : Fin size} {a : Answers} (h : Progress s) (htable : Table s)
    (hmain : s.main = .scan i) (ht : Visit s i a t) : Progress t := by
  intro w es hit hcard
  have hstage (es : List (Event Selected)) (hold : iteration s.log = some (w,es)) :
      Scanning s w es i := by
    simpa only [Stage,hmain] using h w es hold hcard
  cases ht with
  | free hfree =>
    have hskip := (hstage es hit).skip (t := { s with main := .scan (i+1) }) (Or.inl hfree) rfl rfl
      rfl rfl (rfl : reads [] = []) (by simp)
    rwa [List.append_nil] at hskip
  | outside hfd hout => trivial
  | idle hfd hidle =>
    obtain ⟨es,hold,rfl⟩ := iteration_append (by simp [Event.waited]) hit
    exact (hstage es hold).skip (Or.inr hidle) rfl rfl rfl rfl rfl (by simp)
  | closed got hfd hready heof =>
    obtain ⟨es,hold,rfl⟩ := iteration_append (by simp [Event.waited]) hit
    refine Scanning.next (i := i+1) ?_ rfl
    refine (hstage es hold).read htable hfd hready rfl rfl rfl ?_ rfl (by simp)
    intro k hk
    exact Function.update_of_ne hk _ _
  | echoed got sent ret buffer hfd hready hsent =>
    obtain ⟨es,hold,rfl⟩ := iteration_append (by simp [Event.waited]) hit
    refine Scanning.next (i := i+1) ?_ rfl
    exact (hstage es hold).read htable hfd hready rfl rfl rfl (fun _ _ => rfl) rfl (by simp)

theorem step {a : Answers} (h : Progress s) (htable : Table s) (ha : Usable size s a)
    (hstep : SelectServer.step s a = some t) : Progress t := by
  cases step_cases hstep with
  | wait => exact .wait htable a.select
  | accept hmain hok => exact h.accept htable hmain ha (ha.not_mem hok)
  | visit i hmain hvisit => exact h.visit htable hmain hvisit
  | beyond =>
    intro w es _ _
    trivial
  | finish i hmain hpast =>
    intro w es hit hcard
    have hscan : Scanning s w es i := by simpa only [Stage,hmain] using h w es hit hcard
    exact ⟨hscan.orderly,hscan.past htable hpast⟩

end Progress

def Main.rank (size : ℕ) : Main → ℕ
  | .head => 0
  | .accepting => size+2
  | .scan i => size-i+1
  | .undefined => 0

theorem step_rank {s t : State size} {a : Answers} (hhead : s.main ≠ .head)
    (h : step s a = some t) : t.main.rank size < s.main.rank size := by
  cases step_cases h with
  | wait hmain => exact absurd hmain hhead
  | accept hmain =>
    simp only [State.accept,hmain]
    split_ifs <;> simp [Main.rank]
  | visit i hmain hvisit =>
    have hi := i.isLt
    rw [hmain]
    cases hvisit with
    | free | outside | idle =>
      simp only [Main.rank]
      omega
    | closed | echoed =>
      dsimp only
      split_ifs <;> simp only [Main.rank] <;> omega
  | beyond i hmain | finish i hmain => simp [hmain,Main.rank]

section Runs

variable {base : FdSet} {serve : ℤ} {buffer : Memory UInt8} {t : State size}

theorem Served.progress (hserve : serve ∈ base) (hin : inSet size serve)
    (hrun : Served size base serve buffer t) : Progress t := by
  have h : Table t ∧ Progress t := by
    refine hrun.invariant (I := fun x => Table x ∧ Progress x)
      ⟨Table.start buffer hserve hin,fun w es hit => by simp [start,iteration,since] at hit⟩ ?_
    rintro a x y ⟨htable,hx⟩ hxy
    obtain ⟨ha,hstep⟩ := restrict_eq_some.mp hxy
    exact ⟨htable.step ha hstep,hx.step htable ha hstep⟩
  exact h.2

theorem Orderly.of_stage {w : Selected} {es : List (Event Selected)} (h : Stage t w es)
    (hmain : t.main ≠ .undefined) : Orderly t.serve w es := by
  simp only [Stage] at h
  split at h
  · exact h.1
  · obtain ⟨-,-,-,-,hreads,haccept⟩ := h
    exact ⟨by simp [hreads],by simp [hreads],fun fd hfd => absurd hfd (haccept fd)⟩
  · exact h.orderly
  · contradiction

/-- In every iteration whose `select` returns the size of its set, no descriptor is read
twice, only ready clients are read, a connection accepted in it is not read, and at the
loop head every ready client has been read. The loop head is reached within `size+2`
steps, whatever the answers. -/
theorem ready_clients_read (hserve : serve ∈ base) (hin : inSet size serve)
    (hrun : Served size base serve buffer t) {w : Selected} {es : List (Event Selected)}
    (hit : iteration t.log = some (w,es)) (hcard : w.nready = w.rset.card) :
    ((reads es).Nodup ∧ (∀ fd ∈ reads es, fd ∈ w.rset ∧ fd ≠ serve) ∧
      (∀ fd, .accept fd ∈ es → fd ∉ reads es) ∧
      (t.main = .head → ∀ fd ∈ w.rset, fd ≠ serve → fd ∈ reads es)) ∧
    ∀ as u, exec (restrict (Usable size) step) t as = some u → size+2 ≤ as.length →
      ∃ k ≤ size+2, ∃ v, exec (restrict (Usable size) step) t (as.take k) = some v ∧
        v.main = .head := by
  obtain ⟨htable,rfl⟩ := hrun.table hserve hin
  have hstage := hrun.progress hserve hin w es hit hcard
  have horderly := Orderly.of_stage hstage htable.defined
  refine ⟨⟨horderly.nodup,horderly.ready,?_,?_⟩,?_⟩
  · intro fd hfd hread
    exact horderly.fresh fd hfd (horderly.ready fd hread).1
  · intro hmain fd hfd hne
    simp only [Stage,hmain] at hstage
    by_contra hread
    have hmem : fd ∈ unread t.serve w es := mem_unread.mpr ⟨⟨hne,hfd⟩,hread⟩
    rw [hstage.2] at hmem
    exact Finset.notMem_empty fd hmem
  · intro as u hu hlen
    have hle : t.main.rank size ≤ size+2 := by
      cases t.main <;> simp only [Main.rank] <;> omega
    have hrank (s : State size) (a : Answers) (v : State size) (hs : s.main.rank size ≠ 0)
        (hsv : restrict (Usable size) step s a = some v) : v.main.rank size < s.main.rank size := by
      obtain ⟨-,hstep⟩ := restrict_eq_some.mp hsv
      exact step_rank (fun hm => hs (by rw [hm]; rfl)) hstep
    obtain ⟨k,hk,v,hv,hzero⟩ := exec_rank (fun s => s.main.rank size) hrank hu (hle.trans hlen)
    have hdefined := (Served.table hserve hin (hrun.trans (reachable_of_exec hv))).1.defined
    refine ⟨k,hk.trans hle,v,hv,?_⟩
    cases hm : v.main with
    | head => rfl
    | accepting | scan i => simp [hm,Main.rank] at hzero
    | undefined => exact absurd hm hdefined

/-- Of two clients and a third one that connects, the two are read. -/
theorem ready_clients_read_two : ∃ (t : State 4) (w : Selected) (es : List (Event Selected)),
    iteration t.log = some (w,es) ∧ (w.rset = {0,1,2} ∧ w.nready = 3) ∧ t.main = .head ∧
      .accept 3 ∈ es ∧ (reads es).Nodup ∧ (∀ fd ∈ w.rset, fd ≠ 0 → fd ∈ reads es) ∧
      3 ∉ reads es := by
  obtain ⟨t,hrun,ht⟩ := exists_reachable (restrict (Usable 4) step) (start 4 {0} 0 fun _ => 0)
    [.ready {0} 1 (.data []),.ready {0} 1 (.data []),.ready {0} 1 (.data []),
      .ready {0} 2 (.data []),.ready {0,1,2} 3 (.data []),.ready {0,1,2} 3 (.data []),
      .ready {0,1,2} 3 (.data [7]),.ready {0,1,2} 3 (.data [])]
    (fun t => t.main = .head && (iteration t.log).any fun p =>
      p.1.rset = {0,1,2} && p.1.nready = 3 && p.2.contains (.accept 3)) (by decide +kernel)
  simp only [Bool.and_eq_true,decide_eq_true_eq,Option.any_eq_true,List.contains_iff_mem] at ht
  obtain ⟨hmain,⟨w,es⟩,hit,⟨hrset,hnready⟩,hmem⟩ := ht
  have hcard : w.nready = w.rset.card := by
    rw [hrset,hnready]
    rfl
  obtain ⟨⟨hnodup,-,haccept,hall⟩,-⟩ := ready_clients_read (by decide) (by decide) hrun hit hcard
  exact ⟨t,w,es,hit,⟨hrset,hnready⟩,hmain,hmem,hnodup,hall hmain,haccept 3 hmem⟩

end Runs

end SelectServer
end CPrograming
