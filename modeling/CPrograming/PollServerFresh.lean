import CPrograming.PollServer

/-!
# What `poll_server.c` reads

`poll` writes `revents` of the entries 0 to `maxi`. A new connection may be put into the
entry after these, and when other clients are ready that entry is scanned at once, with
the `revents` that the array happened to hold. As long as that does not happen, every
read is one that `poll` has asked for, and no run depends on what the array held.
-/

namespace CPrograming
namespace PollServer

open Runs EchoServer

variable {m : ℕ}

/-- The last `poll` was given the descriptor and has found something to read. -/
def Reported (log : List (Event Polled)) (fd : ℤ) : Prop :=
  ∃ (w : Polled) (es : List (Event Polled)) (i : ℕ) (revents : BitVec 16),
    iteration log = some (w,es) ∧ w.entries[i]? = some (fd,revents) ∧ revents &&& readable ≠ 0

def AllReported (log : List (Event Polled)) : Prop :=
  Always (fun pre e => ∀ fd got, e = .read fd got → Reported pre fd) log

def PollAnswer.isReady : PollAnswer → Bool
  | .ready _ => true
  | .fail => false

/-- `poll` writes its entries, and a connection that comes with other ready entries
finds a free entry among those `poll` was given, or none at all. -/
def Calm (s : State m) (a : Answers) : Prop :=
  (s.main = .head → a.poll.isReady) ∧
    (s.main = .accepting → 2 ≤ s.nready → s.maxi < m →
      ∃ j : Fin (m+1), 1 ≤ (j : ℕ) ∧ j ≤ s.maxi ∧ (s.client j).fd < 0)

instance calmDecidable (s : State m) (a : Answers) : Decidable (Calm s a) :=
  inferInstanceAs (Decidable (_ ∧ _))

theorem mem_polled {maxi : ℕ} {i : Fin (m+1)} (h : i ∈ polled m maxi) : i ≤ maxi := by
  obtain ⟨k,hk,rfl⟩ := List.mem_take_iff_getElem.mp h
  rw [List.getElem_finRange]
  exact Nat.le_of_lt_succ (hk.trans_le (min_le_left _ _))

theorem polled_getElem {maxi : ℕ} {i : Fin (m+1)} (h : i ≤ maxi) :
    (polled m maxi)[(i : ℕ)]? = some i := by
  rw [polled,List.getElem?_take_of_lt (Nat.lt_succ_of_le h)]
  exact List.getElem?_eq_some_iff.mpr ⟨by simp only [List.length_finRange,Fin.is_lt],by simp⟩

def Scanned (s : State m) (i : ℕ) : Prop :=
  ∃ w es, iteration s.log = some (w,es) ∧ ∀ j : Fin (m+1), i ≤ j → j ≤ s.maxi →
    (s.client j).revents &&& readable = 0 ∨
      w.entries[(j : ℕ)]? = some ((s.client j).fd,(s.client j).revents)

structure Fresh (s : State m) : Prop where
  above : ∀ j : Fin (m+1), s.maxi < j → (s.client j).fd < 0
  accepting : s.main = .accepting → Scanned s 0 ∧
    ∀ j : Fin (m+1), j ≤ s.maxi → (s.client j).fd < 0 → (s.client j).revents = 0
  scanning : ∀ i, s.main = .scan i → Scanned s i
  log : AllReported s.log

section Steps

variable {s t : State m} {i : Fin (m+1)} {log es : List (Event Polled)}

theorem AllReported.append (h : AllReported log) (hes : ∀ fd got, .read fd got ∉ es) :
    AllReported (log ++ es) := by
  refine (always_append _ _ _).mpr ⟨h,?_⟩
  rintro pre e post rfl fd got rfl
  exact absurd (by simp) (hes fd got)

theorem AllReported.read {fd : ℤ} {got : ReadAnswer} {e e' : Event Polled} (h : AllReported log)
    (hreported : Reported (log ++ [e]) fd) (he : ∀ fd got, e ≠ .read fd got)
    (he' : ∀ fd got, e' ≠ .read fd got) : AllReported (log ++ [e,.read fd got,e']) := by
  refine (always_append _ _ _).mpr ⟨h,?_⟩
  simp only [always_cons,always_nil,and_true]
  refine ⟨fun fd got heq => absurd heq (he fd got),?_,fun fd got heq => absurd heq (he' fd got)⟩
  intro fd' got' heq
  obtain ⟨rfl,-⟩ := Event.read.inj heq
  exact hreported

theorem Scanned.next (h : Scanned s i) (hlog : t.log = s.log ++ es)
    (hes : ∀ e ∈ es, e.waited = none) (hmaxi : t.maxi = s.maxi)
    (hclient : ∀ j, j ≠ i → t.client j = s.client j) : Scanned t (i+1) := by
  obtain ⟨w,fs,hit,hall⟩ := h
  refine ⟨w,fs ++ es,hlog ▸ iteration_extend hes hit,?_⟩
  intro j hij hj
  have hne : j ≠ i := by
    rintro rfl
    omega
  rw [hclient j hne]
  exact hall j (by omega) (hmaxi ▸ hj)

theorem Scanned.reported (h : Scanned s i) (hle : i ≤ s.maxi)
    (hready : (s.client i).revents &&& readable ≠ 0) :
    Reported (s.log ++ [s.report i]) (s.client i).fd := by
  obtain ⟨w,es,hit,hall⟩ := h
  have hnow : iteration (s.log ++ [s.report i]) = some (w,es ++ [s.report i]) :=
    iteration_extend (by simp [State.report,Event.waited]) hit
  exact ⟨w,_,i,_,hnow,(hall i le_rfl hle).resolve_left hready,hready⟩

/-- The connection finds an entry that `poll` was given, unless the scan is left out. -/
theorem Calm.slot_le {a : Answers} (h : Calm s a) (hmain : s.main = .accepting)
    (hslot : freeSlot s.client = some i) (hready : 2 ≤ s.nready) : i ≤ s.maxi := by
  by_cases hm : s.maxi < m
  · obtain ⟨j,hj,hle,hfree⟩ := h.2 hmain hready hm
    have hne : j ≠ 0 := by
      rintro rfl
      exact absurd hj (Nat.not_succ_le_zero 0)
    have hij := freeSlot_le hslot hne hfree
    omega
  · omega

end Steps

namespace Fresh

variable {s t : State m} {i : Fin (m+1)}

theorem start (base : FdSet) (listenfd : ℤ) (garbage : Fin (m+1) → PollFd)
    (buffer : Memory UInt8) : Fresh (start base listenfd garbage buffer) := by
  refine ⟨?_,?_,?_,always_nil _⟩
  · intro j hj
    have hne : j ≠ 0 := by
      rintro rfl
      exact absurd hj (Nat.lt_irrefl 0)
    simp [PollServer.start,hne]
  · intro hmain
    cases hmain
  · intro i hmain
    cases hmain

theorem wait {a : PollAnswer} (h : Fresh s) (ha : a.isReady) : Fresh (s.wait a) := by
  have hscanned : Scanned (s.wait a) 0 := by
    refine ⟨_,_,iteration_wait s.log _ (by simp [Event.waited]),?_⟩
    intro j _ (hj : j ≤ s.maxi)
    right
    rw [List.getElem?_map,polled_getElem hj]
    rfl
  refine ⟨?_,?_,?_,?_⟩
  · intro j hj
    exact (s.answered_fd a j).trans_lt (h.above j hj)
  · intro _
    refine ⟨hscanned,?_⟩
    cases a with
    | fail => cases ha
    | ready revents =>
      intro j (hj : j ≤ s.maxi) hneg
      simp only [State.wait,State.answered,if_pos hj,PollFd.answered] at hneg ⊢
      exact if_pos hneg
  · intro i hmain
    obtain ⟨w,es,hit,hall⟩ := hscanned
    exact ⟨w,es,hit,fun j _ => hall j (Nat.zero_le _)⟩
  · refine (always_append _ _ _).mpr ⟨h.log,?_⟩
    simp

theorem accept {a : Answers} {fd : ℤ} (h : Fresh s) (hcalm : Calm s a)
    (hmain : s.main = .accepting) : Fresh (s.accept fd) := by
  cases hslot : freeSlot s.client with
  | none =>
    simp only [State.accept,hslot]
    exact ⟨h.above,by simp,by simp,h.log.append (by simp)⟩
  | some i =>
    simp only [State.accept,hslot]
    refine ⟨?_,?_,?_,h.log.append (by simp)⟩
    · intro j hj
      obtain ⟨hold,hji⟩ := max_lt_iff.mp hj
      have hne : j ≠ i := by
        rintro rfl
        exact absurd hji (lt_irrefl _)
      simp only [Function.update_of_ne hne]
      exact h.above j hold
    · dsimp only
      split_ifs <;> simp
    · intro k hk
      dsimp only at hk
      split_ifs at hk with hzero
      cases hk
      have hle := hcalm.slot_le hmain hslot (by omega)
      have hneg := (freeSlot_free hslot).2
      obtain ⟨⟨w,es,hit,hset⟩,hfree⟩ := h.accepting hmain
      refine ⟨w,es ++ [.accept fd],iteration_extend (by simp [Event.waited]) hit,?_⟩
      intro j _ hj
      rw [max_eq_left hle] at hj
      by_cases hji : j = i
      · subst j
        left
        simp [hfree i hle hneg]
      · simp only [Function.update_of_ne hji]
        exact hset j (Nat.zero_le _) hj

theorem visit (h : Fresh s) (hmain : s.main = .scan i) (hle : i ≤ s.maxi)
    (ht : Visited s i t) : Fresh t := by
  have hscanned := h.scanning i hmain
  have habove : ∀ j : Fin (m+1), t.maxi < j → (t.client j).fd < 0 := by
    intro j hj
    rw [ht.maxi] at hj
    have hne : j ≠ i := by
      rintro rfl
      omega
    rw [ht.client j hne]
    exact h.above j hj
  have hnext : Scanned t (i+1) ∧ AllReported t.log := by
    rcases ht.log with hlog | ⟨hready,got,e,hread,hwait,hlog⟩
    · refine ⟨hscanned.next hlog (by simp [State.report,Event.waited]) ht.maxi ht.client,?_⟩
      rw [hlog]
      exact h.log.append (by simp [State.report])
    · have hes : ∀ x ∈ [s.report i,.read (s.client i).fd got,e], x.waited = none := by
        simp only [List.forall_mem_cons]
        exact ⟨rfl,rfl,hwait,by simp⟩
      refine ⟨hscanned.next hlog hes ht.maxi ht.client,?_⟩
      rw [hlog]
      exact h.log.read (hscanned.reported hle hready) (by simp [State.report]) hread
  refine ⟨habove,by simp [ht.main],?_,hnext.2⟩
  intro k hk
  rw [ht.main] at hk
  cases hk
  exact hnext.1

theorem step {a : Answers} (h : Fresh s) (hcalm : Calm s a)
    (hstep : PollServer.step s a = some t) : Fresh t := by
  cases step_cases hstep with
  | wait hmain => exact h.wait (hcalm.1 hmain)
  | accept hmain => exact h.accept hcalm hmain
  | visit i hmain hle hvisit => exact h.visit hmain hle (visit_cases hvisit).visited
  | beyond | finish => exact ⟨h.above,by simp,by simp,h.log⟩

end Fresh

def State.over (s : State m) (c : Fin (m+1) → PollFd) : State m := { s with client := c }

/-- The array `c` agrees with the one of the state as far as the loop looks: before `poll`
writes it, `revents` is not looked at. -/
structure Agree (s : State m) (c : Fin (m+1) → PollFd) : Prop where
  fd : ∀ j, (c j).fd = (s.client j).fd
  events : ∀ j : Fin (m+1), j ≤ s.maxi → (c j).events = (s.client j).events
  revents : s.main ≠ .head → ∀ j : Fin (m+1), j ≤ s.maxi →
    (c j).revents = (s.client j).revents

namespace Agree

variable {s t : State m} {c : Fin (m+1) → PollFd} {i : Fin (m+1)}

theorem entry (h : Agree s c) (hmain : s.main ≠ .head) (hi : i ≤ s.maxi) : c i = s.client i :=
  PollFd.ext (h.fd i) (h.events i hi) (h.revents hmain i hi)

theorem wait {a : PollAnswer} (h : Agree s c) (ha : a.isReady) :
    ∃ c', (s.over c).wait a = (s.wait a).over c' ∧ Agree (s.wait a) c' := by
  cases a with
  | fail => cases ha
  | ready revents =>
    have hsame : ∀ j : Fin (m+1), j ≤ s.maxi →
        (s.over c).answered (.ready revents) j = s.answered (.ready revents) j := by
      intro j hj
      simp only [State.answered,State.over,if_pos hj,PollFd.answered,h.fd j,h.events j hj]
    have hcount : ((polled m s.maxi).countP fun i =>
          ((s.over c).answered (.ready revents) i).revents ≠ 0) =
        (polled m s.maxi).countP fun i => (s.answered (.ready revents) i).revents ≠ 0 := by
      refine List.countP_congr fun j hj => ?_
      rw [hsame j (mem_polled hj)]
    have hentries : ((polled m s.maxi).map fun i =>
          (((s.over c).answered (.ready revents) i).fd,
            ((s.over c).answered (.ready revents) i).revents)) =
        (polled m s.maxi).map fun i =>
          ((s.answered (.ready revents) i).fd,(s.answered (.ready revents) i).revents) := by
      refine List.map_congr_left fun j hj => ?_
      rw [hsame j (mem_polled hj)]
    refine ⟨(s.over c).answered (.ready revents),?_,?_,?_,?_⟩
    · have hzero := hsame 0 (Nat.zero_le _)
      have hmaxi : (s.over c).maxi = s.maxi := rfl
      simp only [State.wait,hmaxi,hcount,hentries,hzero]
      rfl
    · intro j
      exact ((s.over c).answered_fd _ j).trans ((h.fd j).trans (s.answered_fd _ j).symm)
    · intro j hj
      exact congrArg PollFd.events (hsame j hj)
    · intro _ j hj
      exact congrArg PollFd.revents (hsame j hj)

theorem accept {a : Answers} (h : Agree s c) (hfresh : Fresh s) (hcalm : Calm s a)
    (hmain : s.main = .accepting) (fd : ℤ) :
    ∃ c', (s.over c).accept fd = (s.accept fd).over c' ∧ Agree (s.accept fd) c' := by
  have hsearch : freeSlot c = freeSlot s.client := by
    simp only [freeSlot,h.fd]
  have hhead : s.main ≠ .head := by simp [hmain]
  cases hslot : freeSlot s.client with
  | none =>
    rw [hslot] at hsearch
    refine ⟨c,by simp [State.accept,State.over,hsearch,hslot],?_⟩
    simp only [State.accept,hslot]
    exact ⟨h.fd,h.events,by simp⟩
  | some i =>
    rw [hslot] at hsearch
    refine ⟨Function.update c i { c i with fd := fd, events := pollrdnorm },
      by simp [State.accept,State.over,hsearch,hslot],?_⟩
    have hbelow : ∀ j : Fin (m+1), j ≤ max s.maxi i → j ≠ i → j ≤ s.maxi := by
      intro j hj hji
      by_contra hlt
      have hne : j ≠ 0 := by
        rintro rfl
        exact hlt (Nat.zero_le _)
      have hij := freeSlot_le hslot hne (hfresh.above j (by omega))
      omega
    simp only [State.accept,hslot]
    refine ⟨?_,?_,?_⟩
    · intro j
      by_cases hji : j = i
      · subst j
        simp
      · simpa only [Function.update_of_ne hji] using h.fd j
    · intro j hj
      by_cases hji : j = i
      · subst j
        simp
      · simpa only [Function.update_of_ne hji] using h.events j (hbelow j hj hji)
    · intro hscan j hj
      by_cases hji : j = i
      · subst j
        have hready : 2 ≤ s.nready := by
          by_contra hlt
          exact hscan (if_pos (by omega))
        simpa using h.revents hhead i (hcalm.slot_le hmain hslot hready)
      · simpa only [Function.update_of_ne hji] using h.revents hhead j (hbelow j hj hji)

end Agree

section Visits

variable {s t : State m} {c : Fin (m+1) → PollFd} {i : Fin (m+1)} {a : Answers}

theorem readClient_over (hi : c i = s.client i) (h : s.readClient i a = some t) :
    (s.over c).readClient i a = some (t.over (Function.update c i (t.client i))) := by
  have hopened : (s.over c).opened = s.opened := rfl
  have hentry : (s.over c).client i = s.client i := hi
  have hkeep : Function.update c i (s.client i) = c := by rw [← hi,Function.update_eq_self]
  simp only [State.readClient,hopened,hentry] at h ⊢
  split at h
  · split_ifs at h with hreset
    · cases h
      simp [State.over,hreset,release,hi]
    · cases h
      simp [State.over,hreset,hkeep]
  · cases h
    simp [State.over,release,hi]
  · obtain ⟨ret,hret,rfl⟩ := Option.map_eq_some_iff.mp h
    simp only [hret,Option.map_some,State.over,hkeep]

/-- A visit looks at its own entry only, and changes no other. -/
theorem visit_over (hi : c i = s.client i) (h : s.visit i a = some t) :
    (s.over c).visit i a = some (t.over (Function.update c i (t.client i))) := by
  have hkeep : Function.update c i (s.client i) = c := by rw [← hi,Function.update_eq_self]
  have hprinted : (s.over c).printed i = (s.printed i).over c := by
    simp only [State.printed,State.report,State.over,hi]
  have hentry : (s.over c).client i = s.client i := hi
  simp only [State.visit,hprinted,hentry] at h ⊢
  split_ifs at h ⊢ with hready
  · exact readClient_over hi h
  · cases h
    rw [State.over,State.printed,hkeep]
    rfl

end Visits

theorem Agree.visit {s t : State m} {c : Fin (m+1) → PollFd} {i : Fin (m+1)} {a : Answers}
    (h : Agree s c) (hmain : s.main = .scan i) (hle : i ≤ s.maxi) (ht : s.visit i a = some t) :
    ∃ c', (s.over c).visit i a = some (t.over c') ∧ Agree t c' := by
  have hhead : s.main ≠ .head := by simp [hmain]
  refine ⟨_,visit_over (h.entry hhead hle) ht,?_⟩
  have hvisited := (visit_cases ht).visited
  have hsame : ∀ j : Fin (m+1), j ≤ s.maxi → Function.update c i (t.client i) j = t.client j := by
    intro j hj
    by_cases hji : j = i
    · subst j
      exact Function.update_self _ _ _
    · rw [Function.update_of_ne hji,hvisited.client j hji]
      exact h.entry hhead hj
  refine ⟨?_,?_,?_⟩
  · intro j
    by_cases hji : j = i
    · subst j
      rw [Function.update_self]
    · rw [Function.update_of_ne hji,hvisited.client j hji]
      exact h.fd j
  · intro j hj
    rw [hsame j (hvisited.maxi ▸ hj)]
  · intro _ j hj
    rw [hsame j (hvisited.maxi ▸ hj)]

/-- The loop takes the same step on either array. -/
theorem Agree.step {s t : State m} {c : Fin (m+1) → PollFd} {a : Answers} (h : Agree s c)
    (hfresh : Fresh s) (hcalm : Calm s a) (hstep : PollServer.step s a = some t) :
    ∃ c', PollServer.step (s.over c) a = some (t.over c') ∧ Agree t c' := by
  have hmaxi : (s.over c).maxi = s.maxi := rfl
  have hmain' : (s.over c).main = s.main := rfl
  cases step_cases hstep with
  | wait hmain =>
    obtain ⟨c',hc',hagree⟩ := h.wait (hcalm.1 hmain)
    refine ⟨c',?_,hagree⟩
    simp only [PollServer.step,hmain',hmain,hc']
  | accept hmain hok =>
    have hok' : acceptable (s.over c).opened a.accept := hok
    obtain ⟨c',hc',hagree⟩ := h.accept hfresh hcalm hmain a.accept
    refine ⟨c',?_,hagree⟩
    simp only [PollServer.step,hmain',hmain,if_pos hok',hc']
  | visit i hmain hle hvisit =>
    obtain ⟨c',hc',hagree⟩ := h.visit hmain hle hvisit
    refine ⟨c',?_,hagree⟩
    simp only [PollServer.step,hmain',hmain,hmaxi,if_pos hle,dif_pos i.isLt,hc']
  | beyond i hmain hle hout =>
    have hlt : ¬ i < m+1 := by omega
    refine ⟨c,?_,h.fd,h.events,fun _ => h.revents (by simp [hmain])⟩
    simp only [PollServer.step,hmain',hmain,hmaxi,if_pos hle,dif_neg hlt]
    rfl
  | finish i hmain hpast =>
    refine ⟨c,?_,h.fd,h.events,fun hne => absurd rfl hne⟩
    simp only [PollServer.step,hmain',hmain,hmaxi,if_neg (not_le.mpr hpast)]
    rfl

section Runs

variable {base : FdSet} {listenfd : ℤ} {garbage : Fin (m+1) → PollFd} {buffer : Memory UInt8}
  {as : List Answers} {t : State m}

/-- In every run in which `poll` writes its entries and no connection is put into the
entry after them while other entries are ready, every read is of a descriptor that the
`poll` of the same iteration was given and found readable, and the same answers give
the same calls whatever the array held at the start. -/
theorem reads_reported (hrun : exec (restrict Calm step) (start base listenfd garbage buffer) as =
      some t) :
    AllReported t.log ∧ ∀ garbage' : Fin (m+1) → PollFd,
      ∃ t', exec step (start base listenfd garbage' buffer) as = some t' ∧ t'.log = t.log ∧
        t'.main = t.main := by
  constructor
  · have hfresh : Fresh t := by
      refine (reachable_of_exec hrun).invariant (Fresh.start base listenfd garbage buffer) ?_
      intro a x y hx hxy
      obtain ⟨hcalm,hstep⟩ := restrict_eq_some.mp hxy
      exact hx.step hcalm hstep
    exact hfresh.log
  · intro garbage'
    have hstart : Agree (start base listenfd garbage buffer)
        (start base listenfd garbage' buffer).client := by
      refine ⟨?_,?_,fun hne => absurd rfl hne⟩
      · intro j
        simp only [start]
        split_ifs <;> rfl
      · intro j hj
        obtain rfl : j = 0 := Fin.val_eq_zero_iff.mp (Nat.le_zero.mp hj)
        rfl
    have hsim : ∀ (x x' : State m) (a : Answers) (y : State m),
        (Fresh x ∧ ∃ c, x' = x.over c ∧ Agree x c) → restrict Calm step x a = some y →
          ∃ y', step x' a = some y' ∧ Fresh y ∧ ∃ c, y' = y.over c ∧ Agree y c := by
      rintro x _ a y ⟨hx,c,rfl,hagree⟩ hxy
      obtain ⟨hcalm,hstep⟩ := restrict_eq_some.mp hxy
      obtain ⟨c',hc',hagree'⟩ := hagree.step hx hcalm hstep
      exact ⟨_,hc',hx.step hcalm hstep,c',rfl,hagree'⟩
    obtain ⟨t',ht',-,c,rfl,-⟩ := exec_simulation hsim
      ⟨Fresh.start base listenfd garbage buffer,_,rfl,hstart⟩ hrun
    exact ⟨_,ht',rfl,rfl⟩

/-- Both connections come alone, and the array may hold what it likes. -/
theorem reads_reported_alone : ∃ t : State 2,
    exec (restrict Calm step) (start {3} 3 (fun _ => ⟨0,0,pollrdnorm⟩) fun _ => 0)
      [.ready [0] 4 (.data []) false,.ready [0] 4 (.data []) false,
        .ready [0] 5 (.data []) false,.ready [0] 5 (.data []) false,
        .ready [1] 0 (.data []) false,.ready [1] 0 (.data [7]) false,
        .ready [] 0 (.data []) false] = some t ∧ AllReported t.log ∧ reads t.log = [4] := by
  have h : ((exec (restrict Calm step) (start {3} 3 (fun _ => ⟨0,0,pollrdnorm⟩) (fun _ => 0) :
      State 2) [.ready [0] 4 (.data []) false,.ready [0] 4 (.data []) false,
        .ready [0] 5 (.data []) false,.ready [0] 5 (.data []) false,
        .ready [1] 0 (.data []) false,.ready [1] 0 (.data [7]) false,
        .ready [] 0 (.data []) false]).map fun t => reads t.log) = some [4] := by decide +kernel
  obtain ⟨t,ht,hreads⟩ := Option.map_eq_some_iff.mp h
  exact ⟨t,ht,(reads_reported ht).1,hreads⟩

/-- Two runs with the same answers: the second connection comes while the first client is
ready. Where the array held `POLLRDNORM` the server reads from the new connection, which
`poll` was not given; where it held 0 it does not. -/
theorem reads_unreported :
    let answers : List Answers := [.ready [0] 4 (.data []) false,.ready [0] 4 (.data []) false,
      .ready [0,1] 5 (.data []) false,.ready [0,1] 5 (.data []) false,
      .ready [] 0 (.data [7]) false,.ready [] 0 (.data [8]) false]
    ((exec step (start {3} 3 (fun _ => ⟨0,0,pollrdnorm⟩) (fun _ => 0) : State 2) answers).map
      fun t => (reads t.log,(iteration t.log).map fun p => p.1.entries.map Prod.fst)) =
        some ([4,5],some [3,4]) ∧
    ((exec step (start {3} 3 (fun _ => ⟨0,0,0⟩) (fun _ => 0) : State 2) answers).map
      fun t => reads t.log) = some [4] := by
  decide +kernel

end Runs

end PollServer
end CPrograming
