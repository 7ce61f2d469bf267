import CPrograming.ThreadServer

/-!
# The descriptors of `thread_server.c`

A cell belongs to one pass of `main` from `malloc` to `free`, and a descriptor from `accept` to
`close`, whichever threads run in between. Each event of a pass is legal because of what the
pass has, and a legal event of one pass takes nothing from another.
-/

namespace CPrograming
namespace ThreadServer

open Runs

section Ownership

theorem lastCell_snoc (q : ℕ) (log : List Event) (e : Event) :
    lastCell q (log ++ [e]) = if e.touches q then some e else lastCell q log :=
  lastOf_snoc _ log e

theorem lastFd_snoc (v : ℤ) (log : List Event) (e : Event) :
    lastFd v (log ++ [e]) = if e.moves v then some e else lastFd v log :=
  lastOf_snoc _ log e

variable {n j p : ℕ} {v : ℤ} {log : List Event} {e : Event}

/-- No event of another pass touches the cell of a pass that has not freed it. -/
theorem Legal.not_touches {x : Event} (hlegal : Legal log e) (hpass : e.pass ≠ j)
    (hlast : lastCell p log = some x) (hx : x.pass = j) (hfree : ∀ i, x ≠ .free i p) :
    e.touches p = false := by
  by_contra htouches
  simp only [Bool.not_eq_false] at htouches
  cases e with
  | malloc k q =>
    obtain rfl : q = p := by simpa [Event.touches] using htouches
    obtain ⟨i,hi⟩ := hlegal x hlast
    exact hfree i hi
  | accept k q w =>
    obtain rfl : q = p := by simpa [Event.touches] using htouches
    obtain rfl : Event.malloc k q = x := Option.some.inj (hlegal.1.symm.trans hlast)
    exact hpass hx
  | free k q =>
    obtain rfl : q = p := by simpa [Event.touches] using htouches
    obtain ⟨w,hw⟩ := hlegal
    obtain rfl : Event.accept k q w = x := Option.some.inj (hw.symm.trans hlast)
    exact hpass hx
  | create | load | serve | close => simp [Event.touches] at htouches

/-- No event of another pass opens or closes the descriptor of a pass that has not closed it. -/
theorem Legal.not_moves (hlegal : Legal log e) (hpass : e.pass ≠ j) (hv : 0 ≤ v)
    (hlast : lastFd v log = some (.accept j p v)) : e.moves v = false := by
  by_contra hmoves
  simp only [Bool.not_eq_false] at hmoves
  cases e with
  | accept k q w =>
    obtain rfl : w = v := by simpa [Event.moves] using hmoves
    obtain ⟨i,hi⟩ := hlegal.2 hv _ hlast
    cases hi
  | close k w =>
    obtain rfl : w = v := by simpa [Event.moves] using hmoves
    obtain ⟨q,hq⟩ := hlegal hv
    obtain ⟨rfl,-,-⟩ := Event.accept.inj (Option.some.inj (hq.symm.trans hlast))
    exact hpass rfl
  | malloc | create | load | free | serve => simp [Event.moves] at hmoves

/-- What a pass has at a stage: its cell from the allocation until it is freed, its descriptor
until it is closed. -/
structure Held (n : ℕ) (log : List Event) (k p : ℕ) (v : ℤ) : Prop where
  given : n = 1 → lastCell p log = some (.malloc k p)
  stored : 2 ≤ n → n ≤ 4 → lastCell p log = some (.accept k p v)
  connected : 2 ≤ n → n ≤ 6 → 0 ≤ v → lastFd v log = some (.accept k p v)

theorem Held.other (h : Held n log j p v) (hlegal : Legal log e) (hpass : e.pass ≠ j) :
    Held n (log ++ [e]) j p v := by
  refine ⟨?_,?_,?_⟩
  · intro hn
    have hlast := h.given hn
    rw [lastCell_snoc,hlegal.not_touches hpass hlast rfl (by simp)]
    exact hlast
  · intro hlow hhigh
    have hlast := h.stored hlow hhigh
    rw [lastCell_snoc,hlegal.not_touches hpass hlast rfl (by simp)]
    exact hlast
  · intro hlow hhigh hv
    have hlast := h.connected hlow hhigh hv
    rw [lastFd_snoc,hlegal.not_moves hpass hv hlast]
    exact hlast

end Ownership

section Invariant

def Main.Points (p : ℕ) : Main → Prop
  | .malloc => True
  | .accept q | .create q => q = p

/-- Pass `k` has cell `p` and, from `accept` on, descriptor `v`, and the variables of the thread
it is in say so. -/
structure Pass (s : State) (k p : ℕ) (v : ℤ) : Prop where
  events : eventsOf k s.log = (script k p v).take (s.stage k)
  held : Held (s.stage k) s.log k p v
  main : k = s.threads → s.main.Points p
  arg : k < s.threads → (s.worker k).arg = p
  socket : k < s.threads → (s.worker k).place ≠ .load → (s.worker k).socket = v

/-- A cell that is not allocated was never used or last freed, and a cell has the value that it
was last assigned. -/
structure Cells (heap : ℕ → Option ℤ) (log : List Event) : Prop where
  unallocated : ∀ p, heap p = none → ∀ e, lastCell p log = some e → ∃ k, e = .free k p
  contents : ∀ p k v, lastCell p log = some (.accept k p v) → heap p = some v

def Connected (opened : Finset ℤ) (log : List Event) : Prop :=
  ∀ v k p, 0 ≤ v → lastFd v log = some (.accept k p v) → v ∈ opened

structure Inv (s : State) : Prop where
  legal : Always Legal s.log
  pass : ∀ k, ∃ p v, Pass s k p v
  cells : Cells s.heap s.log
  connected : Connected s.opened s.log

theorem start_stage (opened : Finset ℤ) (k : ℕ) : (start opened).stage k = 0 := by
  by_cases hk : k = 0
  · simp [start,State.stage,Main.stage,hk]
  · simp [start,State.stage,hk]

theorem Inv.start (opened : Finset ℤ) : Inv (start opened) := by
  refine ⟨always_nil _,?_,⟨?_,?_⟩,?_⟩
  · intro k
    refine ⟨0,0,?_,?_,fun _ => trivial,?_,?_⟩
    · rw [start_stage]
      rfl
    · rw [start_stage]
      exact ⟨by simp,by simp,by simp⟩
    · intro hk
      exact absurd hk (Nat.not_lt_zero k)
    · intro hk
      exact absurd hk (Nat.not_lt_zero k)
  · intro p _ e he
    cases he
  · intro p k v he
    cases he
  · intro v k p _ he
    cases he

variable {s t : State} {j k p : ℕ} {v : ℤ} {e : Event}

theorem eventsOf_own (log : List Event) (he : e.pass = k) :
    eventsOf k (log ++ [e]) = eventsOf k log ++ [e] := by
  simp [eventsOf,he]

theorem eventsOf_other (log : List Event) (he : e.pass ≠ k) :
    eventsOf k (log ++ [e]) = eventsOf k log := by
  simp [eventsOf,he]

/-- The other passes do not notice an event. -/
theorem Pass.other (h : Pass s j p v) (hlog : t.log = s.log ++ [e]) (hlegal : Legal s.log e)
    (hpass : e.pass ≠ j) (hstage : t.stage j = s.stage j) (hmain : j = t.threads → t.main.Points p)
    (hworker : j < t.threads → j < s.threads ∧ t.worker j = s.worker j) : Pass t j p v := by
  refine ⟨?_,?_,hmain,?_,?_⟩
  · rw [hlog,hstage,eventsOf_other _ hpass]
    exact h.events
  · rw [hlog,hstage]
    exact h.held.other hlegal hpass
  · intro hj
    obtain ⟨hlt,heq⟩ := hworker hj
    rw [heq]
    exact h.arg hlt
  · intro hj
    obtain ⟨hlt,heq⟩ := hworker hj
    rw [heq]
    exact h.socket hlt

theorem Pass.advance (h : Pass s k p v) (hlog : t.log = s.log ++ [e]) (hpass : e.pass = k)
    (hlow : 2 ≤ s.stage k) (hstage : t.stage k = s.stage k+1)
    (hevent : (script k p v)[s.stage k]? = some e) (htouches : s.stage k < 4 → e.touches p = false)
    (hmoves : s.stage k < 6 → e.moves v = false) (hk : k < t.threads) (harg : (t.worker k).arg = p)
    (hsocket : (t.worker k).place ≠ .load → (t.worker k).socket = v) : Pass t k p v := by
  refine ⟨?_,⟨?_,?_,?_⟩,fun heq => absurd heq (Nat.ne_of_lt hk),fun _ => harg,fun _ => hsocket⟩
  · rw [hlog,hstage,eventsOf_own _ hpass,h.events,List.take_add_one,hevent]
    rfl
  · intro hone
    omega
  · intro _ hhigh
    rw [hlog,lastCell_snoc,htouches (by omega)]
    exact h.held.stored hlow (by omega)
  · intro _ hhigh hv
    rw [hlog,lastFd_snoc,hmoves (by omega)]
    exact h.held.connected hlow (by omega) hv

theorem Cells.event {heap heap' : ℕ → Option ℤ} {log : List Event} (h : Cells heap log)
    (hkeep : ∀ q, e.touches q = false → heap' q = heap q)
    (hnone : ∀ q, e.touches q = true → heap' q = none → ∃ k, e = .free k q)
    (hsome : ∀ q k v, e = .accept k q v → heap' q = some v) : Cells heap' (log ++ [e]) := by
  refine ⟨?_,?_⟩
  · intro q hq x hx
    rw [lastCell_snoc] at hx
    cases htouches : e.touches q with
    | false =>
      rw [htouches] at hx
      rw [hkeep q htouches] at hq
      exact h.unallocated q hq x hx
    | true =>
      rw [htouches] at hx
      obtain rfl := Option.some.inj hx
      exact hnone q htouches hq
  · intro q k v hlast
    rw [lastCell_snoc] at hlast
    cases htouches : e.touches q with
    | false =>
      rw [htouches] at hlast
      rw [hkeep q htouches]
      exact h.contents q k v hlast
    | true =>
      rw [htouches] at hlast
      exact hsome q k v (Option.some.inj hlast)

theorem Cells.assign {heap : ℕ → Option ℤ} {log : List Event} {x : ℤ} (h : Cells heap log)
    (htouches : ∀ q, e.touches q = decide (p = q)) (hx : ∀ q k v, e = .accept k q v → x = v) :
    Cells (Function.update heap p (some x)) (log ++ [e]) := by
  refine h.event ?_ ?_ ?_
  · intro q hq
    have hne : p ≠ q := by simpa [htouches] using hq
    simp [hne.symm]
  · intro q hq hnone
    obtain rfl : p = q := by simpa [htouches] using hq
    simp at hnone
  · intro q k v he
    have hq : p = q := by simpa [he,Event.touches] using htouches q
    simp [hq,hx q k v he]

theorem Cells.release {heap : ℕ → Option ℤ} {log : List Event} (h : Cells heap log) :
    Cells (Function.update heap p none) (log ++ [.free k p]) := by
  refine h.event ?_ ?_ ?_
  · intro q hq
    have hne : p ≠ q := by simpa [Event.touches] using hq
    simp [hne.symm]
  · intro q hq _
    obtain rfl : p = q := by simpa [Event.touches] using hq
    exact ⟨k,rfl⟩
  · intro q k v he
    cases he

theorem Cells.keep {heap : ℕ → Option ℤ} {log : List Event} (h : Cells heap log)
    (htouches : ∀ q, e.touches q = false) : Cells heap (log ++ [e]) :=
  h.event (fun _ _ => rfl) (fun q hq => absurd hq (by simp [htouches]))
    (fun q k v he => absurd (htouches q) (by simp [he,Event.touches]))

theorem Connected.event {opened opened' : Finset ℤ} {log : List Event} (h : Connected opened log)
    (hkeep : ∀ v, e.moves v = false → v ∈ opened → v ∈ opened')
    (hnew : ∀ v k p, 0 ≤ v → e = .accept k p v → v ∈ opened') : Connected opened' (log ++ [e]) := by
  intro v k p hv hlast
  rw [lastFd_snoc] at hlast
  cases hmoves : e.moves v with
  | false =>
    rw [hmoves] at hlast
    exact hkeep v hmoves (h v k p hv hlast)
  | true =>
    rw [hmoves] at hlast
    exact hnew v k p hv (Option.some.inj hlast)

theorem Connected.close {opened : Finset ℤ} {log : List Event} (h : Connected opened log) :
    Connected (opened.erase v) (log ++ [.close k v]) := by
  refine h.event ?_ ?_
  · intro w hw hmem
    have hne : v ≠ w := by simpa [Event.moves] using hw
    exact Finset.mem_erase.mpr ⟨hne.symm,hmem⟩
  · intro w j p _ he
    cases he

theorem Connected.keep {opened : Finset ℤ} {log : List Event} (h : Connected opened log)
    (hmoves : ∀ v, e.moves v = false) : Connected opened (log ++ [e]) :=
  h.event (fun _ _ hv => hv) (fun v k p _ he => absurd (hmoves v) (by simp [he,Event.moves]))

/-- A descriptor that is not open was closed by the pass that last had it. -/
theorem Connected.closed {opened : Finset ℤ} {log : List Event} (h : Connected opened log)
    (hv : 0 ≤ v) (hfree : v ∉ opened) (hlast : lastFd v log = some e) : ∃ j, e = .close j v := by
  have hmoves : e.moves v = true := lastOf_holds hlast
  cases e with
  | accept k p w =>
    obtain rfl : w = v := by simpa [Event.moves] using hmoves
    exact absurd (h w k p hv hlast) hfree
  | close k w =>
    obtain rfl : w = v := by simpa [Event.moves] using hmoves
    exact ⟨k,rfl⟩
  | malloc | create | load | free | serve => simp [Event.moves] at hmoves

end Invariant

section Preservation

variable {s t : State} {k p : ℕ} {v : ℤ} {e : Event} {heap : ℕ → Option ℤ} {opened : Finset ℤ}

theorem stage_main (s : State) : s.stage s.threads = s.main.stage := by
  simp [State.stage]

theorem stage_worker (hk : k < s.threads) : s.stage k = (s.worker k).place.stage := if_pos hk

theorem Inv.main_event {m : Main} (h : Inv s) (hown : e.pass = s.threads) (hlegal : Legal s.log e)
    (hevents : eventsOf s.threads s.log ++ [e] = (script s.threads p v).take m.stage)
    (hheld : Held m.stage (s.log ++ [e]) s.threads p v) (hpoints : m.Points p)
    (hcells : Cells heap (s.log ++ [e])) (hconnected : Connected opened (s.log ++ [e])) :
    Inv ⟨m,heap,opened,s.threads,s.worker,s.log ++ [e]⟩ := by
  refine ⟨(always_snoc ..).mpr ⟨h.legal,hlegal⟩,?_,hcells,hconnected⟩
  intro j
  by_cases hj : j = s.threads
  · subst hj
    refine ⟨p,v,?_,?_,fun _ => hpoints,fun hlt => absurd hlt (Nat.lt_irrefl _),
      fun hlt => absurd hlt (Nat.lt_irrefl _)⟩
    · rw [stage_main,eventsOf_own _ hown]
      exact hevents
    · rw [stage_main]
      exact hheld
  · obtain ⟨q,w,hq⟩ := h.pass j
    refine ⟨q,w,hq.other rfl hlegal (hown.trans_ne (Ne.symm hj)) ?_ (fun heq => absurd heq hj)
      (fun hlt => ⟨hlt,rfl⟩)⟩
    simp [State.stage,hj]

theorem Inv.worker_event {w : Worker} (h : Inv s) (hself : Pass s k p v) (hk : k < s.threads)
    (hown : e.pass = k) (hlegal : Legal s.log e) (hlow : 2 ≤ (s.worker k).place.stage)
    (hstage : w.place.stage = (s.worker k).place.stage+1)
    (hevent : (script k p v)[(s.worker k).place.stage]? = some e)
    (htouches : (s.worker k).place.stage < 4 → e.touches p = false)
    (hmoves : (s.worker k).place.stage < 6 → e.moves v = false)
    (harg : w.arg = p) (hsocket : w.socket = v)
    (hcells : Cells heap (s.log ++ [e])) (hconnected : Connected opened (s.log ++ [e])) :
    Inv ⟨s.main,heap,opened,s.threads,Function.update s.worker k w,s.log ++ [e]⟩ := by
  refine ⟨(always_snoc ..).mpr ⟨h.legal,hlegal⟩,?_,hcells,hconnected⟩
  intro j
  by_cases hj : j = k
  · subst hj
    rw [← stage_worker hk] at hlow hevent htouches hmoves
    refine ⟨p,v,hself.advance rfl hown hlow ?_ hevent htouches hmoves hk ?_ fun _ => ?_⟩
    · rw [stage_worker hk,← hstage]
      simp [State.stage,hk]
    · simpa using harg
    · simpa using hsocket
  · obtain ⟨q,x,hq⟩ := h.pass j
    refine ⟨q,x,hq.other rfl hlegal (hown.trans_ne (Ne.symm hj)) ?_ hq.main (fun hlt => ⟨hlt,?_⟩)⟩
    · simp [State.stage,hj]
    · simp [hj]

theorem Inv.create (h : Inv s) (hmain : s.main = .create p) :
    Inv ⟨.malloc,s.heap,s.opened,s.threads+1,Function.update s.worker s.threads ⟨p,.load,0⟩,
      s.log ++ [.create s.threads p]⟩ := by
  obtain ⟨q,v,hself⟩ := h.pass s.threads
  obtain rfl : p = q := by simpa [hmain,Main.Points] using hself.main rfl
  have hstage : s.stage s.threads = 2 := by rw [stage_main,hmain]; rfl
  have hlast := hself.held.stored (by omega) (by omega)
  have hlegal : Legal s.log (.create s.threads p) := ⟨v,hlast⟩
  refine ⟨(always_snoc ..).mpr ⟨h.legal,hlegal⟩,?_,h.cells.keep fun _ => rfl,
    h.connected.keep fun _ => rfl⟩
  intro j
  by_cases hj : j = s.threads
  · subst hj
    refine ⟨p,v,hself.advance rfl rfl (by omega) ?_ ?_ (fun _ => rfl) (fun _ => rfl)
      (Nat.lt_succ_self _) ?_ ?_⟩
    · rw [hstage]
      simp [State.stage,Place.stage]
    · rw [hstage]
      rfl
    · simp
    · simp
  · obtain ⟨q,w,hq⟩ := h.pass j
    refine ⟨q,w,hq.other rfl hlegal (Ne.symm hj) ?_ (fun _ => trivial) (fun hlt => ?_)⟩
    · rcases Nat.lt_or_ge j s.threads with hlt | hge
      · simp [State.stage,hlt,hj,Nat.lt_succ_of_lt hlt]
      · have hgt : ¬ j < s.threads+1 := by omega
        simp [State.stage,Nat.not_lt.mpr hge,hj,hgt,Main.stage]
    · refine ⟨?_,by simp [hj]⟩
      dsimp only at hlt
      omega

theorem Inv.malloc {x : ℤ} (h : Inv s) (hmain : s.main = .malloc) (hfree : s.heap p = none) :
    Inv ⟨.accept p,Function.update s.heap p (some x),s.opened,s.threads,s.worker,
      s.log ++ [.malloc s.threads p]⟩ := by
  obtain ⟨q,v,hself⟩ := h.pass s.threads
  have hstage : s.stage s.threads = 0 := by rw [stage_main,hmain]; rfl
  refine h.main_event (p := p) (v := v) rfl (h.cells.unallocated p hfree) ?_
    ⟨fun _ => ?_,by simp [Main.stage],by simp [Main.stage]⟩ rfl
    (h.cells.assign (fun _ => rfl) ?_) (h.connected.keep fun _ => rfl)
  · rw [hself.events,hstage]
    rfl
  · rw [lastCell_snoc]
    simp [Event.touches]
  · intro q k w he
    cases he

theorem Inv.store {fd : ℤ} (h : Inv s) (hmain : s.main = .accept p)
    (hfree : 0 ≤ fd → fd ∉ s.opened) (hsub : s.opened ⊆ opened) (hmem : 0 ≤ fd → fd ∈ opened) :
    Inv ⟨.create p,Function.update s.heap p (some fd),opened,s.threads,s.worker,
      s.log ++ [.accept s.threads p fd]⟩ := by
  obtain ⟨q,v,hself⟩ := h.pass s.threads
  obtain rfl : p = q := by simpa [hmain,Main.Points] using hself.main rfl
  have hstage : s.stage s.threads = 1 := by rw [stage_main,hmain]; rfl
  refine h.main_event (p := p) (v := fd) rfl
    ⟨hself.held.given hstage,fun hfd e he => h.connected.closed hfd (hfree hfd) he⟩ ?_
    ⟨by simp [Main.stage],fun _ _ => ?_,fun _ _ _ => ?_⟩ rfl (h.cells.assign (fun _ => rfl) ?_)
    (h.connected.event (fun w _ hw => hsub hw) ?_)
  · rw [hself.events,hstage]
    rfl
  · rw [lastCell_snoc]
    simp [Event.touches]
  · rw [lastFd_snoc]
    simp [Event.moves]
  · intro q k w he
    exact (Event.accept.inj he).2.2
  · intro w k q hw he
    obtain ⟨-,-,rfl⟩ := Event.accept.inj he
    exact hmem hw

theorem Inv.echo {x : ℤ} (h : Inv s) (hk : k < s.threads) (hw : s.worker k = ⟨p,.echo,x⟩) :
    Inv ⟨s.main,s.heap,s.opened,s.threads,Function.update s.worker k ⟨p,.close,x⟩,s.log⟩ := by
  refine ⟨h.legal,?_,h.cells,h.connected⟩
  intro j
  obtain ⟨q,v,hself⟩ := h.pass j
  set w := Function.update s.worker k ⟨p,.close,x⟩ with hdef
  obtain ⟨harg,hsocket,hload,hplace⟩ : (w j).arg = (s.worker j).arg ∧
      (w j).socket = (s.worker j).socket ∧ ((w j).place ≠ .load → (s.worker j).place ≠ .load) ∧
      (w j).place.stage = (s.worker j).place.stage := by
    by_cases hj : j = k
    · subst hj
      simp [hdef,hw,Place.stage]
    · simp [hdef,hj]
  have hstage : State.stage ⟨s.main,s.heap,s.opened,s.threads,w,s.log⟩ j = s.stage j := by
    simp only [State.stage,hplace]
  refine ⟨q,v,?_,?_,hself.main,fun hlt => harg.trans (hself.arg hlt),
    fun hlt hne => hsocket.trans (hself.socket hlt (hload hne))⟩
  · rw [hstage]
    exact hself.events
  · rw [hstage]
    exact hself.held

theorem Inv.step {a : Action} (h : Inv s) (hstep : Step s a t) : Inv t := by
  cases hstep with
  | malloc p x hmain hfree => exact h.malloc hmain hfree
  | accept p fd hmain hfd =>
    exact h.store hmain (fun _ => hfd) (Finset.subset_insert ..)
      (fun _ => Finset.mem_insert_self ..)
  | acceptFail p hmain =>
    exact h.store hmain (fun hneg => absurd hneg (by decide)) (Finset.Subset.refl _)
      (fun hneg => absurd hneg (by decide))
  | create p hmain => exact h.create hmain
  | load k p socket hk hw =>
    obtain ⟨q,v,hself⟩ := h.pass k
    obtain rfl : p = q := by simpa [hw] using hself.arg hk
    have hstage : s.stage k = 3 := by rw [stage_worker hk,hw]; rfl
    have hlast := hself.held.stored (by omega) (by omega)
    have hcell := h.cells.contents p k v hlast
    rw [hcell]
    exact h.worker_event hself hk rfl ⟨v,hlast,rfl⟩ (by simp [hw,Place.stage])
      (by simp [hw,Place.stage])
      (by simp [hw,Place.stage,script]) (fun _ => rfl) (fun _ => rfl) rfl rfl
      (h.cells.keep fun _ => rfl) (h.connected.keep fun _ => rfl)
  | free k p socket hk hw =>
    obtain ⟨q,v,hself⟩ := h.pass k
    obtain rfl : p = q := by simpa [hw] using hself.arg hk
    obtain rfl : socket = v := by simpa [hw] using hself.socket hk
    have hstage : s.stage k = 4 := by rw [stage_worker hk,hw]; rfl
    have hlast := hself.held.stored (by omega) (by omega)
    exact h.worker_event hself hk rfl ⟨socket,hlast⟩ (by simp [hw,Place.stage])
      (by simp [hw,Place.stage]) (by simp [hw,Place.stage,script]) (by simp [hw,Place.stage])
      (fun _ => rfl) rfl rfl h.cells.release (h.connected.keep fun _ => rfl)
  | serve k p socket hk hw =>
    obtain ⟨q,v,hself⟩ := h.pass k
    obtain rfl : p = q := by simpa [hw] using hself.arg hk
    obtain rfl : socket = v := by simpa [hw] using hself.socket hk
    have hstage : s.stage k = 5 := by rw [stage_worker hk,hw]; rfl
    have hlegal : Legal s.log (.serve k socket) :=
      fun hv => ⟨p,hself.held.connected (by omega) (by omega) hv⟩
    exact h.worker_event hself hk rfl hlegal (by simp [hw,Place.stage])
      (by simp [hw,Place.stage]) (by simp [hw,Place.stage,script]) (fun _ => rfl) (fun _ => rfl)
      rfl rfl (h.cells.keep fun _ => rfl) (h.connected.keep fun _ => rfl)
  | echo k p socket hk hw => exact h.echo hk hw
  | close k p socket hk hw =>
    obtain ⟨q,v,hself⟩ := h.pass k
    obtain rfl : p = q := by simpa [hw] using hself.arg hk
    obtain rfl : socket = v := by simpa [hw] using hself.socket hk
    have hstage : s.stage k = 6 := by rw [stage_worker hk,hw]; rfl
    have hlegal : Legal s.log (.close k socket) :=
      fun hv => ⟨p,hself.held.connected (by omega) (by omega) hv⟩
    exact h.worker_event hself hk rfl hlegal (by simp [hw,Place.stage])
      (by simp [hw,Place.stage]) (by simp [hw,Place.stage,script]) (fun _ => rfl)
      (by simp [hw,Place.stage]) rfl rfl (h.cells.keep fun _ => rfl) h.connected.close

end Preservation

section Handoff

variable {s t : State}

def State.done (s : State) (k : ℕ) : ℕ :=
  if k < s.threads then (s.worker k).place.steps else 0

theorem done_update {k : ℕ} {m : Main} {heap : ℕ → Option ℤ} {opened : Finset ℤ} {w : Worker}
    {log : List Event} (hk : k < s.threads) (hw : w.place.steps = (s.worker k).place.steps+1)
    (j : ℕ) :
    State.done ⟨m,heap,opened,s.threads,Function.update s.worker k w,log⟩ j =
      s.done j+if Action.worker k = .worker j then 1 else 0 := by
  by_cases hj : k = j
  · subst hj
    simp [State.done,hk,hw]
  · simp [State.done,hj,Ne.symm hj]

theorem Step.done {a : Action} (h : Step s a t) (j : ℕ) :
    t.done j = s.done j+if a = .worker j then 1 else 0 := by
  cases h with
  | malloc | accept | acceptFail => simp [State.done]
  | create p hmain =>
    rcases Nat.lt_trichotomy j s.threads with hlt | rfl | hgt
    · simp [State.done,hlt,Nat.ne_of_lt hlt,Nat.lt_succ_of_lt hlt]
    · simp [State.done,Place.steps]
    · have hge : ¬ j < s.threads+1 := by omega
      simp [State.done,hge,Nat.lt_asymm hgt]
  | load k p v hk hw => exact done_update hk (by rw [hw]; rfl) j
  | free k p v hk hw => exact done_update hk (by rw [hw]; rfl) j
  | serve k p v hk hw => exact done_update hk (by rw [hw]; rfl) j
  | echo k p v hk hw => exact done_update hk (by rw [hw]; rfl) j
  | close k p v hk hw => exact done_update hk (by rw [hw]; rfl) j

/-- No thread waits for another one: each statement of `doit` is possible when it is next. -/
theorem worker_enabled {k : ℕ} (hk : k < s.threads) (hplace : (s.worker k).place ≠ .returned) :
    (step s (.worker k)).isSome := by
  rw [step,if_pos hk]
  rcases hw : s.worker k with ⟨p,place,v⟩
  rw [hw] at hplace
  cases place with
  | returned => exact absurd rfl hplace
  | load | free | serve | echo | close => simp [doit,hw]

theorem create_enabled {k : ℕ} (hstage : s.stage k = 2) : (step s .create).isSome := by
  simp only [State.stage] at hstage
  split_ifs at hstage with hlt heq
  · cases hplace : (s.worker k).place <;> simp [hplace,Place.stage] at hstage
  · cases hmain : s.main with
    | create p => simp [step,hmain]
    | malloc => simp [hmain,Main.stage] at hstage
    | accept p => simp [hmain,Main.stage] at hstage

theorem steps_le (place : Place) : place.steps ≤ 5 := by
  cases place <;> decide

theorem steps_eq_five {place : Place} : place.steps = 5 ↔ place = .returned := by
  cases place <;> decide

/-- In every run each event is legal, the events of a pass are the part of its script that
belongs to the place of its thread, a pass is never blocked behind `accept`, and it has done the
whole script when its thread has done the five steps of `doit`. -/
theorem descriptor_handoff (opened : Finset ℤ) {as : List Action} {s : State}
    (h : exec step (start opened) as = some s) :
    Always Legal s.log ∧ ∀ k, ∃ p v,
      eventsOf k s.log = (script k p v).take (s.stage k) ∧
      (s.stage k = 2 → (step s .create).isSome) ∧
      (k < s.threads → as.count (.worker k) < 5 → (step s (.worker k)).isSome) ∧
      as.count (.worker k) ≤ 5 ∧
      (as.count (.worker k) = 5 → eventsOf k s.log = script k p v) := by
  have hinv : Inv s := (reachable_of_exec h).invariant (Inv.start opened)
    fun _ _ _ hx hxy => hx.step (step_cases hxy)
  refine ⟨hinv.legal,?_⟩
  intro k
  obtain ⟨p,v,hpass⟩ := hinv.pass k
  have hcount : s.done k = as.count (.worker k) := by
    have hrun := exec_count (fun s => s.done k) (.worker k)
      (fun _ _ _ hxy => (step_cases hxy).done k) h
    simpa [start,State.done] using hrun
  refine ⟨p,v,hpass.events,create_enabled,?_,?_,?_⟩
  · intro hk hlt
    refine worker_enabled hk ?_
    intro hreturned
    rw [← hcount,State.done,if_pos hk,hreturned] at hlt
    exact absurd hlt (by decide)
  · rw [← hcount,State.done]
    split_ifs
    · exact steps_le _
    · exact Nat.zero_le 5
  · intro hfive
    rw [← hcount,State.done] at hfive
    split_ifs at hfive with hk
    have hstage : s.stage k = 7 := by rw [stage_worker hk,steps_eq_five.mp hfive]; rfl
    rw [hpass.events,hstage]
    rfl

/-- The third pass gets the cell that the first thread has freed while this thread is still
connected, and then the descriptor that it has closed. -/
def recycling : List Action :=
  [.malloc 0 7,.accept 4,.create,.malloc 1 7,.worker 0,.worker 0,.accept 5,.create,.malloc 0 7,
    .worker 0,.worker 1,.worker 0,.worker 0,.accept 4,.create,.worker 2]

theorem descriptor_handoff_recycled : ∃ s, exec step (start {3}) recycling = some s ∧
    lastCell 0 s.log = some (.accept 2 0 4) ∧ lastFd 4 s.log = some (.accept 2 0 4) ∧
    Always Legal s.log ∧ ∃ p v, eventsOf 0 s.log = script 0 p v := by
  obtain ⟨s,hs,hlast⟩ : ∃ s, exec step (start {3}) recycling = some s ∧
      (lastCell 0 s.log,lastFd 4 s.log) = (some (.accept 2 0 4),some (.accept 2 0 4)) :=
    Option.map_eq_some_iff.mp (by decide +kernel)
  obtain ⟨hcell,hfd⟩ := Prod.mk.inj hlast
  obtain ⟨hlegal,hpass⟩ := descriptor_handoff {3} hs
  obtain ⟨p,v,-,-,-,-,hall⟩ := hpass 0
  exact ⟨s,hs,hcell,hfd,hlegal,p,v,hall (by decide)⟩

end Handoff

end ThreadServer
end CPrograming
