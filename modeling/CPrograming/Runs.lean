import Mathlib.Logic.Relation
import Mathlib.Data.List.TakeWhile
import Mathlib.Tactic

/-!
# Runs against an environment

A system is a step function: each step consumes one choice of the environment
and yields the next state, or nothing when the choice is not possible there.
Reachability quantifies over every finite sequence of choices. The second half
of the file is about logs that only grow at the end: properties that relate each
entry to the entries before it, the entries since the last one of a kind, and the
sessions that some entries open.
-/

namespace CPrograming
namespace Runs

variable {S A : Type*}

def Next (step : S → A → Option S) (s t : S) : Prop := ∃ a, step s a = some t

def Reachable (step : S → A → Option S) : S → S → Prop := Relation.ReflTransGen (Next step)

namespace Reachable

variable {step : S → A → Option S} {s t u : S}

theorem refl (s : S) : Reachable step s s := Relation.ReflTransGen.refl

theorem trans (hst : Reachable step s t) (htu : Reachable step t u) : Reachable step s u :=
  Relation.ReflTransGen.trans hst htu

theorem tail {a : A} (hst : Reachable step s t) (htu : step t a = some u) :
    Reachable step s u :=
  Relation.ReflTransGen.tail hst ⟨a,htu⟩

/-- What holds at the start and survives every step holds in every reached state. -/
theorem invariant {I : S → Prop} (h : Reachable step s t) (hs : I s)
    (hstep : ∀ a x y, I x → step x a = some y → I y) : I t := by
  induction h with
  | refl => exact hs
  | tail _ hnext ih =>
    obtain ⟨a,ha⟩ := hnext
    exact hstep a _ _ ih ha

/-- Where some run always lowers a rank, the goal can always be reached. -/
theorem descend {I G : S → Prop} (rank : S → ℕ)
    (hstep : ∀ x, I x → ¬ G x → ∃ y, Reachable step x y ∧ I y ∧ rank y < rank x) (hs : I s) :
    ∃ t, Reachable step s t ∧ I t ∧ G t := by
  induction hn : rank s using Nat.strong_induction_on generalizing s with
  | _ n ih =>
    by_cases hgoal : G s
    · exact ⟨s,refl s,hs,hgoal⟩
    · obtain ⟨y,hy,hiy,hlt⟩ := hstep s hs hgoal
      obtain ⟨t,ht,hit,hgt⟩ := ih (rank y) (hn ▸ hlt) hiy rfl
      exact ⟨t,hy.trans ht,hit,hgt⟩

end Reachable

def exec (step : S → A → Option S) : S → List A → Option S
  | s, [] => some s
  | s, a :: as => (step s a).bind fun t => exec step t as

theorem exec_append (step : S → A → Option S) (s : S) (as bs : List A) :
    exec step s (as ++ bs) = (exec step s as).bind fun t => exec step t bs := by
  induction as generalizing s with
  | nil => simp [exec]
  | cons b as ih =>
    cases h : step s b with
    | none => simp [exec,h]
    | some t => simp [exec,h,ih]

theorem exec_snoc (step : S → A → Option S) (s : S) (as : List A) (a : A) :
    exec step s (as ++ [a]) = (exec step s as).bind fun t => step t a := by
  simp [exec_append,exec]

theorem reachable_of_exec {step : S → A → Option S} {s t : S} {as : List A}
    (h : exec step s as = some t) : Reachable step s t := by
  induction as generalizing s with
  | nil =>
    have he : s = t := by simpa [exec] using h
    subst t
    exact Reachable.refl s
  | cons a as ih =>
    obtain ⟨u,hu,ht⟩ := Option.bind_eq_some_iff.mp h
    exact Relation.ReflTransGen.head ⟨a,hu⟩ (ih ht)

/-- A relation that every step keeps, under the same choice, is kept by runs. -/
theorem exec_simulation {S' : Type*} {step : S → A → Option S} {step' : S' → A → Option S'}
    {R : S → S' → Prop} (hstep : ∀ s s' a t, R s s' → step s a = some t →
      ∃ t', step' s' a = some t' ∧ R t t') {s t : S} {s' : S'} {as : List A} (hR : R s s')
    (h : exec step s as = some t) : ∃ t', exec step' s' as = some t' ∧ R t t' := by
  induction as generalizing s s' with
  | nil =>
    obtain rfl : s = t := by simpa [exec] using h
    exact ⟨s',rfl,hR⟩
  | cons a as ih =>
    obtain ⟨u,hu,ht⟩ := Option.bind_eq_some_iff.mp h
    obtain ⟨u',hu',hRu⟩ := hstep s s' a u hR hu
    obtain ⟨t',ht',hRt⟩ := ih hRu ht
    exact ⟨t',by rw [exec,hu',Option.bind_some,ht'],hRt⟩

/-- A rank that every step lowers is used up after as many steps. -/
theorem exec_rank {step : S → A → Option S} (rank : S → ℕ)
    (hrank : ∀ s a t, rank s ≠ 0 → step s a = some t → rank t < rank s) {s u : S} {as : List A}
    (h : exec step s as = some u) (hlen : rank s ≤ as.length) :
    ∃ k ≤ rank s, ∃ t, exec step s (as.take k) = some t ∧ rank t = 0 := by
  induction as generalizing s with
  | nil => exact ⟨0,Nat.zero_le _,s,rfl,Nat.le_zero.mp hlen⟩
  | cons a as ih =>
    by_cases hs : rank s = 0
    · exact ⟨0,Nat.zero_le _,s,rfl,hs⟩
    · obtain ⟨t,ht,hu⟩ := Option.bind_eq_some_iff.mp h
      have hlt := hrank s a t hs ht
      obtain ⟨k,hk,v,hv,hzero⟩ := ih hu (by simp only [List.length_cons] at hlen; omega)
      exact ⟨k+1,by omega,v,by simpa [exec,ht] using hv,hzero⟩

/-- A rank that every busy step lowers, and that only the fuelled steps raise, bounds the number
of busy steps by that of the fuelled ones. -/
theorem exec_spends {step : S → A → Option S} {I : S → Prop} (rank : S → ℕ)
    (busy fuelled : A → Bool) (c : ℕ) (hstep : ∀ s a t, I s → step s a = some t →
      I t ∧ rank t+(if busy a then 1 else 0) ≤ rank s+(if fuelled a then c else 0))
    {s t : S} {as : List A} (hs : I s) (h : exec step s as = some t) :
    rank t+as.countP busy ≤ rank s+c*as.countP fuelled := by
  induction as generalizing s with
  | nil =>
    obtain rfl : s = t := by simpa [exec] using h
    simp
  | cons a as ih =>
    obtain ⟨u,hu,ht⟩ := Option.bind_eq_some_iff.mp h
    obtain ⟨hi,hrank⟩ := hstep s a u hs hu
    have hrest := ih hi ht
    rw [List.countP_cons,List.countP_cons,Nat.mul_add]
    split_ifs at hrank ⊢ <;> omega

theorem exec_busy {step : S → A → Option S} {I : S → Prop} (rank : S → ℕ) (busy : A → Bool)
    (hstep : ∀ s a t, I s → step s a = some t →
      I t ∧ rank t+(if busy a then 1 else 0) ≤ rank s) {s t : S} {as : List A} (hs : I s)
    (h : exec step s as = some t) : rank t+as.countP busy ≤ rank s := by
  simpa using exec_spends rank busy (fun _ => false) 0 (by simpa using hstep) hs h

/-- The rank may also be an index of the invariant; 0 means that nothing is left to bound. -/
theorem exec_indexed {step : S → A → Option S} {I : S → ℕ → Prop} (busy : A → Bool)
    (hstep : ∀ s n a t, I s n → step s a = some t →
      ∃ m, I t m ∧ (m = 0 ∨ m+(busy a).toNat ≤ n))
    {s t : S} {n : ℕ} {as : List A} (hs : I s n) (h : exec step s as = some t) :
    ∃ m, I t m ∧ (m = 0 ∨ m+as.countP busy ≤ n) := by
  induction as generalizing s n with
  | nil =>
    obtain rfl : s = t := by simpa [exec] using h
    exact ⟨n,hs,Or.inr (by simp)⟩
  | cons a as ih =>
    obtain ⟨u,hu,ht⟩ := Option.bind_eq_some_iff.mp h
    obtain ⟨k,hk,hone⟩ := hstep s n a u hs hu
    obtain ⟨m,hm,hrest⟩ := ih hk ht
    refine ⟨m,hm,?_⟩
    rw [List.countP_cons]
    rcases hrest with hzero | hrest
    · exact Or.inl hzero
    · rcases hone with rfl | hone
      · left
        omega
      · right
        cases hb : busy a <;> simp [hb] at hone ⊢ <;> omega

/-- If every step lowers the rank, up to what it gains, then the number of steps is bounded by
the gain. -/
theorem exec_gains {step : S → A → Option S} {I : S → Prop} (rank gain : S → ℕ)
    (hstep : ∀ s a t, I s → step s a = some t → I t ∧ rank t+1+gain s ≤ rank s+gain t)
    {s t : S} {as : List A} (hs : I s) (h : exec step s as = some t) :
    rank t+as.length+gain s ≤ rank s+gain t := by
  induction as generalizing s with
  | nil =>
    obtain rfl : s = t := by simpa [exec] using h
    simp
  | cons a as ih =>
    obtain ⟨u,hu,ht⟩ := Option.bind_eq_some_iff.mp h
    obtain ⟨hi,hrank⟩ := hstep s a u hs hu
    have hrest := ih hi ht
    rw [List.length_cons]
    omega

/-- A number that one choice raises by one and no other choice changes counts that choice. -/
theorem exec_count [DecidableEq A] {step : S → A → Option S} (f : S → ℕ) (b : A)
    (hstep : ∀ s a t, step s a = some t → f t = f s+(if a = b then 1 else 0)) {s t : S}
    {as : List A} (h : exec step s as = some t) : f t = f s+as.count b := by
  induction as generalizing s with
  | nil =>
    obtain rfl : s = t := by simpa [exec] using h
    simp
  | cons a as ih =>
    obtain ⟨u,hu,ht⟩ := Option.bind_eq_some_iff.mp h
    have hone := hstep s a u hu
    have hrest := ih ht
    simp only [List.count_cons,beq_iff_eq]
    omega

/-- A fixed sequence of choices whose last state passes a test gives a reachable
state that passes it. -/
theorem exists_reachable (step : S → A → Option S) (s : S) (as : List A) (p : S → Bool)
    (h : (exec step s as).map p = some true) : ∃ t, Reachable step s t ∧ p t = true := by
  obtain ⟨t,ht,hp⟩ := Option.map_eq_some_iff.mp h
  exact ⟨t,reachable_of_exec ht,hp⟩

def restrict (p : S → A → Prop) [∀ s a, Decidable (p s a)] (step : S → A → Option S) (s : S)
    (a : A) : Option S :=
  if p s a then step s a else none

@[simp] theorem restrict_eq_some {p : S → A → Prop} [∀ s a, Decidable (p s a)]
    {step : S → A → Option S} {s t : S} {a : A} :
    restrict p step s a = some t ↔ p s a ∧ step s a = some t := by
  simp [restrict]

theorem Reachable.of_restrict {p : S → A → Prop} [∀ s a, Decidable (p s a)]
    {step : S → A → Option S} {s t : S} (h : Reachable (restrict p step) s t) :
    Reachable step s t :=
  h.invariant (I := Reachable step s) (.refl s)
    fun _ _ _ hx hxy => hx.tail (restrict_eq_some.mp hxy).2

theorem Reachable.exec_restrict {p : A → Prop} [DecidablePred p] {step : S → A → Option S}
    {s t : S} (h : Reachable (restrict (fun _ a => p a) step) s t) :
    ∃ as, exec step s as = some t ∧ ∀ a ∈ as, p a := by
  induction h with
  | refl => exact ⟨[],rfl,by simp⟩
  | tail _ hnext ih =>
    obtain ⟨a,ha⟩ := hnext
    obtain ⟨hp,hstep⟩ := restrict_eq_some.mp ha
    obtain ⟨as,hexec,hall⟩ := ih
    refine ⟨as ++ [a],by rw [exec_snoc,hexec,Option.bind_some,hstep],?_⟩
    intro b hb
    rcases List.mem_append.mp hb with hb | hb
    · exact hall b hb
    · exact List.mem_singleton.mp hb ▸ hp

section History

variable {E : Type*}

/-- Every entry of the log is in the relation `P` to the entries before it. -/
def Always (P : List E → E → Prop) (log : List E) : Prop :=
  ∀ pre e post, log = pre ++ e :: post → P pre e

@[simp] theorem always_nil (P : List E → E → Prop) : Always P [] := by
  intro pre e post h
  simp at h

theorem snoc_eq_append_cons {log pre post : List E} {e x : E}
    (h : log ++ [e] = pre ++ x :: post) :
    (pre = log ∧ x = e) ∨ ∃ rest, log = pre ++ x :: rest := by
  rcases List.append_eq_append_iff.mp h with ⟨mid,hpre,hmid⟩ | ⟨mid,hlog,hmid⟩
  · cases mid with
    | nil => exact Or.inl ⟨by simpa using hpre,by simpa using (List.cons.inj hmid).1.symm⟩
    | cons y ys => simp at hmid
  · cases mid with
    | nil => exact Or.inl ⟨by simpa using hlog.symm,(List.cons.inj hmid).1⟩
    | cons y ys =>
      obtain ⟨rfl,-⟩ := List.cons.inj hmid
      exact Or.inr ⟨ys,hlog⟩

@[simp] theorem always_snoc (P : List E → E → Prop) (log : List E) (e : E) :
    Always P (log ++ [e]) ↔ Always P log ∧ P log e := by
  constructor
  · intro h
    refine ⟨?_,h log e [] rfl⟩
    intro pre x post hlog
    exact h pre x (post ++ [e]) (by simp [hlog])
  · rintro ⟨hlog,he⟩ pre x post h
    rcases snoc_eq_append_cons h with ⟨rfl,rfl⟩ | ⟨rest,hrest⟩
    · exact he
    · exact hlog pre x rest hrest

theorem always_append (P : List E → E → Prop) (log es : List E) :
    Always P (log ++ es) ↔ Always P log ∧ Always (fun pre => P (log ++ pre)) es := by
  induction es using List.reverseRecOn with
  | nil => simp
  | append_singleton es e ih => rw [← List.append_assoc,always_snoc,always_snoc,ih,and_assoc]

@[simp] theorem always_cons (P : List E → E → Prop) (e : E) (es : List E) :
    Always P (e :: es) ↔ P [] e ∧ Always (fun pre => P (e :: pre)) es := by
  have hone : Always P [e] ↔ P [] e := by simpa using always_snoc P [] e
  have happend := always_append P [e] es
  rwa [hone] at happend

def lastOf (p : E → Bool) (log : List E) : Option E := (log.filter p).getLast?

theorem lastOf_snoc (p : E → Bool) (log : List E) (e : E) :
    lastOf p (log ++ [e]) = if p e then some e else lastOf p log := by
  by_cases he : p e = true
  · simp [lastOf,he]
  · simp [lastOf,he]

theorem lastOf_holds {p : E → Bool} {log : List E} {e : E} (h : lastOf p log = some e) :
    p e = true :=
  (List.mem_filter.mp (List.mem_of_getLast? h)).2

section Since

variable {W : Type*} (start : E → Option W)

/-- What the last starting entry carries, and the entries after it. -/
def since (log : List E) : Option (W × List E) :=
  log.foldl (fun last e => (start e).elim (last.map fun p => (p.1,p.2 ++ [e])) fun w => some (w,[]))
    none

variable {start} {log : List E} {e : E}

theorem since_snoc_start {w : W} (h : start e = some w) :
    since start (log ++ [e]) = some (w,[]) := by
  simp [since,h]

theorem since_append {es : List E} (h : ∀ e ∈ es, start e = none) :
    since start (log ++ es) = (since start log).map fun p => (p.1,p.2 ++ es) := by
  induction es generalizing log with
  | nil => simp
  | cons e es ih =>
    have hsnoc : since start (log ++ [e]) = (since start log).map fun p => (p.1,p.2 ++ [e]) := by
      simp [since,h e List.mem_cons_self]
    rw [List.append_cons,ih fun x hx => h x (List.mem_cons_of_mem e hx),hsnoc,Option.map_map]
    simp [Function.comp_def]

end Since

section Sessions

variable {κ : Type*} [DecidableEq κ] (opens : E → Option κ)

/-- The entries up to the next one that opens a session of `k`. -/
def session (k : κ) (log : List E) : List E := log.takeWhile fun e => opens e ≠ some k

def EverySession (P : κ → List E → Prop) (log : List E) : Prop :=
  ∀ pre e post k, log = pre ++ e :: post → opens e = some k → P k (session opens k post)

theorem session_append (k : κ) (xs ys : List E) :
    session opens k (xs ++ ys) = session opens k xs ∨
      session opens k xs = xs ∧ session opens k (xs ++ ys) = xs ++ session opens k ys := by
  simp only [session,List.takeWhile_append]
  split_ifs with h
  · right
    refine ⟨?_,rfl⟩
    exact (List.takeWhile_prefix _).eq_of_length h
  · exact Or.inl rfl

variable {opens} {P : κ → List E → Prop}

theorem EverySession.append {log es : List E}
    (hadd : ∀ k xs ys, P k xs → P k ys → P k (xs ++ ys)) (h : EverySession opens P log)
    (hold : ∀ k, P k (session opens k es)) (hnew : EverySession opens P es) :
    EverySession opens P (log ++ es) := by
  intro pre e post k hsplit hopens
  rcases List.append_eq_append_iff.mp hsplit with ⟨mid,rfl,hmid⟩ | ⟨mid,hlog,hmid⟩
  · exact hnew mid e post k hmid hopens
  · cases mid with
    | nil => exact hnew [] e post k (by simpa using hmid.symm) hopens
    | cons x rest =>
      obtain ⟨rfl,hpost⟩ : e = x ∧ post = rest ++ es := by simpa using hmid
      have hrest := h pre e rest k hlog hopens
      rw [hpost]
      rcases session_append opens k rest es with heq | ⟨hall,heq⟩
      · rw [heq]
        exact hrest
      · rw [heq]
        rw [hall] at hrest
        exact hadd k rest _ hrest (hold k)

theorem session_eq_self {k : κ} {es : List E} (h : ∀ e ∈ es, opens e = none) :
    session opens k es = es := by
  rw [session,List.takeWhile_eq_self_iff]
  intro e he
  simp [h e he]

theorem everySession_of_none {es : List E} (h : ∀ e ∈ es, opens e = none) :
    EverySession opens P es := by
  intro pre e post k hes hopens
  have hnone := h e (by simp [hes])
  rw [hnone] at hopens
  cases hopens

end Sessions

end History

end Runs
end CPrograming
