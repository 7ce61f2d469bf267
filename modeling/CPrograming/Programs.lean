import Mathlib.Tactic

/-!
# Programs over a state

A program works on a state and comes back with a value, or it stops: the language
does not say what happens next, or a loop has used up its fuel. `wp` is the
precondition under which a program comes back with a result that has a property,
and `Keeps` says what every program leaves alone, whether it comes back or not.
-/

namespace CPrograming
namespace Programs

inductive Stop
  | undefined
  | running
  deriving DecidableEq, Repr

/-- The state after a stop is the one in which the program stopped. -/
def Prog (σ α : Type) := σ → Except Stop α × σ

variable {σ α β : Type}

namespace Prog

def bind (x : Prog σ α) (f : α → Prog σ β) : Prog σ β := fun s =>
  match x s with
  | (.ok a,t) => f a t
  | (.error e,t) => (.error e,t)

end Prog

instance : Monad (Prog σ) where
  pure a := fun s => (.ok a,s)
  bind := Prog.bind

def stop (e : Stop) : Prog σ α := fun s => (.error e,s)

def modify (f : σ → σ) : Prog σ Unit := fun s => (.ok (),f s)

/-- A loop along pointers: it ends at the null pointer, and the body is given the loop
that goes on from another one. -/
def walk {A : Type} (done : Prog σ α) (body : A → (Option A → Prog σ α) → Prog σ α) :
    (fuel : ℕ) → Option A → Prog σ α
  | _, none => done
  | 0, some _ => stop .running
  | fuel+1, some a => body a (walk done body fuel)

@[simp] theorem walk_none {A : Type} (done : Prog σ α)
    (body : A → (Option A → Prog σ α) → Prog σ α) (fuel : ℕ) : walk done body fuel none = done := by
  cases fuel <;> rfl

theorem bind_of_ok {x : Prog σ α} {f : α → Prog σ β} {s t : σ} {a : α}
    (h : x s = (.ok a,t)) : (x >>= f) s = f a t := by
  change Prog.bind x f s = f a t
  simp only [Prog.bind,h]

theorem bind_of_error {x : Prog σ α} {f : α → Prog σ β} {s t : σ} {e : Stop}
    (h : x s = (.error e,t)) : (x >>= f) s = (.error e,t) := by
  change Prog.bind x f s = (.error e,t)
  simp only [Prog.bind,h]

section WeakestPrecondition

/-- The program comes back, and its value and its last state have the property. -/
def wp (x : Prog σ α) (Q : α → σ → Prop) (s : σ) : Prop := ∃ a t, x s = (.ok a,t) ∧ Q a t

variable {x : Prog σ α} {f : α → Prog σ β} {Q R : α → σ → Prop} {s : σ}

@[simp] theorem wp_pure (a : α) : wp (pure a) Q s ↔ Q a s := by
  constructor
  · rintro ⟨_,_,⟨⟩,h⟩
    exact h
  · exact fun h => ⟨a,s,rfl,h⟩

@[simp] theorem wp_bind {Q : β → σ → Prop} :
    wp (x >>= f) Q s ↔ wp x (fun a t => wp (f a) Q t) s := by
  cases h : x s with
  | mk r t =>
    cases r with
    | ok a => simp [wp,h,bind_of_ok h]
    | error e => simp [wp,h,bind_of_error h]

@[simp] theorem wp_modify {g : σ → σ} {Q : Unit → σ → Prop} :
    wp (modify g) Q s ↔ Q () (g s) := by
  constructor
  · rintro ⟨_,_,⟨⟩,h⟩
    exact h
  · exact fun h => ⟨(),g s,rfl,h⟩

@[simp] theorem wp_stop (e : Stop) : wp (stop e : Prog σ α) Q s ↔ False := by
  simp [wp,stop]

theorem wp_mono (h : wp x Q s) (hQ : ∀ a t, Q a t → R a t) : wp x R s := by
  obtain ⟨a,t,hx,hq⟩ := h
  exact ⟨a,t,hx,hQ a t hq⟩

end WeakestPrecondition

section Keeping

/-- The program leads from every state to a related one, also where it stops. -/
def Keeps (R : σ → σ → Prop) (x : Prog σ α) : Prop := ∀ s, R s (x s).2

variable {R : σ → σ → Prop} {x : Prog σ α} {f : α → Prog σ β}

theorem keeps_pure (hrefl : ∀ s, R s s) (a : α) : Keeps R (pure a : Prog σ α) := hrefl

theorem keeps_stop (hrefl : ∀ s, R s s) (e : Stop) : Keeps R (stop e : Prog σ α) := hrefl

theorem keeps_bind (htrans : ∀ s t u, R s t → R t u → R s u) (hx : Keeps R x)
    (hf : ∀ a, Keeps R (f a)) : Keeps R (x >>= f) := by
  intro s
  have hs := hx s
  cases h : x s with
  | mk r t =>
    rw [h] at hs
    cases r with
    | ok a =>
      rw [bind_of_ok h]
      exact htrans _ _ _ hs (hf a t)
    | error e =>
      rw [bind_of_error h]
      exact hs

theorem keeps_ite {c : Prop} [Decidable c] {x y : Prog σ α} (hx : Keeps R x) (hy : Keeps R y) :
    Keeps R (if c then x else y) := by
  split_ifs
  · exact hx
  · exact hy

theorem keeps_walk {A : Type} {done : Prog σ α} {body : A → (Option A → Prog σ α) → Prog σ α}
    (hrefl : ∀ s, R s s) (hdone : Keeps R done)
    (hbody : ∀ a loop, (∀ p, Keeps R (loop p)) → Keeps R (body a loop)) (fuel : ℕ) (p : Option A) :
    Keeps R (walk done body fuel p) := by
  induction fuel generalizing p with
  | zero =>
    cases p with
    | none => exact hdone
    | some a => exact keeps_stop hrefl _
  | succ fuel ih =>
    cases p with
    | none => exact hdone
    | some a => exact hbody a _ ih

end Keeping

end Programs
end CPrograming
