import Mathlib.Data.Fintype.Card
import Mathlib.Data.Fintype.BigOperators
import Mathlib.Tactic

/-!
# Counting the members of a family

How many members of a finite family have a property, and how that number
changes when one member is replaced.
-/

namespace CPrograming
namespace Counting

variable {ι α : Type*} [Fintype ι]

/-- The number of members of the family with the property. -/
def count (p : α → Prop) [DecidablePred p] (f : ι → α) : ℕ :=
  (Finset.univ.filter fun i => p (f i)).card

def weight (p : α → Prop) [DecidablePred p] (a : α) : ℕ := if p a then 1 else 0

section

variable {p q r : α → Prop} [DecidablePred p] [DecidablePred q] [DecidablePred r] {f : ι → α}

@[simp] theorem weight_of {a : α} (h : p a) : weight p a = 1 := if_pos h

@[simp] theorem weight_of_not {a : α} (h : ¬ p a) : weight p a = 0 := if_neg h

theorem count_eq_sum : count p f = ∑ i, weight p (f i) := by
  simp only [count,weight,Finset.card_filter]

@[simp] theorem count_const (a : α) :
    count p (fun _ : ι => a) = Fintype.card ι * weight p a := by
  simp [count_eq_sum]

theorem count_pos_iff : 0 < count p f ↔ ∃ i, p (f i) := by
  simp only [count,Finset.card_pos,Finset.Nonempty,Finset.mem_filter,Finset.mem_univ,true_and]

theorem count_eq_zero_iff : count p f = 0 ↔ ∀ i, ¬ p (f i) := by
  have h := count_pos_iff (p := p) (f := f)
  constructor
  · intro hz i hi
    exact absurd (h.mpr ⟨i,hi⟩) (by omega)
  · intro hn
    by_contra hc
    obtain ⟨i,hi⟩ := h.mp (by omega)
    exact hn i hi

theorem count_le_card : count p f ≤ Fintype.card ι := Finset.card_filter_le _ _

theorem count_mono (h : ∀ i, p (f i) → q (f i)) : count p f ≤ count q f := by
  apply Finset.card_le_card
  intro i hi
  simp only [Finset.mem_filter,Finset.mem_univ,true_and] at hi ⊢
  exact h i hi

theorem count_split (h : ∀ i, p (f i) ↔ q (f i) ∨ r (f i)) (hd : ∀ i, q (f i) → ¬ r (f i)) :
    count p f = count q f + count r f := by
  simp only [count_eq_sum,← Finset.sum_add_distrib]
  apply Finset.sum_congr rfl
  intro i _
  have hi := h i
  have hn := hd i
  by_cases hq : q (f i) <;> by_cases hr : r (f i) <;> simp_all [weight]

theorem eq_of_count_le_one (h : count p f ≤ 1) {i j : ι} (hi : p (f i)) (hj : p (f j)) :
    i = j := by
  apply Finset.card_le_one.mp h
  · simpa using hi
  · simpa using hj

/-- Replacing one member moves a sum by the difference of the two terms. -/
theorem sum_update [DecidableEq ι] (w : α → ℕ) (i : ι) (a : α) :
    ∑ j, w (Function.update f i a j) + w (f i) = ∑ j, w (f j) + w a := by
  simp only [← Finset.add_sum_erase Finset.univ _ (Finset.mem_univ i)]
  have hrest : ∑ j ∈ Finset.univ.erase i, w (Function.update f i a j) =
      ∑ j ∈ Finset.univ.erase i, w (f j) := by
    apply Finset.sum_congr rfl
    intro j hj
    rw [Function.update_of_ne (Finset.ne_of_mem_erase hj)]
  rw [hrest,Function.update_self]
  omega

theorem count_update [DecidableEq ι] (i : ι) (a : α) :
    count p (Function.update f i a) + weight p (f i) = count p f + weight p a := by
  simp only [count_eq_sum]
  exact sum_update (weight p) i a

end

/-- The members below `k` are replaced, and `k` is the next. -/
theorem update_below {n : ℕ} (k : Fin n) (x y : Fin n → α) :
    Function.update (fun i => if i.val < k.val then x i else y i) k (x k) =
      fun i => if i.val < k.val+1 then x i else y i := by
  funext i
  by_cases hik : i = k
  · simp [hik]
  · have hne : i.val ≠ k.val := fun h => hik (Fin.ext h)
    simp [hik,show i.val < k.val+1 ↔ i.val < k.val by omega]

end Counting
end CPrograming
