import Mathlib.Data.Fintype.Basic
import Mathlib.Data.Finset.Image
import Mathlib.Tactic

/-!
# Keys of a family

A program keeps a table whose entries have keys, and beside it the set of the
keys of some of the entries. When one entry is replaced, the set has to gain a
key, lose one or stay; which one is right depends on the keys being distinct.
-/

namespace CPrograming
namespace Keys

variable {ι α κ : Type*}

/-- Members with the property differ in their keys. -/
def Distinct (p : α → Prop) (key : α → κ) (f : ι → α) : Prop :=
  Set.InjOn (fun i => key (f i)) {i | p (f i)}

def keys [Fintype ι] [DecidableEq κ] (p : α → Prop) [DecidablePred p] (key : α → κ) (f : ι → α) :
    Finset κ :=
  (Finset.univ.filter fun i => p (f i)).image fun i => key (f i)

variable {p q : α → Prop} {key : α → κ} {f : ι → α}

/-- With more members than keys, some member is without the property. -/
theorem Distinct.exists_not [Fintype ι] {t : Finset κ} (hd : Distinct p key f)
    (hmaps : ∀ i, p (f i) → key (f i) ∈ t) (hcard : t.card < Fintype.card ι) :
    ∃ i, ¬ p (f i) := by
  by_contra hall
  push Not at hall
  have hle : (Finset.univ : Finset ι).card ≤ t.card := by
    refine Finset.card_le_card_of_injOn (fun i => key (f i)) ?_ ?_
    · intro i _
      exact hmaps i (hall i)
    · intro i _ j _ hij
      exact hd (hall i) (hall j) hij
  rw [Finset.card_univ] at hle
  omega

section Sets

variable [Fintype ι] [DecidableEq κ] [DecidablePred p] [DecidablePred q]

@[simp] theorem mem_keys {k : κ} : k ∈ keys p key f ↔ ∃ i, p (f i) ∧ key (f i) = k := by
  simp [keys]

theorem key_mem_keys {i : ι} (h : p (f i)) : key (f i) ∈ keys p key f := mem_keys.mpr ⟨i,h,rfl⟩

theorem keys_mono (h : ∀ a, p a → q a) : keys p key f ⊆ keys q key f := by
  intro k hk
  obtain ⟨i,hi,rfl⟩ := mem_keys.mp hk
  exact key_mem_keys (h _ hi)

theorem keys_eq_empty_iff : keys p key f = ∅ ↔ ∀ i, ¬ p (f i) := by
  simp [keys,Finset.filter_eq_empty_iff]

end Sets

variable [DecidableEq ι] {i : ι} {a : α}

theorem mem_keys_update [Fintype ι] [DecidableEq κ] [DecidablePred p] {k : κ} :
    k ∈ keys p key (Function.update f i a) ↔
      (p a ∧ key a = k) ∨ ∃ j, j ≠ i ∧ p (f j) ∧ key (f j) = k := by
  rw [mem_keys]
  constructor
  · rintro ⟨j,hj,hk⟩
    by_cases hji : j = i
    · subst j
      rw [Function.update_self] at hj hk
      exact Or.inl ⟨hj,hk⟩
    · rw [Function.update_of_ne hji] at hj hk
      exact Or.inr ⟨j,hji,hj,hk⟩
  · rintro (⟨hp,hk⟩ | ⟨j,hji,hj,hk⟩)
    · exact ⟨i,by rwa [Function.update_self],by rwa [Function.update_self]⟩
    · exact ⟨j,by rwa [Function.update_of_ne hji],by rwa [Function.update_of_ne hji]⟩

/-- A member may be replaced by one whose key no other member has. -/
theorem Distinct.update (hd : Distinct p key f)
    (ha : p a → ∀ j, j ≠ i → p (f j) → key (f j) ≠ key a) :
    Distinct p key (Function.update f i a) := by
  intro j (hj : p _) k (hk : p _) (hjk : key _ = key _)
  by_cases hji : j = i <;> by_cases hki : k = i
  · rw [hji,hki]
  · rw [hji,Function.update_self] at hj hjk
    rw [Function.update_of_ne hki] at hk hjk
    exact absurd hjk.symm (ha hj k hki hk)
  · rw [hki,Function.update_self] at hk hjk
    rw [Function.update_of_ne hji] at hj hjk
    exact absurd hjk (ha hk j hji hj)
  · rw [Function.update_of_ne hji] at hj hjk
    rw [Function.update_of_ne hki] at hk hjk
    exact hd hj hk hjk

section Updates

variable [Fintype ι] [DecidableEq κ] [DecidablePred p]

theorem keys_update_insert (hf : ¬ p (f i)) (ha : p a) :
    keys p key (Function.update f i a) = insert (key a) (keys p key f) := by
  ext k
  rw [mem_keys_update,Finset.mem_insert,mem_keys]
  constructor
  · rintro (⟨-,hk⟩ | ⟨j,-,hj⟩)
    · exact Or.inl hk.symm
    · exact Or.inr ⟨j,hj⟩
  · rintro (rfl | ⟨j,hj,hk⟩)
    · exact Or.inl ⟨ha,rfl⟩
    · refine Or.inr ⟨j,?_,hj,hk⟩
      rintro rfl
      exact hf hj

theorem keys_update_erase (hd : Distinct p key f) (hf : p (f i)) (ha : ¬ p a) :
    keys p key (Function.update f i a) = (keys p key f).erase (key (f i)) := by
  ext k
  rw [mem_keys_update,Finset.mem_erase,mem_keys]
  constructor
  · rintro (⟨hp,-⟩ | ⟨j,hji,hj,rfl⟩)
    · exact absurd hp ha
    · exact ⟨fun hk => hji (hd hj hf hk),j,hj,rfl⟩
  · rintro ⟨hne,j,hj,rfl⟩
    refine Or.inr ⟨j,?_,hj,rfl⟩
    rintro rfl
    exact hne rfl

theorem keys_update_same (hp : p a ↔ p (f i)) (hk : p a → key a = key (f i)) :
    keys p key (Function.update f i a) = keys p key f := by
  ext k
  rw [mem_keys_update,mem_keys]
  constructor
  · rintro (⟨ha,rfl⟩ | ⟨j,-,hj⟩)
    · exact ⟨i,hp.mp ha,(hk ha).symm⟩
    · exact ⟨j,hj⟩
  · rintro ⟨j,hj,rfl⟩
    by_cases hji : j = i
    · subst j
      exact Or.inl ⟨hp.mpr hj,hk (hp.mpr hj)⟩
    · exact Or.inr ⟨j,hji,hj,rfl⟩

end Updates

end Keys
end CPrograming
