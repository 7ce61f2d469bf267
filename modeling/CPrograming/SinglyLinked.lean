import Mathlib.Logic.Function.Basic
import Mathlib.Tactic

/-!
# Singly linked lists

A store maps addresses to cells, and a cell holds a value and a link. `Seg` says that the links
lead from a pointer through a list of addresses with their values to another pointer. What leads
to the null pointer has no cycle.
-/

namespace CPrograming
namespace SinglyLinked

variable {A V : Type*}

structure Link (A V : Type*) where
  value : V
  next : Option A
  deriving DecidableEq, Repr

abbrev Store (A V : Type*) := A → Option (Link A V)

/-- From `p` the links lead through the cells of the list to `q`. -/
def Seg (cell : Store A V) : Option A → List (A × V) → Option A → Prop
  | p, [], q => p = q
  | p, x :: xs, q => p = some x.1 ∧ ∃ r, cell x.1 = some ⟨x.2,r⟩ ∧ Seg cell r xs q

section Segments

variable {cell cell' : Store A V} {p q : Option A} {xs ys : List (A × V)} {a : A} {v : V}

theorem seg_append : Seg cell p (xs ++ ys) q ↔ ∃ r, Seg cell p xs r ∧ Seg cell r ys q := by
  induction xs generalizing p with
  | nil => simp [Seg]
  | cons x xs ih =>
    simp only [List.cons_append,Seg,ih]
    constructor
    · rintro ⟨hp,s,hx,r,hxs,hys⟩
      exact ⟨r,⟨hp,s,hx,hxs⟩,hys⟩
    · rintro ⟨r,⟨hp,s,hx,hxs⟩,hys⟩
      exact ⟨hp,s,hx,r,hxs,hys⟩

theorem Seg.congr (h : Seg cell p xs q) (hcell : ∀ a ∈ xs.map Prod.fst, cell' a = cell a) :
    Seg cell' p xs q := by
  induction xs generalizing p with
  | nil => exact h
  | cons x xs ih =>
    obtain ⟨hp,r,hx,hxs⟩ := h
    refine ⟨hp,r,?_,ih hxs fun a ha => hcell a (by simp [ha])⟩
    rw [hcell x.1 (by simp),hx]

theorem Seg.cell_ne_none (h : Seg cell p xs q) (ha : a ∈ xs.map Prod.fst) : cell a ≠ none := by
  induction xs generalizing p with
  | nil => simp at ha
  | cons x xs ih =>
    obtain ⟨-,r,hx,hxs⟩ := h
    rcases List.mem_cons.mp ha with rfl | ha
    · simp [hx]
    · exact ih hxs ha

theorem Seg.unique (hxs : Seg cell p xs none) (hys : Seg cell p ys none) : xs = ys := by
  induction xs generalizing p ys with
  | nil =>
    obtain rfl : p = none := hxs
    cases ys with
    | nil => rfl
    | cons y ys => exact absurd hys.1 (by simp)
  | cons x xs ih =>
    obtain ⟨rfl,r,hx,hxs⟩ := hxs
    cases ys with
    | nil => exact absurd hys (by simp [Seg])
    | cons y ys =>
      obtain ⟨hxy,s,hy,hys⟩ := hys
      rw [← Option.some.inj hxy,hx] at hy
      obtain ⟨hval,rfl⟩ := Link.mk.inj (Option.some.inj hy)
      rw [Prod.ext (Option.some.inj hxy) hval,ih hxs hys]

theorem Seg.nodup (h : Seg cell p xs none) : (xs.map Prod.fst).Nodup := by
  induction xs generalizing p with
  | nil => exact List.nodup_nil
  | cons x xs ih =>
    obtain ⟨-,r,hx,hxs⟩ := h
    refine List.nodup_cons.mpr ⟨?_,ih hxs⟩
    intro hmem
    obtain ⟨y,hy,hyx⟩ := List.mem_map.mp hmem
    obtain ⟨ys,zs,rfl⟩ := List.append_of_mem hy
    obtain ⟨s,-,hback⟩ := seg_append.mp hxs
    have hagain : Seg cell (some x.1) (x :: (ys ++ y :: zs)) none := ⟨rfl,r,hx,hxs⟩
    obtain rfl : s = some x.1 := hback.1.trans (congrArg some hyx)
    have hlen := congrArg List.length (hback.unique hagain)
    simp at hlen
    omega

variable [DecidableEq A]

theorem Seg.update (h : Seg cell p xs q) (ha : a ∉ xs.map Prod.fst) (c : Option (Link A V)) :
    Seg (Function.update cell a c) p xs q :=
  h.congr fun _ hb => Function.update_of_ne (ne_of_mem_of_not_mem hb ha) _ _

theorem Seg.push (h : Seg cell p xs q) (ha : a ∉ xs.map Prod.fst) (v : V) :
    Seg (Function.update cell a (some ⟨v,p⟩)) (some a) ((a,v) :: xs) q :=
  ⟨rfl,p,Function.update_self _ _ _,h.update ha _⟩

/-- The cell behind another is taken out and dropped. -/
theorem Seg.unlink {b : A} {w : V} {r : Option A}
    (h : Seg cell p (xs ++ (a,v) :: (b,w) :: ys) none) (hb : cell b = some ⟨w,r⟩) :
    Seg (Function.update (Function.update cell a (some ⟨v,r⟩)) b none) p (xs ++ (a,v) :: ys)
      none := by
  have hnodup := h.nodup
  simp only [List.map_append,List.map_cons,List.nodup_append',List.nodup_cons,
    List.disjoint_cons_right,List.mem_cons,not_or] at hnodup
  obtain ⟨-,⟨⟨hab,hay⟩,hby,-⟩,hax,hbx,-⟩ := hnodup
  obtain ⟨s,hxs,rfl,t,-,-,u,hu,hys⟩ := seg_append.mp h
  obtain rfl : r = u := by
    rw [hb] at hu
    exact (Link.mk.inj (Option.some.inj hu)).2
  have hrelinked : Seg (Function.update cell a (some ⟨v,r⟩)) p (xs ++ (a,v) :: ys) none :=
    seg_append.mpr ⟨some a,hxs.update hax _,hys.push hay v⟩
  refine hrelinked.update ?_ none
  simp only [List.map_append,List.map_cons,List.mem_append,List.mem_cons,not_or]
  exact ⟨hbx,Ne.symm hab,hby⟩

end Segments

end SinglyLinked
end CPrograming
