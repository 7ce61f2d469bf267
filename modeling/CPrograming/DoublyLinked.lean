import Mathlib.Logic.Function.Basic
import Mathlib.Tactic

/-!
# Doubly linked lists

A store maps addresses to cells, and a cell holds a value and two links. `Seg`
says that a list of addresses with their values is linked in both directions
inside the store. Relinking an end of a segment and dropping a cell between two
segments are the only moves; the operations on a whole list are put together from
them.
-/

namespace CPrograming
namespace DoublyLinked

variable {A V : Type*}

structure Link (A V : Type*) where
  val : V
  next : Option A
  last : Option A

abbrev Store (A V : Type*) := A → Option (Link A V)

def front (xs : List (A × V)) : Option A := xs.head?.map Prod.fst

def back (xs : List (A × V)) : Option A := xs.getLast?.map Prod.fst

@[simp] theorem front_nil : front ([] : List (A × V)) = none := rfl

@[simp] theorem front_cons (x : A × V) (xs : List (A × V)) : front (x :: xs) = some x.1 := rfl

@[simp] theorem back_nil : back ([] : List (A × V)) = none := rfl

@[simp] theorem front_append (xs ys : List (A × V)) :
    front (xs ++ ys) = (front xs).or (front ys) := by
  cases xs <;> simp

@[simp] theorem back_append (xs ys : List (A × V)) :
    back (xs ++ ys) = (back ys).or (back xs) := by
  simp only [back,List.getLast?_append]
  cases ys.getLast? <;> simp

@[simp] theorem back_singleton (x : A × V) : back [x] = some x.1 := rfl

theorem back_cons (x : A × V) (xs : List (A × V)) : back (x :: xs) = (back xs).or (some x.1) := by
  rw [← List.singleton_append,back_append,back_singleton]

theorem mem_of_front {xs : List (A × V)} {a : A} (h : front xs = some a) :
    a ∈ xs.map Prod.fst := by
  cases xs with
  | nil => simp at h
  | cons x xs => simp [← Option.some.inj h]

theorem mem_of_back {xs : List (A × V)} {a : A} (h : back xs = some a) :
    a ∈ xs.map Prod.fst := by
  obtain ⟨x,hx,rfl⟩ := Option.map_eq_some_iff.mp h
  exact List.mem_map_of_mem (List.mem_of_getLast? hx)

theorem front_eq_none_iff {xs : List (A × V)} : front xs = none ↔ xs = [] := by
  cases xs <;> simp

theorem back_eq_none_iff {xs : List (A × V)} : back xs = none ↔ xs = [] := by
  simp [back]

/-- The cells of the list are linked in both directions; the first points back to
`prev` and the last on to `nxt`. -/
def Seg (cell : Store A V) : Option A → List (A × V) → Option A → Prop
  | _, [], _ => True
  | prev, x :: xs, nxt =>
    cell x.1 = some ⟨x.2,(front xs).or nxt,prev⟩ ∧ Seg cell (some x.1) xs nxt

section Segments

variable {cell cell' : Store A V} {prev nxt : Option A} {xs ys : List (A × V)}

theorem seg_append : Seg cell prev (xs ++ ys) nxt ↔
    Seg cell prev xs ((front ys).or nxt) ∧ Seg cell ((back xs).or prev) ys nxt := by
  induction xs generalizing prev with
  | nil => simp [Seg]
  | cons x xs ih =>
    have hback : (back (x :: xs)).or prev = (back xs).or (some x.1) := by
      rw [back_cons,Option.or_assoc,Option.some_or]
    rw [List.cons_append,Seg,Seg,ih,hback,front_append,Option.or_assoc,and_assoc]

/-- A segment depends on its own cells only. -/
theorem Seg.congr (h : Seg cell prev xs nxt)
    (hcell : ∀ a ∈ xs.map Prod.fst, cell' a = cell a) : Seg cell' prev xs nxt := by
  induction xs generalizing prev with
  | nil => trivial
  | cons x xs ih =>
    refine ⟨?_,ih h.2 fun a ha => hcell a (by simp [ha])⟩
    rw [hcell x.1 (by simp),h.1]

theorem Seg.vals (h : Seg cell prev xs nxt) :
    ((xs.map Prod.fst).map fun a => (cell a).map Link.val) = xs.map fun x => some x.2 := by
  induction xs generalizing prev with
  | nil => rfl
  | cons x xs ih => simp [h.1,← ih h.2]

/-- From `p` on the links lead through these addresses and end. -/
def Chain (link : A → Option (Option A)) : Option A → List A → Prop
  | p, [] => p = none
  | p, a :: as => p = some a ∧ ∃ q, link a = some q ∧ Chain link q as

theorem Seg.next_chain {rest : List A} (h : Seg cell prev xs nxt)
    (hrest : Chain (fun a => (cell a).map Link.next) nxt rest) :
    Chain (fun a => (cell a).map Link.next) ((front xs).or nxt) (xs.map Prod.fst ++ rest) := by
  induction xs generalizing prev with
  | nil => exact hrest
  | cons x xs ih => exact ⟨rfl,_,congrArg (Option.map Link.next) h.1,ih h.2⟩

theorem Seg.last_chain {rest : List A} (h : Seg cell prev xs nxt)
    (hrest : Chain (fun a => (cell a).map Link.last) prev rest) :
    Chain (fun a => (cell a).map Link.last) ((back xs).or prev)
      ((xs.map Prod.fst).reverse ++ rest) := by
  induction xs generalizing prev rest with
  | nil => exact hrest
  | cons x xs ih =>
    have hcons : Chain (fun a => (cell a).map Link.last) (some x.1) (x.1 :: rest) :=
      ⟨rfl,prev,congrArg (Option.map Link.last) h.1,hrest⟩
    have htail := ih h.2 hcons
    rw [back_cons,Option.or_assoc,Option.some_or]
    simpa using htail

end Segments

section Relinking

variable [DecidableEq A] {cell : Store A V} {prev nxt : Option A} {xs : List (A × V)}

/-- `if (p) p->next = q;` -/
def setNext (cell : Store A V) (p q : Option A) : Store A V :=
  match p with
  | none => cell
  | some a => Function.update cell a ((cell a).map fun c => { c with next := q })

def setLast (cell : Store A V) (p q : Option A) : Store A V :=
  match p with
  | none => cell
  | some a => Function.update cell a ((cell a).map fun c => { c with last := q })

theorem setNext_of_ne {p q : Option A} {a : A} (h : p ≠ some a) : setNext cell p q a = cell a := by
  cases p with
  | none => rfl
  | some b => exact Function.update_of_ne (fun hab => h (by rw [hab])) _ _

theorem setLast_of_ne {p q : Option A} {a : A} (h : p ≠ some a) : setLast cell p q a = cell a := by
  cases p with
  | none => rfl
  | some b => exact Function.update_of_ne (fun hab => h (by rw [hab])) _ _

theorem Seg.setNext_back (h : Seg cell prev xs nxt) (hxs : (xs.map Prod.fst).Nodup)
    (nxt' : Option A) : Seg (setNext cell (back xs) nxt') prev xs nxt' := by
  rcases List.eq_nil_or_concat xs with rfl | ⟨ys,x,rfl⟩
  · trivial
  · rw [List.concat_eq_append] at h hxs ⊢
    obtain ⟨hys,hx⟩ := seg_append.mp h
    have hnot : x.1 ∉ ys.map Prod.fst := by
      rw [List.map_append,List.nodup_append'] at hxs
      exact fun hmem => hxs.2.2 hmem (by simp)
    have hback : back (ys ++ [x]) = some x.1 := by simp
    rw [hback,seg_append]
    refine ⟨hys.congr fun a ha => setNext_of_ne ?_,?_,trivial⟩
    · rintro ⟨rfl⟩
      exact hnot ha
    · simp [setNext,hx.1]

theorem Seg.setLast_front (h : Seg cell prev xs nxt) (hxs : (xs.map Prod.fst).Nodup)
    (prev' : Option A) : Seg (setLast cell (front xs) prev') prev' xs nxt := by
  cases xs with
  | nil => trivial
  | cons x xs =>
    rw [List.map_cons,List.nodup_cons] at hxs
    refine ⟨?_,h.2.congr fun a ha => setLast_of_ne ?_⟩
    · simp [setLast,h.1]
    · rintro ⟨rfl⟩
      exact hxs.1 ha

end Relinking

/-- A whole list, with the addresses of its ends. -/
structure Dll (cell : Store A V) (head tail : Option A) (xs : List (A × V)) : Prop where
  nodup : (xs.map Prod.fst).Nodup
  head : head = front xs
  tail : tail = back xs
  seg : Seg cell none xs none

namespace Dll

variable {cell cell' : Store A V} {head tail : Option A} {xs ys zs : List (A × V)} {a : A} {v : V}

theorem nil (cell : Store A V) : Dll cell none none [] := ⟨List.nodup_nil,rfl,rfl,trivial⟩

theorem get (h : Dll cell head tail (ys ++ (a,v) :: zs)) :
    cell a = some ⟨v,front zs,back ys⟩ := by
  have hseg := (seg_append.mp h.seg).2
  simpa using hseg.1

theorem ne_of_back (h : Dll cell head tail (ys ++ (a,v) :: zs)) {y : A} (hy : back ys = some y) :
    y ≠ a := by
  have hnodup := h.nodup
  rw [List.map_append,List.map_cons,List.nodup_append'] at hnodup
  rintro rfl
  exact hnodup.2.2 (mem_of_back hy) List.mem_cons_self

theorem ne_of_front (h : Dll cell head tail (ys ++ (a,v) :: zs)) {z : A} (hz : front zs = some z) :
    z ≠ a := by
  have hnodup := h.nodup
  rw [List.map_append,List.map_cons,List.nodup_append',List.nodup_cons] at hnodup
  rintro rfl
  exact hnodup.2.1.1 (mem_of_front hz)

theorem back_ne_front (h : Dll cell head tail (ys ++ (a,v) :: zs)) {y z : A}
    (hy : back ys = some y) (hz : front zs = some z) : y ≠ z := by
  have hnodup := h.nodup
  rw [List.map_append,List.map_cons,List.nodup_append'] at hnodup
  rintro rfl
  exact hnodup.2.2 (mem_of_back hy) (List.mem_cons_of_mem a (mem_of_front hz))

theorem head_unlink (h : Dll cell head tail (ys ++ (a,v) :: zs)) {y : A} (hy : back ys = some y) :
    head = front (ys ++ zs) := by
  cases ys with
  | nil => simp at hy
  | cons y ys => simpa using h.head

theorem tail_unlink (h : Dll cell head tail (ys ++ (a,v) :: zs)) {z : A} (hz : front zs = some z) :
    tail = back (ys ++ zs) := by
  rcases List.eq_nil_or_concat zs with rfl | ⟨ws,w,rfl⟩
  · simp at hz
  · rw [List.concat_eq_append] at h ⊢
    rw [h.tail,← List.cons_append,← List.append_assoc,← List.append_assoc,back_append,back_append]
    simp

theorem cell_ne_none (h : Dll cell head tail xs) (ha : a ∈ xs.map Prod.fst) : cell a ≠ none := by
  obtain ⟨⟨b,v⟩,hmem,rfl⟩ := List.mem_map.mp ha
  obtain ⟨ys,zs,rfl⟩ := List.append_of_mem hmem
  simp [h.get]

/-- The chain of next links from the head is the list, and the chain of last links from
the tail is its reverse. -/
theorem chains (h : Dll cell head tail xs) :
    Chain (fun a => (cell a).map Link.next) head (xs.map Prod.fst) ∧
      Chain (fun a => (cell a).map Link.last) tail (xs.map Prod.fst).reverse := by
  have hend : ∀ link : A → Option (Option A), Chain link none [] := fun _ => rfl
  have hnext := h.seg.next_chain (hend _)
  have hlast := h.seg.last_chain (hend _)
  rw [h.head,h.tail]
  simpa using And.intro hnext hlast

theorem head_eq_none_iff (h : Dll cell head tail xs) : head = none ↔ xs = [] := by
  rw [h.head,front_eq_none_iff]

theorem tail_eq_none_iff (h : Dll cell head tail xs) : tail = none ↔ xs = [] := by
  rw [h.tail,back_eq_none_iff]

variable [DecidableEq A]

theorem pushFront (h : Dll cell head tail xs) (ha : a ∉ xs.map Prod.fst) (v : V) :
    Dll (Function.update (setLast cell head (some a)) a (some ⟨v,head,none⟩))
      (some a) (tail.or (some a)) ((a,v) :: xs) := by
  refine ⟨List.nodup_cons.mpr ⟨ha,h.nodup⟩,rfl,by rw [back_cons,h.tail],?_,?_⟩
  · simp [h.head]
  · rw [h.head]
    refine (h.seg.setLast_front h.nodup (some a)).congr fun b hb => ?_
    exact Function.update_of_ne (ne_of_mem_of_not_mem hb ha) _ _

theorem pushBack (h : Dll cell head tail xs) (ha : a ∉ xs.map Prod.fst) (v : V) :
    Dll (Function.update (setNext cell tail (some a)) a (some ⟨v,none,tail⟩))
      (head.or (some a)) (some a) (xs ++ [(a,v)]) := by
  refine ⟨?_,by simp [h.head],by simp,seg_append.mpr ⟨?_,?_,trivial⟩⟩
  · rw [List.map_append,List.nodup_append']
    refine ⟨h.nodup,List.nodup_singleton a,?_⟩
    simpa using ha
  · rw [h.tail]
    refine (h.seg.setNext_back h.nodup (some a)).congr fun b hb => ?_
    exact Function.update_of_ne (ne_of_mem_of_not_mem hb ha) _ _
  · simp [h.tail]

/-- The neighbours of a member are linked to each other and its cell is dropped. -/
theorem unlink (h : Dll cell head tail (ys ++ (a,v) :: zs)) :
    Dll (Function.update (setLast (setNext cell (back ys) (front zs)) (front zs) (back ys)) a none)
      (front (ys ++ zs)) (back (ys ++ zs)) (ys ++ zs) := by
  obtain ⟨hys,-,hzs⟩ := seg_append.mp h.seg
  have hnodup := h.nodup
  rw [List.map_append,List.map_cons,List.nodup_append',List.nodup_cons] at hnodup
  obtain ⟨hny,⟨haz,hnz⟩,hdisj⟩ := hnodup
  have hay : a ∉ ys.map Prod.fst := fun hmem => hdisj hmem List.mem_cons_self
  have hyz : ∀ b ∈ ys.map Prod.fst, b ∉ zs.map Prod.fst :=
    fun b hb hz => hdisj hb (List.mem_cons_of_mem a hz)
  refine ⟨?_,rfl,rfl,seg_append.mpr ⟨?_,?_⟩⟩
  · rw [List.map_append,List.nodup_append']
    exact ⟨hny,hnz,fun b hb => hyz b hb⟩
  · rw [Option.or_none]
    refine (hys.setNext_back hny (front zs)).congr fun b hb => ?_
    rw [Function.update_of_ne (ne_of_mem_of_not_mem hb hay)]
    exact setLast_of_ne fun hfront => hyz b hb (mem_of_front hfront)
  · rw [Option.or_none]
    have hkeep : Seg (setNext cell (back ys) (front zs)) (some a) zs none :=
      hzs.congr fun b hb => setNext_of_ne fun hback => hyz b (mem_of_back hback) hb
    refine (hkeep.setLast_front hnz (back ys)).congr fun b hb => ?_
    exact Function.update_of_ne (ne_of_mem_of_not_mem hb haz) _ _

end Dll

end DoublyLinked
end CPrograming
