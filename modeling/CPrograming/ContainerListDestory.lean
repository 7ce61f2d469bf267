import CPrograming.ContainerListRefinement

/-!
# Freeing the list of `container/list.c`

`list_destory` frees a node and then reads the node's link to the next one. So it frees
the list as it should only when there is no node.
-/

namespace CPrograming
namespace ContainerList

open Programs DoublyLinked

variable {S : Type} {h : Heap S}

@[simp] theorem wp_freeContainer {Q : Unit → Heap S → Prop} :
    wp freeContainer Q h ↔ (∃ b, h.container = .block b) ∧ Q () { h with container := .freed } := by
  simp [freeContainer]

def Freed (xs : List (Addr × Option S)) (h : Heap S) : Prop :=
  h.container = .freed ∧ ∀ x ∈ xs, h.node x.1 = none

theorem listDestory_nil (hholds : Holds h []) (fuel : ℕ) :
    wp (listDestory fuel) (fun _ h' => Freed [] h') h := by
  obtain ⟨b,hbox,hdll⟩ := hholds
  have hhead : b.head.val = none := hdll.head
  simp [listDestory,hbox,hhead,destoryLoop,Freed]

/-- The first round of the loop follows a pointer to the block that it has just freed. -/
theorem destoryLoop_some {a : Addr} {nd : Node S} (hnode : h.node a = some nd) (fuel : ℕ) :
    destoryLoop (fuel+1) (some a) h = (.error .undefined,h.setNode a none) := by
  have hfree : free (some a) h = (.ok (),h.setNode a none) := by
    rw [free,bind_of_ok (a := (a,nd)) (t := h) (by simp [theNode,hnode])]
    rfl
  have hnext : getNext (some a) (h.setNode a none) = (.error .undefined,h.setNode a none) := by
    rw [getNext,bind_of_error (e := .undefined) (t := h.setNode a none) (by simp [theNode])]
  rw [destoryLoop,walk,bind_of_ok hfree,bind_of_error hnext]

theorem listDestory_cons {x : Addr × Option S} {xs : List (Addr × Option S)}
    (hholds : Holds h (x :: xs)) (fuel : ℕ) :
    (listDestory (fuel+1) h).1 = .error .undefined := by
  obtain ⟨b,hbox,hdll⟩ := hholds
  have hhead : b.head.val = some x.1 := hdll.head
  obtain ⟨nd,hnode,-⟩ := node_of_links hdll.seg.1
  have hnull : isNull h = (.ok false,h) := by simp [isNull,hbox]
  have hread : getHead h = (.ok (some x.1),h.note b.head .head) := by
    rw [getHead,bind_of_ok (a := b) (t := h) (by simp [theBox,hbox]),← hhead]
    rfl
  have hloop : destoryLoop (fuel+1) (some x.1) (h.note b.head .head) =
      (.error .undefined,(h.note b.head .head).setNode x.1 none) :=
    destoryLoop_some (by rw [note_node]; exact hnode) fuel
  rw [listDestory,bind_of_ok hnull,if_neg Bool.false_ne_true,bind_of_ok hread,bind_of_error hloop]

/-- For a well-formed list `list_destory` frees the container and every node, and follows
no pointer to a block that is freed, exactly if the list is empty. Otherwise it reads a
field of the first node after it has freed it. -/
theorem destory_frees_iff (S : Type) (h : Heap S) (xs : List (Addr × Option S)) (fuel : ℕ)
    (hholds : Holds h xs) (hfuel : xs.length ≤ fuel) :
    (wp (listDestory fuel) (fun _ h' => Freed xs h') h ↔ xs = []) ∧
      (xs ≠ [] → (listDestory fuel h).1 = .error .undefined) := by
  cases xs with
  | nil =>
    have hfreed := listDestory_nil hholds fuel
    simp [hfreed]
  | cons x xs =>
    rw [List.length_cons] at hfuel
    obtain ⟨fuel,rfl⟩ : ∃ k, fuel = k+1 := ⟨fuel-1,by omega⟩
    have hstop := listDestory_cons hholds fuel
    refine ⟨⟨?_,fun hnil => absurd hnil (List.cons_ne_nil x xs)⟩,fun _ => hstop⟩
    rintro ⟨_,_,hok,-⟩
    rw [hok] at hstop
    cases hstop

/-- The list that a first `list_insert` makes in blocks of zeros. -/
def oneNode : Heap (List UInt8) :=
  (run id 1 (.zero (List UInt8)) 0 (listCreate (some (Contents.zero (List UInt8)).box))
    [.insert [97] (some 0)]).2

theorem oneNode_holds : Holds oneNode [(0,some [97])] :=
  ⟨_,rfl,⟨by decide,rfl,rfl,rfl,trivial⟩⟩

theorem destory_frees_sample :
    wp (listDestory 3 : Prog (Heap (List UInt8)) Unit) (fun _ h' => Freed [] h')
      (listCreate (some (Contents.zero (List UInt8)).box)) ∧
    ¬ wp (listDestory 3) (fun _ h' => Freed [(0,some [97])] h') oneNode ∧
    (listDestory 3 oneNode).1 = .error .undefined := by
  obtain ⟨hiff,hstop⟩ := destory_frees_iff (List UInt8) oneNode _ 3 oneNode_holds (by decide)
  refine ⟨?_,?_,hstop (by simp)⟩
  · exact (destory_frees_iff (List UInt8) _ [] 3 ⟨_,rfl,Dll.nil _⟩ (by decide)).1.mpr rfl
  · simp [hiff]

/-- A list of one node, on blocks that are filled with zeros. -/
theorem destory_reads_freed :
    (run id 3 (.zero (List UInt8)) 0 (listCreate (some (Contents.zero (List UInt8)).box))
      [.insert [97] (some 0),.destory]).1.map Entry.result =
      [.ok (.int 0),.error .undefined] := by
  rfl

end ContainerList
end CPrograming
