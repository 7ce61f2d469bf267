import CPrograming.ContainerList

/-!
# The list of `container/list.c` refines a sequence

With blocks that are filled with zeros the heap holds a doubly linked list at every
moment between two calls, and each call does to it what its specification does to the
plain sequence of the strings. `list_create` may have failed; then the calls that test
for `NULL` still return what they should, and the others follow the pointer.
-/

namespace CPrograming
namespace ContainerList

open Programs DoublyLinked

variable {S : Type}

def Node.link (nd : Node S) : Link Addr (Option S) := ⟨nd.val.val,nd.next.val,nd.last.val⟩

def Heap.links (h : Heap S) : Store Addr (Option S) := fun a => (h.node a).map Node.link

section Heaps

variable {α : Type} (h : Heap S) (c : Cell α) (f : Field) (b : Box) (a : Addr)
  (nd : Option (Node S))

@[simp] theorem note_container : (h.note c f).container = h.container := by
  simp only [Heap.note]
  split_ifs <;> rfl

@[simp] theorem note_node : (h.note c f).node = h.node := by
  simp only [Heap.note]
  split_ifs <;> rfl

@[simp] theorem setBox_container : (h.setBox b).container = .block b := rfl

@[simp] theorem setBox_node : (h.setBox b).node = h.node := rfl

@[simp] theorem setNode_container : (h.setNode a nd).container = h.container := rfl

@[simp] theorem setNode_node : (h.setNode a nd).node = Function.update h.node a nd := rfl

@[simp] theorem note_links : (h.note c f).links = h.links := by
  funext c
  simp [Heap.links]

@[simp] theorem setBox_links : (h.setBox b).links = h.links := rfl

@[simp] theorem setNode_links :
    (h.setNode a nd).links = Function.update h.links a (nd.map Node.link) := by
  funext c
  by_cases hc : c = a
  · subst c
    simp [Heap.links]
  · simp [Heap.links,hc]

end Heaps

section Rules

variable {h : Heap S}

@[simp] theorem wp_theBox {Q : Box → Heap S → Prop} :
    wp theBox Q h ↔ ∃ b, h.container = .block b ∧ Q b h := by
  cases hc : h.container <;> simp [wp,theBox,hc]

@[simp] theorem wp_theNode {p : Ptr} {Q : Addr × Node S → Heap S → Prop} :
    wp (theNode p) Q h ↔ ∃ a nd, p = some a ∧ h.node a = some nd ∧ Q (a,nd) h := by
  cases p with
  | none => simp [wp,theNode]
  | some a => cases hn : h.node a <;> simp [wp,theNode,hn]

@[simp] theorem wp_read {α : Type} {c : Cell α} {f : Field} {Q : α → Heap S → Prop} :
    wp (read c f) Q h ↔ Q c.val (h.note c f) := by
  simp [read]

@[simp] theorem wp_getHead {Q : Ptr → Heap S → Prop} :
    wp getHead Q h ↔ ∃ b, h.container = .block b ∧ Q b.head.val (h.note b.head .head) := by
  simp [getHead]

@[simp] theorem wp_getTail {Q : Ptr → Heap S → Prop} :
    wp getTail Q h ↔ ∃ b, h.container = .block b ∧ Q b.tail.val (h.note b.tail .tail) := by
  simp [getTail]

@[simp] theorem wp_setHead {p : Ptr} {Q : Unit → Heap S → Prop} :
    wp (setHead p) Q h ↔
      ∃ b, h.container = .block b ∧ Q () (h.setBox { b with head := ⟨p,true⟩ }) := by
  simp [setHead]

@[simp] theorem wp_setTail {p : Ptr} {Q : Unit → Heap S → Prop} :
    wp (setTail p) Q h ↔
      ∃ b, h.container = .block b ∧ Q () (h.setBox { b with tail := ⟨p,true⟩ }) := by
  simp [setTail]

@[simp] theorem wp_getVal {a : Addr} {Q : Option S → Heap S → Prop} :
    wp (getVal (some a)) Q h ↔
      ∃ nd, h.node a = some nd ∧ Q nd.val.val (h.note nd.val (.val a)) := by
  simp [getVal]

@[simp] theorem wp_getNext {a : Addr} {Q : Ptr → Heap S → Prop} :
    wp (getNext (some a)) Q h ↔
      ∃ nd, h.node a = some nd ∧ Q nd.next.val (h.note nd.next (.next a)) := by
  simp [getNext]

@[simp] theorem wp_getLast {a : Addr} {Q : Ptr → Heap S → Prop} :
    wp (getLast (some a)) Q h ↔
      ∃ nd, h.node a = some nd ∧ Q nd.last.val (h.note nd.last (.last a)) := by
  simp [getLast]

@[simp] theorem wp_setVal {a : Addr} {v : Option S} {Q : Unit → Heap S → Prop} :
    wp (setVal (some a) v) Q h ↔
      ∃ nd, h.node a = some nd ∧ Q () (h.setNode a (some { nd with val := ⟨v,true⟩ })) := by
  simp [setVal]

@[simp] theorem wp_setNext {a : Addr} {q : Ptr} {Q : Unit → Heap S → Prop} :
    wp (setNext (some a) q) Q h ↔
      ∃ nd, h.node a = some nd ∧ Q () (h.setNode a (some { nd with next := ⟨q,true⟩ })) := by
  simp [setNext]

@[simp] theorem wp_setLast {a : Addr} {q : Ptr} {Q : Unit → Heap S → Prop} :
    wp (setLast (some a) q) Q h ↔
      ∃ nd, h.node a = some nd ∧ Q () (h.setNode a (some { nd with last := ⟨q,true⟩ })) := by
  simp [setLast]

@[simp] theorem wp_free {a : Addr} {Q : Unit → Heap S → Prop} :
    wp (free (some a)) Q h ↔ (∃ nd, h.node a = some nd) ∧ Q () (h.setNode a none) := by
  simp [free]

@[simp] theorem wp_isNull {Q : Bool → Heap S → Prop} :
    wp isNull Q h ↔ Q (h.container = .null) h := by
  simp [wp,isNull]

end Rules

/-- The container and its nodes are the doubly linked list of these cells. -/
def Holds (h : Heap S) (xs : List (Addr × Option S)) : Prop :=
  ∃ b, h.container = .block b ∧ Dll h.links b.head.val b.tail.val xs

section Calls

variable {h : Heap S} {xs ys zs : List (Addr × Option S)}

theorem Holds.of_dll {b : Box} {cell : Store Addr (Option S)} {head tail : Ptr}
    (hdll : Dll cell head tail xs) (hbox : h.container = .block b) (hlinks : h.links = cell)
    (hhead : b.head.val = head) (htail : b.tail.val = tail) : Holds h xs := by
  subst hlinks hhead htail
  exact ⟨b,hbox,hdll⟩

@[simp] theorem holds_note {α : Type} (c : Cell α) (f : Field) :
    Holds (h.note c f) xs ↔ Holds h xs := by
  simp [Holds]

theorem node_of_links {a : Addr} {l : Link Addr (Option S)} (hl : h.links a = some l) :
    ∃ nd, h.node a = some nd ∧ nd.link = l := Option.map_eq_some_iff.mp hl

theorem node_of_mem {head tail : Ptr} (hdll : Dll h.links head tail xs) {a : Addr}
    (ha : a ∈ xs.map Prod.fst) : ∃ nd, h.node a = some nd := by
  have hne := hdll.cell_ne_none ha
  rw [Heap.links,Ne,Option.map_eq_none_iff] at hne
  exact Option.ne_none_iff_exists'.mp hne

theorem wp_malloc_granted {a : Addr} {nd : Node S} {Q : Ptr → Heap S → Prop}
    (ha : h.node a = none) : wp (malloc (some a) nd) Q h ↔ Q (some a) (h.setNode a (some nd)) := by
  simp [wp,malloc,ha]

theorem wp_malloc_refused {block : Option Addr} {nd : Node S} {Q : Ptr → Heap S → Prop}
    (hno : grants h block = false) : wp (malloc block nd) Q h ↔ Q none h := by
  cases block with
  | none => simp [wp,malloc]
  | some a =>
    cases hn : h.node a with
    | none => simp [grants,hn] at hno
    | some nd' => simp [wp,malloc,hn]

theorem grants_iff {block : Option Addr} :
    grants h block = true ↔ ∃ a, block = some a ∧ h.node a = none := by
  cases block <;> simp [grants]

theorem listInsert_granted (hholds : Holds h xs) (val : S) {a : Addr} {nd : Node S}
    (ha : h.node a = none) (hnext : nd.next.val = none) (hlast : nd.last.val = none) :
    wp (listInsert val (some a) nd) (fun r h' => r = 0 ∧ Holds h' ((a,some val) :: xs)) h := by
  obtain ⟨b,hbox,hdll⟩ := hholds
  have hnew : a ∉ xs.map Prod.fst := fun hmem => hdll.cell_ne_none hmem (by simp [Heap.links,ha])
  have hpush := hdll.pushFront hnew (some val)
  rw [listInsert,wp_bind,wp_malloc_granted ha]
  cases xs with
  | nil =>
    have hhead : b.head.val = none := hdll.head
    have htail : b.tail.val = none := hdll.tail
    rw [hhead,htail] at hpush
    suffices hgoal : Holds _ [(a,some val)] by simpa [linkFirst,hbox,hhead] using hgoal
    refine .of_dll hpush rfl ?_ rfl rfl
    simp [DoublyLinked.setLast,Node.link,hnext,hlast]
  | cons x xs =>
    have hhead : b.head.val = some x.1 := hdll.head
    have hx : x.1 ≠ a := fun hxa => hnew (by simp [hxa])
    obtain ⟨nd₁,hnode,-⟩ := node_of_links hdll.seg.1
    have htail : b.tail.val.or (some a) = b.tail.val := by
      rw [hdll.tail,back_cons,Option.or_assoc,Option.some_or]
    rw [hhead,htail] at hpush
    suffices hgoal : Holds _ ((a,some val) :: x :: xs) by
      simpa [linkFirst,hbox,hhead,hx,hx.symm,hnode] using hgoal
    refine .of_dll hpush rfl ?_ rfl rfl
    funext c
    by_cases hca : c = a
    · subst c
      simp [Node.link,hlast]
    · by_cases hcx : c = x.1
      · subst c
        simp [DoublyLinked.setLast,hx,Heap.links,hnode,Node.link]
      · simp [DoublyLinked.setLast,hca,hcx]

theorem listAppend_granted (hholds : Holds h xs) (val : S) {a : Addr} {nd : Node S}
    (ha : h.node a = none) (hnext : nd.next.val = none) (hlast : nd.last.val = none) :
    wp (listAppend val (some a) nd) (fun r h' => r = 0 ∧ Holds h' (xs ++ [(a,some val)])) h := by
  obtain ⟨b,hbox,hdll⟩ := hholds
  have hnew : a ∉ xs.map Prod.fst := fun hmem => hdll.cell_ne_none hmem (by simp [Heap.links,ha])
  have hpush := hdll.pushBack hnew (some val)
  rw [listAppend,wp_bind,wp_malloc_granted ha]
  rcases List.eq_nil_or_concat xs with rfl | ⟨ys,x,rfl⟩
  · have hhead : b.head.val = none := hdll.head
    have htail : b.tail.val = none := hdll.tail
    rw [hhead,htail] at hpush
    suffices hgoal : Holds _ [(a,some val)] by simpa [linkLast,hbox,htail] using hgoal
    refine .of_dll hpush rfl ?_ rfl rfl
    simp [DoublyLinked.setNext,Node.link,hnext,hlast]
  · rw [List.concat_eq_append] at hdll hnew hpush ⊢
    have htail : b.tail.val = some x.1 := by simpa using hdll.tail
    have hx : x.1 ≠ a := fun hxa => hnew (by simp [hxa])
    obtain ⟨nd₁,hnode,-⟩ := node_of_links hdll.get
    have hhead : b.head.val.or (some a) = b.head.val := by
      rw [hdll.head,front_append,front_cons,Option.or_assoc,Option.some_or]
    rw [hhead,htail] at hpush
    suffices hgoal : Holds _ (ys ++ [x] ++ [(a,some val)]) by
      simpa [linkLast,hbox,htail,hx,hx.symm,hnode] using hgoal
    refine .of_dll hpush rfl ?_ rfl rfl
    funext c
    by_cases hca : c = a
    · subst c
      simp [Node.link,hnext]
    · by_cases hcx : c = x.1
      · subst c
        simp [DoublyLinked.setNext,hx,Heap.links,hnode,Node.link]
      · simp [DoublyLinked.setNext,hca,hcx]

theorem unlink_spec {a : Addr} {v : Option S} (hholds : Holds h (ys ++ (a,v) :: zs)) :
    wp (unlink (some a)) (fun r h' => r = 0 ∧ Holds h' (ys ++ zs)) h := by
  obtain ⟨b,hbox,hdll⟩ := hholds
  obtain ⟨nd,hnode,hlink⟩ := node_of_links hdll.get
  have hnext : nd.next.val = front zs := congrArg Link.next hlink
  have hlast : nd.last.val = back ys := congrArg Link.last hlink
  have hunlink := hdll.unlink
  cases hy : back ys with
  | none =>
    have hys : ys = [] := back_eq_none_iff.mp hy
    subst hys
    cases hz : front zs with
    | none =>
      have hzs : zs = [] := front_eq_none_iff.mp hz
      subst hzs
      suffices hgoal : Holds _ [] by
        simpa [unlink,isOnly,clearEnds,relinkLast,relinkNext,hbox,hnode,hnext,hlast] using hgoal
      refine .of_dll hunlink rfl ?_ rfl rfl
      simp [DoublyLinked.setNext,DoublyLinked.setLast]
    | some z =>
      obtain ⟨ndz,hnodez⟩ := node_of_mem hdll (show z ∈ _ by simp [mem_of_front hz])
      have hza := hdll.ne_of_front hz
      have htail := hdll.tail_unlink hz
      suffices hgoal : Holds _ zs by
        simpa [unlink,isOnly,clearEnds,relinkLast,relinkNext,hbox,hnode,hnext,hlast,
          hz,hnodez,hza,hza.symm] using hgoal
      refine .of_dll (b := ⟨⟨some z,true⟩,b.tail⟩) hunlink (by simp) ?_ hz.symm htail
      simp [DoublyLinked.setNext,DoublyLinked.setLast,hz,Heap.links,hnodez,Node.link]
  | some y =>
    obtain ⟨ndy,hnodey⟩ := node_of_mem hdll (show y ∈ _ by simp [mem_of_back hy])
    have hya := hdll.ne_of_back hy
    have hhead := hdll.head_unlink hy
    cases hz : front zs with
    | none =>
      have hzs : zs = [] := front_eq_none_iff.mp hz
      subst hzs
      suffices hgoal : Holds _ (ys ++ []) by
        simpa [unlink,isOnly,clearEnds,relinkLast,relinkNext,hbox,hnode,hnext,hlast,
          hy,hnodey,hya,hya.symm] using hgoal
      refine .of_dll (b := ⟨b.head,⟨some y,true⟩⟩) hunlink (by simp) ?_ hhead (by simp [hy])
      simp [DoublyLinked.setNext,DoublyLinked.setLast,hy,Heap.links,hnodey,Node.link]
    | some z =>
      obtain ⟨ndz,hnodez⟩ := node_of_mem hdll (show z ∈ _ by simp [mem_of_front hz])
      have hza := hdll.ne_of_front hz
      have hyz := hdll.back_ne_front hy hz
      have htail := hdll.tail_unlink hz
      suffices hgoal : Holds _ (ys ++ zs) by
        simpa [unlink,isOnly,clearEnds,relinkLast,relinkNext,hbox,hnode,hnext,hlast,
          hy,hz,hnodey,hya,hya.symm,hnodez,hza,hza.symm,hyz,
          hyz.symm] using hgoal
      refine .of_dll (b := b) hunlink (by simp [hbox]) ?_ hhead htail
      simp [DoublyLinked.setNext,DoublyLinked.setLast,hy,hz,Heap.links,hnodey,hnodez,hyz.symm,
        Node.link]

theorem listRemove_nil (hholds : Holds h []) :
    wp listRemove (fun r h' => r = none ∧ Holds h' []) h := by
  obtain ⟨b,hbox,hdll⟩ := hholds
  have htail : b.tail.val = none := hdll.tail
  have hgoal : Holds h [] := ⟨b,hbox,hdll⟩
  simpa [listRemove,dropLast,hbox,htail] using hgoal

theorem listRemove_concat {x : Addr × Option S} (hholds : Holds h (ys ++ [x])) :
    wp listRemove (fun r h' => r = x.2 ∧ Holds h' ys) h := by
  obtain ⟨b,hbox,hdll⟩ := hholds
  have htail : b.tail.val = some x.1 := by simpa using hdll.tail
  obtain ⟨nd,hnode,hlink⟩ := node_of_links hdll.get
  have hval : nd.val.val = x.2 := congrArg Link.val hlink
  have hlast : nd.last.val = back ys := congrArg Link.last hlink
  have hunlink := hdll.unlink
  cases hy : back ys with
  | none =>
    have hys : ys = [] := back_eq_none_iff.mp hy
    subst hys
    suffices hgoal : Holds _ [] by
      simpa [listRemove,dropLast,hbox,htail,hnode,hval,hlast] using hgoal
    refine .of_dll hunlink rfl ?_ rfl rfl
    simp [DoublyLinked.setNext,DoublyLinked.setLast]
  | some y =>
    obtain ⟨ndy,hnodey⟩ := node_of_mem hdll (show y ∈ _ by simp [mem_of_back hy])
    have hya := hdll.ne_of_back hy
    have hhead := hdll.head_unlink hy
    rw [List.append_nil] at hunlink hhead
    suffices hgoal : Holds _ ys by
      simpa [listRemove,dropLast,hbox,htail,hnode,hval,hlast,hy,hnodey,hya,hya.symm] using hgoal
    refine .of_dll (b := ⟨b.head,⟨some y,true⟩⟩) hunlink (by simp) ?_ hhead hy.symm
    simp [DoublyLinked.setNext,DoublyLinked.setLast,hy,Heap.links,hnodey,Node.link]

end Calls

section Loops

variable {h : Heap S} (text : S → List UInt8) (val : S)

def same (s : S) : Bool := text s = text val

@[simp] theorem wp_strcmpEq {s : S} {Q : Bool → Heap S → Prop} :
    wp (strcmpEq text (some s) val) Q h ↔ Q (same text val s) h := by
  simp [strcmpEq,same]

/-- A loop is at `z`: the string found there, and the way on with the list as it was. -/
theorem Holds.visit {ys zs : List (Addr × Option S)} {z : Addr × Option S} {ws : List S}
    (hholds : Holds h (ys ++ z :: zs)) (hvals : (z :: zs).map Prod.snd = ws.map some) :
    ∃ nd w ws', ws = w :: ws' ∧ z.2 = some w ∧ zs.map Prod.snd = ws'.map some ∧
      h.node z.1 = some nd ∧ nd.val.val = some w ∧ nd.next.val = front zs ∧
      Holds ((h.note nd.val (.val z.1)).note nd.next (.next z.1)) ((ys ++ [z]) ++ zs) := by
  have hmem : Holds h ((ys ++ [z]) ++ zs) := by simpa using hholds
  obtain ⟨b,-,hdll⟩ := hholds
  obtain ⟨nd,hnode,hlink⟩ := node_of_links hdll.get
  have hval : nd.val.val = z.2 := congrArg Link.val hlink
  cases ws with
  | nil => simp at hvals
  | cons w ws =>
    obtain ⟨hw,hvals⟩ : z.2 = some w ∧ zs.map Prod.snd = ws.map some := by simpa using hvals
    exact ⟨nd,w,ws,rfl,hw,hvals,hnode,hval.trans hw,congrArg Link.next hlink,by simpa using hmem⟩

theorem searchLoop_spec (ys : List (Addr × Option S)) {zs : List (Addr × Option S)} {ws : List S}
    {fuel : ℕ} (hholds : Holds h (ys ++ zs)) (hvals : zs.map Prod.snd = ws.map some)
    (hfuel : zs.length ≤ fuel) :
    wp (searchLoop text val fuel (front zs))
      (fun r h' => r = ws.find? (same text val) ∧ Holds h' (ys ++ zs)) h := by
  induction zs generalizing h ys ws fuel with
  | nil =>
    obtain rfl : ws = [] := by simpa using hvals
    simpa [searchLoop,walk] using hholds
  | cons z zs ih =>
    obtain ⟨nd,w,ws,rfl,hw,hvals,hnode,hval,hnext,hmem⟩ := hholds.visit hvals
    obtain ⟨fuel,rfl⟩ : ∃ k, fuel = k+1 := ⟨fuel-1,by rw [List.length_cons] at hfuel; omega⟩
    by_cases hsame : same text val w = true
    · simpa [searchLoop,walk,hnode,hval,hsame] using hholds
    · have hrest := ih (ys ++ [z]) hmem hvals (by simpa using hfuel)
      simpa [searchLoop,walk,hnode,hval,hsame,hnext] using hrest

theorem removeLoop_spec (ys : List (Addr × Option S)) {zs : List (Addr × Option S)} {ws : List S}
    {fuel : ℕ} (hholds : Holds h (ys ++ zs)) (hvals : zs.map Prod.snd = ws.map some)
    (hfuel : zs.length ≤ fuel) :
    wp (removeLoop text val fuel (front zs)) (fun r h' => ∃ zs', Holds h' (ys ++ zs') ∧
      zs'.map Prod.snd = (ws.eraseP (same text val)).map some ∧
      r = if ws.any (same text val) then 0 else -1) h := by
  induction zs generalizing h ys ws fuel with
  | nil =>
    obtain rfl : ws = [] := by simpa using hvals
    simpa [removeLoop,walk] using hholds
  | cons z zs ih =>
    obtain ⟨nd,w,ws,rfl,hw,hvals,hnode,hval,hnext,hmem⟩ := hholds.visit hvals
    obtain ⟨fuel,rfl⟩ : ∃ k, fuel = k+1 := ⟨fuel-1,by rw [List.length_cons] at hfuel; omega⟩
    by_cases hsame : same text val w = true
    · have hstep : ∀ Q, wp (removeLoop text val (fuel+1) (some z.1)) Q h ↔
          wp (unlink (some z.1)) Q (h.note nd.val (.val z.1)) := by
        intro Q
        simp [removeLoop,walk,hnode,hval,hsame]
      rw [front_cons,hstep]
      refine wp_mono (unlink_spec ((holds_note nd.val (.val z.1)).mpr hholds)) ?_
      rintro r h' ⟨rfl,hrest⟩
      exact ⟨zs,hrest,by simpa [hsame] using hvals,by simp [hsame]⟩
    · have hstep : ∀ Q, wp (removeLoop text val (fuel+1) (some z.1)) Q h ↔
          wp (removeLoop text val fuel (front zs)) Q
            ((h.note nd.val (.val z.1)).note nd.next (.next z.1)) := by
        intro Q
        simp [removeLoop,walk,hnode,hval,hsame,hnext]
      rw [front_cons,hstep]
      refine wp_mono (ih (ys ++ [z]) hmem hvals (by simpa using hfuel)) ?_
      rintro r h' ⟨zs',hrest,hvals',hr⟩
      refine ⟨z :: zs',by simpa using hrest,?_,by simpa [hsame] using hr⟩
      simp [hsame,hw,hvals']

theorem displayLoop_spec (ys : List (Addr × Option S)) {zs : List (Addr × Option S)} {ws : List S}
    {fuel : ℕ} (hholds : Holds h (ys ++ zs)) (hvals : zs.map Prod.snd = ws.map some)
    (hfuel : zs.length ≤ fuel) :
    wp (displayLoop fuel (front zs)) (fun r h' => r = ws ∧ Holds h' (ys ++ zs)) h := by
  induction zs generalizing h ys ws fuel with
  | nil =>
    obtain rfl : ws = [] := by simpa using hvals
    simpa [displayLoop,walk] using hholds
  | cons z zs ih =>
    obtain ⟨nd,w,ws,rfl,hw,hvals,hnode,hval,hnext,hmem⟩ := hholds.visit hvals
    obtain ⟨fuel,rfl⟩ : ∃ k, fuel = k+1 := ⟨fuel-1,by rw [List.length_cons] at hfuel; omega⟩
    have hrest := ih (ys ++ [z]) hmem hvals (by simpa using hfuel)
    simpa [displayLoop,walk,hnode,hval,hnext] using hrest

end Loops

def Repr (h : Heap S) (vs : List S) : Prop := ∃ xs, Holds h xs ∧ xs.map Prod.snd = vs.map some

/-- What a call is to do with the sequence of the strings; `granted` says that `malloc`
returns a block. -/
def Call.spec (text : S → List UInt8) (vs : List S) (granted : Bool) : Call S → List S × Ret S
  | .insert val _ => (if granted then val :: vs else vs,.int (if granted then 0 else -1))
  | .append val _ => (if granted then vs ++ [val] else vs,.int (if granted then 0 else -1))
  | .remove => (vs.dropLast,.str vs.getLast?)
  | .removeSpecified val =>
    (vs.eraseP (same text val),.int (if vs.any (same text val) then 0 else -1))
  | .search val => (vs,.str (vs.find? (same text val)))
  | .isEmpty => (vs,.int (if vs.isEmpty then 1 else 0))
  | .display => (vs,.printed vs)
  | .destory => (vs,.void)

def specRun (text : S → List UInt8) : List S → List (Call S × Bool) → List (Ret S) × List S
  | vs, [] => ([],vs)
  | vs, (c,granted) :: rest =>
    let after := specRun text (c.spec text vs granted).1 rest
    ((c.spec text vs granted).2 :: after.1,after.2)

theorem spec_length (text : S → List UInt8) (vs : List S) (granted : Bool) (c : Call S) :
    (c.spec text vs granted).1.length ≤ vs.length+1 := by
  cases c <;> simp only [Call.spec]
  case insert | append => split_ifs <;> simp
  case remove =>
    rw [List.length_dropLast]
    omega
  case removeSpecified val =>
    have h := List.length_eraseP_le (p := same text val) (l := vs)
    omega
  all_goals omega

section Simulation

variable {h : Heap S} {vs : List S} {nd : Node S} (text : S → List UInt8) {fuel : ℕ}

theorem listInsert_spec (hrepr : Repr h vs) (hnext : nd.next.val = none)
    (hlast : nd.last.val = none) (val : S) (block : Option Addr) :
    wp (listInsert val block nd) (fun r h' => r = (if grants h block then 0 else -1) ∧
      Repr h' (if grants h block then val :: vs else vs)) h := by
  obtain ⟨xs,hholds,hvals⟩ := hrepr
  cases hg : grants h block with
  | false =>
    rw [listInsert,wp_bind,wp_malloc_refused hg]
    simpa using ⟨xs,hholds,hvals⟩
  | true =>
    obtain ⟨a,rfl,ha⟩ := grants_iff.mp hg
    refine wp_mono (listInsert_granted hholds val ha hnext hlast) ?_
    rintro r h' ⟨rfl,hrest⟩
    exact ⟨rfl,_,hrest,by simp [hvals]⟩

theorem listAppend_spec (hrepr : Repr h vs) (hnext : nd.next.val = none)
    (hlast : nd.last.val = none) (val : S) (block : Option Addr) :
    wp (listAppend val block nd) (fun r h' => r = (if grants h block then 0 else -1) ∧
      Repr h' (if grants h block then vs ++ [val] else vs)) h := by
  obtain ⟨xs,hholds,hvals⟩ := hrepr
  cases hg : grants h block with
  | false =>
    rw [listAppend,wp_bind,wp_malloc_refused hg]
    simpa using ⟨xs,hholds,hvals⟩
  | true =>
    obtain ⟨a,rfl,ha⟩ := grants_iff.mp hg
    refine wp_mono (listAppend_granted hholds val ha hnext hlast) ?_
    rintro r h' ⟨rfl,hrest⟩
    exact ⟨rfl,_,hrest,by simp [hvals]⟩

theorem listRemove_spec (hrepr : Repr h vs) :
    wp listRemove (fun r h' => r = vs.getLast? ∧ Repr h' vs.dropLast) h := by
  obtain ⟨xs,hholds,hvals⟩ := hrepr
  rcases List.eq_nil_or_concat vs with rfl | ⟨us,v,rfl⟩
  · obtain rfl : xs = [] := by simpa using hvals
    refine wp_mono (listRemove_nil hholds) ?_
    rintro r h' ⟨rfl,hrest⟩
    exact ⟨rfl,[],hrest,rfl⟩
  · rw [List.concat_eq_append,List.map_append] at hvals
    obtain ⟨ys,zs,rfl,hys,hzs⟩ := List.map_eq_append_iff.mp hvals
    obtain ⟨x,rfl,hx⟩ : ∃ x, zs = [x] ∧ x.2 = some v := by simpa [List.map_eq_cons_iff] using hzs
    refine wp_mono (listRemove_concat hholds) ?_
    rintro r h' ⟨rfl,hrest⟩
    exact ⟨by simp [hx],ys,by simpa using hrest,by simpa using hys⟩

theorem Repr.length (hrepr : Repr h vs) : ∃ xs, Holds h xs ∧ xs.map Prod.snd = vs.map some ∧
    xs.length = vs.length := by
  obtain ⟨xs,hholds,hvals⟩ := hrepr
  refine ⟨xs,hholds,hvals,?_⟩
  simpa using congrArg List.length hvals

theorem listIsEmpty_spec (hrepr : Repr h vs) :
    wp listIsEmpty (fun r h' => r = (if vs.isEmpty then 1 else 0) ∧ Repr h' vs) h := by
  obtain ⟨xs,hholds,hvals,hlen⟩ := hrepr.length
  obtain ⟨b,hbox,hdll⟩ := id hholds
  cases vs with
  | nil =>
    obtain rfl : xs = [] := List.length_eq_zero_iff.mp hlen
    have hgoal : Repr h [] := ⟨[],hholds,hvals⟩
    simpa [listIsEmpty,hbox,hdll.head,hdll.tail,Repr] using hgoal
  | cons v vs =>
    have hne : b.head.val ≠ none := by
      rw [Ne,hdll.head_eq_none_iff]
      rintro rfl
      simp at hlen
    have hgoal : Repr h (v :: vs) := ⟨xs,hholds,hvals⟩
    simpa [listIsEmpty,hbox,hne,Repr] using hgoal

theorem wp_getHead_of_holds {xs : List (Addr × Option S)} {Q : Ptr → Heap S → Prop}
    (hholds : Holds h xs) (hQ : ∀ h', Holds h' xs → Q (front xs) h') : wp getHead Q h := by
  obtain ⟨b,hbox,hdll⟩ := id hholds
  refine wp_getHead.mpr ⟨b,hbox,?_⟩
  rw [hdll.head]
  exact hQ _ ((holds_note b.head .head).mpr hholds)

theorem listSearch_spec (hrepr : Repr h vs) (hfuel : vs.length ≤ fuel) (val : S) :
    wp (listSearch text fuel val) (fun r h' => r = vs.find? (same text val) ∧ Repr h' vs) h := by
  obtain ⟨xs,hholds,hvals,hlen⟩ := hrepr.length
  refine wp_bind.mpr (wp_getHead_of_holds hholds fun h₁ hholds₁ => ?_)
  refine wp_mono (searchLoop_spec text val [] hholds₁ hvals (by omega)) ?_
  rintro r h' ⟨rfl,hrest⟩
  exact ⟨rfl,xs,hrest,hvals⟩

theorem listDisplay_spec (hrepr : Repr h vs) (hfuel : vs.length ≤ fuel) :
    wp (listDisplay fuel) (fun r h' => r = vs ∧ Repr h' vs) h := by
  obtain ⟨xs,hholds,hvals,hlen⟩ := hrepr.length
  refine wp_bind.mpr (wp_getHead_of_holds hholds fun h₁ hholds₁ => ?_)
  refine wp_mono (displayLoop_spec [] hholds₁ hvals (by omega)) ?_
  rintro r h' ⟨rfl,hrest⟩
  exact ⟨rfl,xs,hrest,hvals⟩

theorem listRemoveSpecified_spec (hrepr : Repr h vs) (hfuel : vs.length ≤ fuel) (val : S) :
    wp (listRemoveSpecified text fuel val) (fun r h' =>
      r = (if vs.any (same text val) then 0 else -1) ∧ Repr h' (vs.eraseP (same text val))) h := by
  obtain ⟨xs,hholds,hvals,hlen⟩ := hrepr.length
  obtain ⟨b,hbox,-⟩ := id hholds
  have hnull : h.container ≠ .null := by simp [hbox]
  rw [listRemoveSpecified,wp_bind,wp_isNull]
  simp only [hnull,decide_false,Bool.false_eq_true,if_false]
  refine wp_bind.mpr (wp_getHead_of_holds hholds fun h₁ hholds₁ => ?_)
  refine wp_mono (removeLoop_spec text val [] hholds₁ hvals (by omega)) ?_
  rintro r h' ⟨zs,hrest,hvals',rfl⟩
  exact ⟨rfl,zs,hrest,hvals'⟩

/-- Every call does to the heap what its specification does to the sequence. -/
theorem perform_spec (c : Call S) (nd : Node S) (hc : c ≠ .destory) (hrepr : Repr h vs)
    (hfuel : vs.length ≤ fuel) (hnext : nd.next.val = none) (hlast : nd.last.val = none) :
    wp (c.perform text fuel nd) (fun r h' => r = (c.spec text vs (c.granted h)).2 ∧
      Repr h' (c.spec text vs (c.granted h)).1) h := by
  cases c <;> simp only [Call.perform,wp_bind,wp_pure]
  case insert val block =>
    refine wp_mono (listInsert_spec hrepr hnext hlast val block) ?_
    rintro r h' ⟨rfl,hrest⟩
    exact ⟨rfl,hrest⟩
  case append val block =>
    refine wp_mono (listAppend_spec hrepr hnext hlast val block) ?_
    rintro r h' ⟨rfl,hrest⟩
    exact ⟨rfl,hrest⟩
  case remove =>
    refine wp_mono (listRemove_spec hrepr) ?_
    rintro r h' ⟨rfl,hrest⟩
    exact ⟨rfl,hrest⟩
  case removeSpecified val =>
    refine wp_mono (listRemoveSpecified_spec text hrepr hfuel val) ?_
    rintro r h' ⟨rfl,hrest⟩
    exact ⟨rfl,hrest⟩
  case search val =>
    refine wp_mono (listSearch_spec text hrepr hfuel val) ?_
    rintro r h' ⟨rfl,hrest⟩
    exact ⟨rfl,hrest⟩
  case isEmpty =>
    refine wp_mono (listIsEmpty_spec hrepr) ?_
    rintro r h' ⟨rfl,hrest⟩
    exact ⟨rfl,hrest⟩
  case display =>
    refine wp_mono (listDisplay_spec hrepr hfuel) ?_
    rintro r h' ⟨rfl,hrest⟩
    exact ⟨rfl,hrest⟩
  case destory => exact absurd rfl hc

def asked (entries : List (Entry S)) : List (Call S × Bool) :=
  entries.map fun e => (e.call,e.granted)

theorem run_spec (calls : List (Call S)) (hcalls : ∀ c ∈ calls, c ≠ .destory) (k : ℕ)
    (hrepr : Repr h vs) (hfuel : vs.length+calls.length ≤ fuel) :
    (run text fuel (.zero S) k h calls).1.map Entry.call = calls ∧
    (run text fuel (.zero S) k h calls).1.map Entry.result =
      (specRun text vs (asked (run text fuel (.zero S) k h calls).1)).1.map .ok ∧
    Repr (run text fuel (.zero S) k h calls).2
      (specRun text vs (asked (run text fuel (.zero S) k h calls).1)).2 := by
  induction calls generalizing k h vs with
  | nil => exact ⟨rfl,rfl,hrepr⟩
  | cons c calls ih =>
    rw [List.length_cons] at hfuel
    obtain ⟨r,h',hrun,rfl,hrepr'⟩ := perform_spec text c ((Contents.zero S).node k)
      (hcalls c List.mem_cons_self) hrepr (show vs.length ≤ fuel by omega) rfl rfl
    have hlen := spec_length text vs (c.granted h) c
    obtain ⟨hcall,hresult,hrest⟩ := ih (fun d hd => hcalls d (List.mem_cons_of_mem c hd)) (k+1)
      hrepr' (by omega)
    simp only [run,hrun]
    exact ⟨congrArg (c :: ·) hcall,congrArg (Except.ok _ :: ·) hresult,hrest⟩

theorem create_repr (S : Type) : Repr (listCreate (some (Contents.zero S).box)) ([] : List S) :=
  ⟨[],⟨_,rfl,Dll.nil _⟩,rfl⟩

end Simulation

/-- The next links from the head and the last links from the tail are finite chains through the
strings of the sequence, and the reverse of each other. Without a container there is no string. -/
def Shaped (h : Heap S) (vs : List S) : Prop :=
  match h.container with
  | .null => vs = []
  | .freed => False
  | .block b => ∃ as,
      Chain (fun a => (h.node a).map fun nd => nd.next.val) b.head.val as ∧
      Chain (fun a => (h.node a).map fun nd => nd.last.val) b.tail.val as.reverse ∧
      (as.map fun a => (h.node a).map fun nd => nd.val.val) = vs.map (fun v => some (some v)) ∧
      (b.head.val = none ↔ b.tail.val = none)

/-- All calls come back, with what the plain sequence returns, and leave its strings. -/
@[mk_iff] structure Simulates (text : S → List UInt8) (calls : List (Call S))
    (r : List (Entry S) × Heap S) : Prop where
  calls : r.1.map Entry.call = calls
  results : r.1.map Entry.result = (specRun text [] (asked r.1)).1.map .ok
  shape : Shaped r.2 (specRun text [] (asked r.1)).2

theorem Repr.shaped {h : Heap S} {vs : List S} (hrepr : Repr h vs) : Shaped h vs := by
  obtain ⟨xs,⟨b,hbox,hdll⟩,hvals⟩ := hrepr
  obtain ⟨hnext,hlast⟩ := hdll.chains
  have hval := hdll.seg.vals
  simp only [Heap.links,Option.map_map,Function.comp_def,Node.link] at hnext hlast hval
  simp only [Shaped,hbox]
  refine ⟨xs.map Prod.fst,hnext,hlast,?_,?_⟩
  · rw [hval]
    simpa [Function.comp_def] using congrArg (List.map some) hvals
  · rw [hdll.head_eq_none_iff,hdll.tail_eq_none_iff]

theorem list_refines (text : S → List UInt8) {fuel : ℕ} {calls : List (Call S)}
    (hcalls : ∀ c ∈ calls, c ≠ .destory) (hfuel : calls.length ≤ fuel) :
    Simulates text calls
      (run text fuel (.zero S) 0 (listCreate (some (Contents.zero S).box)) calls) := by
  obtain ⟨hcall,hresult,hrepr⟩ := run_spec text calls hcalls 0 (create_repr S)
    (by simpa using hfuel)
  exact ⟨hcall,hresult,hrepr.shaped⟩

section Uncreated

/-- The call comes back although there is no container: it tests for `NULL`, or its `malloc`
fails before it looks at the container. -/
def Call.guarded : Call S → Bool
  | .insert _ block | .append _ block => block.isNone
  | .remove | .removeSpecified _ | .destory => true
  | .search _ | .isEmpty | .display => false

variable (text : S → List UInt8) {fuel : ℕ} {g : Contents S}

theorem wp_perform_null {c : Call S} {nd : Node S} {Q : Ret S → Heap S → Prop}
    (hc : c ≠ .destory) : wp (c.perform text fuel nd) Q (listCreate none) ↔
      c.guarded = true ∧ Q (c.spec text [] (c.granted (listCreate none))).2 (listCreate none) := by
  have hnull : (listCreate none : Heap S).container = .null := rfl
  cases c with
  | insert val block | append val block =>
    cases block with
    | none =>
      have hno : grants (listCreate none : Heap S) none = false := rfl
      simp [Call.perform,listInsert,listAppend,wp_malloc_refused hno,Call.spec,Call.granted,
        Call.guarded,hno]
    | some a =>
      have hfree : (listCreate none : Heap S).node a = none := rfl
      simp [Call.perform,listInsert,listAppend,wp_malloc_granted hfree,hnull,Call.guarded]
  | remove => simp [Call.perform,listRemove,hnull,Call.spec,Call.guarded]
  | removeSpecified val => simp [Call.perform,listRemoveSpecified,hnull,Call.spec,Call.guarded]
  | search val => simp [Call.perform,listSearch,hnull,Call.guarded]
  | isEmpty => simp [Call.perform,listIsEmpty,hnull,Call.guarded]
  | display => simp [Call.perform,listDisplay,hnull,Call.guarded]
  | destory => exact absurd rfl hc

theorem spec_null {c : Call S} (hguarded : c.guarded = true) :
    (c.spec text [] (c.granted (listCreate none))).1 = [] := by
  cases c with
  | insert val block | append val block =>
    obtain rfl : block = none := by simpa [Call.guarded] using hguarded
    rfl
  | remove | removeSpecified val | search val | isEmpty | display | destory => rfl

theorem simulates_cons_null {c : Call S} {calls : List (Call S)} (k : ℕ) (hc : c ≠ .destory) :
    Simulates text (c :: calls) (run text fuel g k (listCreate none) (c :: calls)) ↔
      c.guarded = true ∧
        Simulates text calls (run text fuel g (k+1) (listCreate none) calls) := by
  cases hguarded : c.guarded with
  | true =>
    have hwp : wp (c.perform text fuel (g.node k)) (fun r h =>
        r = (c.spec text [] (c.granted (listCreate none))).2 ∧ h = listCreate none)
        (listCreate none) :=
      (wp_perform_null text hc).mpr ⟨hguarded,rfl,rfl⟩
    obtain ⟨r,h,hrun,rfl,rfl⟩ := hwp
    simp [simulates_iff,run,hrun,asked,specRun,spec_null text hguarded]
  | false =>
    have hstop : ¬ wp (c.perform text fuel (g.node k)) (fun _ _ => True) (listCreate none) := by
      simp [wp_perform_null text hc,hguarded]
    cases hrun : c.perform text fuel (g.node k) (listCreate none) with
    | mk r h =>
      cases r with
      | ok r => exact absurd ⟨r,h,hrun,trivial⟩ hstop
      | error e => simp [simulates_iff,run,hrun,asked,specRun]

theorem simulates_null_iff {calls : List (Call S)} (hcalls : ∀ c ∈ calls, c ≠ .destory) (k : ℕ) :
    Simulates text calls (run text fuel g k (listCreate none) calls) ↔
      ∀ c ∈ calls, c.guarded = true := by
  induction calls generalizing k with
  | nil => simp [simulates_iff,run,asked,specRun,Shaped,listCreate]
  | cons c calls ih =>
    rw [List.forall_mem_cons] at hcalls ⊢
    rw [simulates_cons_null text k hcalls.1,ih hcalls.2]

end Uncreated

/-- With blocks filled with zeros, the calls behind `list_create` do what they do to the plain
sequence exactly if `list_create` got its block, or each of them tests for `NULL` or has no block
for a node. -/
theorem list_refines_iff (S : Type) (text : S → List UInt8) (fuel : ℕ) (created : Bool)
    (calls : List (Call S)) (hcalls : ∀ c ∈ calls, c ≠ .destory) (hfuel : calls.length ≤ fuel) :
    Simulates text calls (run text fuel (.zero S) 0
        (listCreate (if created then some (Contents.zero S).box else none)) calls) ↔
      created = true ∨ ∀ c ∈ calls, c.guarded = true := by
  cases created with
  | true => simpa using list_refines text hcalls hfuel
  | false => simpa using simulates_null_iff text hcalls 0

theorem list_refines_sample :
    Simulates id [.insert [97] (some 5),.append [98] none,.removeSpecified [97],.isEmpty]
      (run id 4 (.zero (List UInt8)) 0 (listCreate (some (Contents.zero (List UInt8)).box))
        [.insert [97] (some 5),.append [98] none,.removeSpecified [97],.isEmpty]) ∧
    Simulates id [.append [98] none,.removeSpecified [97],.remove]
      (run id 4 (.zero (List UInt8)) 0 (listCreate none)
        [.append [98] none,.removeSpecified [97],.remove]) :=
  ⟨(list_refines_iff (List UInt8) id 4 true _ (by decide) (by decide)).mpr (Or.inl rfl),
    (list_refines_iff (List UInt8) id 4 false _ (by decide) (by decide)).mpr (Or.inr (by decide))⟩

/-- `list_create` returns `NULL`, and the first `list_insert` follows the pointer. -/
theorem uncreated_insert :
    (run id 1 (.zero (List UInt8)) 0 (listCreate none) [.insert [97] (some 5)]).1.map
      Entry.result = [.error .undefined] ∧
    ¬ Simulates id [.insert [97] (some 5)]
      (run id 1 (.zero (List UInt8)) 0 (listCreate none) [.insert [97] (some 5)]) := by
  refine ⟨rfl,?_⟩
  intro h
  cases h.results

/-- The calls of `main` on zeros: `"a"` is removed once. -/
example : (run id 3 (.zero (List UInt8)) 0 (listCreate (some (Contents.zero (List UInt8)).box))
    [.insert [97] (some 0),.insert [98] (some 1),.insert [99] (some 2),.removeSpecified [97],
      .removeSpecified [97],.removeSpecified [99],.isEmpty,.display]).1.map Entry.result =
    [.ok (.int 0),.ok (.int 0),.ok (.int 0),.ok (.int 0),.ok (.int (-1)),.ok (.int 0),.ok (.int 0),
      .ok (.printed [[98]])] := rfl

end ContainerList
end CPrograming
