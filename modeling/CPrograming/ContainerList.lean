import CPrograming.DoublyLinked
import CPrograming.Programs

/-!
# The doubly linked list of `container/list.c`

The heap holds the container and the node blocks that are allocated. A block has
the contents that `malloc` gave it until the list code assigns a field, and every
read of a field that it has not assigned is noted in `stray`. To follow a pointer
that does not lead to an allocated block is undefined. `library/container/list.c`
is the same text.
-/

namespace CPrograming
namespace ContainerList

open Programs

abbrev Addr := ℕ

abbrev Ptr := Option Addr

/-- The value of a field, and whether the list code has assigned it. -/
structure Cell (α : Type) where
  val : α
  assigned : Bool
  deriving DecidableEq, Repr

/-- `struct node_type`, for pointers to strings in `S`. -/
structure Node (S : Type) where
  val : Cell (Option S)
  next : Cell Ptr
  last : Cell Ptr
  deriving DecidableEq, Repr

structure Box where
  head : Cell Ptr
  tail : Cell Ptr
  deriving DecidableEq, Repr

/-- What the pointer that `list_create` returned leads to. -/
inductive Container
  | null
  | block (box : Box)
  | freed
  deriving DecidableEq, Repr

inductive Field
  | head | tail
  | val (a : Addr) | next (a : Addr) | last (a : Addr)
  deriving DecidableEq, Repr

structure Heap (S : Type) where
  container : Container
  node : Addr → Option (Node S)
  stray : List Field

/-- What the blocks hold that `malloc` returns: the container, and the node of the
`k`-th call of the list code. -/
structure Contents (S : Type) where
  head : Ptr
  tail : Ptr
  val : ℕ → Option S
  next : ℕ → Ptr
  last : ℕ → Ptr

def Contents.zero (S : Type) : Contents S := ⟨none,none,fun _ => none,fun _ => none,fun _ => none⟩

variable {S : Type}

def Contents.box (g : Contents S) : Box := ⟨⟨g.head,false⟩,⟨g.tail,false⟩⟩

def Contents.node (g : Contents S) (k : ℕ) : Node S :=
  ⟨⟨g.val k,false⟩,⟨g.next k,false⟩,⟨g.last k,false⟩⟩

namespace Heap

def note {α : Type} (h : Heap S) (c : Cell α) (f : Field) : Heap S :=
  if c.assigned then h else { h with stray := h.stray ++ [f] }

def setBox (h : Heap S) (b : Box) : Heap S := { h with container := .block b }

def setNode (h : Heap S) (a : Addr) (nd : Option (Node S)) : Heap S :=
  { h with node := Function.update h.node a nd }

end Heap

def theBox : Prog (Heap S) Box := fun h =>
  match h.container with
  | .block b => (.ok b,h)
  | _ => (.error .undefined,h)

def theNode (p : Ptr) : Prog (Heap S) (Addr × Node S) := fun h =>
  match p with
  | none => (.error .undefined,h)
  | some a =>
    match h.node a with
    | none => (.error .undefined,h)
    | some nd => (.ok (a,nd),h)

def read {α : Type} (c : Cell α) (f : Field) : Prog (Heap S) α := do
  modify fun h => h.note c f
  pure c.val

def getHead : Prog (Heap S) Ptr := do
  let b ← theBox
  read b.head .head

def getTail : Prog (Heap S) Ptr := do
  let b ← theBox
  read b.tail .tail

def setHead (p : Ptr) : Prog (Heap S) Unit := do
  let b ← theBox
  modify fun h => h.setBox { b with head := ⟨p,true⟩ }

def setTail (p : Ptr) : Prog (Heap S) Unit := do
  let b ← theBox
  modify fun h => h.setBox { b with tail := ⟨p,true⟩ }

def getVal (p : Ptr) : Prog (Heap S) (Option S) := do
  let (a,nd) ← theNode p
  read nd.val (.val a)

def getNext (p : Ptr) : Prog (Heap S) Ptr := do
  let (a,nd) ← theNode p
  read nd.next (.next a)

def getLast (p : Ptr) : Prog (Heap S) Ptr := do
  let (a,nd) ← theNode p
  read nd.last (.last a)

def setVal (p : Ptr) (v : Option S) : Prog (Heap S) Unit := do
  let (a,nd) ← theNode p
  modify fun h => h.setNode a (some { nd with val := ⟨v,true⟩ })

def setNext (p q : Ptr) : Prog (Heap S) Unit := do
  let (a,nd) ← theNode p
  modify fun h => h.setNode a (some { nd with next := ⟨q,true⟩ })

def setLast (p q : Ptr) : Prog (Heap S) Unit := do
  let (a,nd) ← theNode p
  modify fun h => h.setNode a (some { nd with last := ⟨q,true⟩ })

/-- `malloc` for a node: an address that is in use cannot be had, and the answer is
`NULL` as it is for `none`. -/
def malloc (block : Option Addr) (nd : Node S) : Prog (Heap S) Ptr := fun h =>
  match block with
  | none => (.ok none,h)
  | some a => if (h.node a).isSome then (.ok none,h) else (.ok (some a),h.setNode a (some nd))

def free (p : Ptr) : Prog (Heap S) Unit := do
  let (a,_) ← theNode p
  modify fun h => h.setNode a none

def freeContainer : Prog (Heap S) Unit := do
  let _ ← theBox
  modify fun h => { h with container := .freed }

def isNull : Prog (Heap S) Bool := fun h => (.ok (h.container = .null),h)

/-- `list_create`, before anything else is allocated; the answer of `malloc` may be
`NULL`. -/
def listCreate (block : Option Box) : Heap S :=
  ⟨match block with | none => .null | some b => .block b,fun _ => none,[]⟩

/-- `list_insert` once it has read `container->head`. -/
def linkFirst (newNode head : Ptr) : Prog (Heap S) ℤ := do
  if head = none then do
    setTail newNode
    setHead newNode
  else do
    let head ← getHead
    setLast head newNode
    let head ← getHead
    setNext newNode head
    setHead newNode
  pure 0

def listInsert (val : S) (block : Option Addr) (nd : Node S) : Prog (Heap S) ℤ := do
  let newNode ← malloc block nd
  if newNode = none then pure (-1)
  else do
    setVal newNode (some val)
    let head ← getHead
    linkFirst newNode head

/-- `list_append` once it has read `container->tail`. -/
def linkLast (newNode tail : Ptr) : Prog (Heap S) ℤ := do
  if tail = none then do
    setTail newNode
    setHead newNode
  else do
    let tail ← getTail
    setNext tail newNode
    let tail ← getTail
    setLast newNode tail
    setTail newNode
  pure 0

def listAppend (val : S) (block : Option Addr) (nd : Node S) : Prog (Heap S) ℤ := do
  let newNode ← malloc block nd
  if newNode = none then pure (-1)
  else do
    setVal newNode (some val)
    let tail ← getTail
    linkLast newNode tail

/-- `list_remove` once it has read `container->tail`. -/
def dropLast (tail : Ptr) : Prog (Heap S) (Option S) := do
  if tail = none then pure none
  else do
    let tail ← getTail
    let str ← getVal tail
    let tmpNode ← getTail
    let tail ← getTail
    let last ← getLast tail
    if last = none then do
      setTail none
      setHead none
    else do
      let tail ← getTail
      let last ← getLast tail
      setTail last
      let tail ← getTail
      setNext tail none
    free tmpNode
    pure str

def listRemove : Prog (Heap S) (Option S) := do
  if ← isNull then pure none
  else do
    let tail ← getTail
    dropLast tail

section Text

variable (text : S → List UInt8)

/-- `strcmp(p, val) == 0` -/
def strcmpEq (p : Option S) (val : S) : Prog (Heap S) Bool :=
  match p with
  | none => stop .undefined
  | some s => pure (text s = text val)

/-- `current->last == NULL && current->next == NULL` -/
def isOnly (current : Ptr) : Prog (Heap S) Bool := do
  let last ← getLast current
  if last = none then do
    let next ← getNext current
    pure (next = none)
  else pure false

/-- `if (only) container->head = container->tail = NULL;` -/
def clearEnds (only : Bool) : Prog (Heap S) Unit :=
  if only then do
    setTail none
    setHead none
  else pure ()

/-- The node before `current`, or the container, is linked to the one behind. -/
def relinkLast (current : Ptr) : Prog (Heap S) Unit := do
  let last ← getLast current
  if last ≠ none then do
    let last ← getLast current
    let next ← getNext current
    setNext last next
  else do
    let next ← getNext current
    setHead next

def relinkNext (current : Ptr) : Prog (Heap S) Unit := do
  let next ← getNext current
  if next ≠ none then do
    let next ← getNext current
    let last ← getLast current
    setLast next last
  else do
    let last ← getLast current
    setTail last

/-- The body of `list_remove_specified` once `current` is found. -/
def unlink (current : Ptr) : Prog (Heap S) ℤ := do
  let only ← isOnly current
  clearEnds only
  relinkLast current
  relinkNext current
  free current
  pure 0

def removeLoop (val : S) : (fuel : ℕ) → (current : Ptr) → Prog (Heap S) ℤ :=
  walk (pure (-1)) fun a loop => do
    let v ← getVal (some a)
    if ← strcmpEq text v val then unlink (some a)
    else do
      let next ← getNext (some a)
      loop next

def listRemoveSpecified (fuel : ℕ) (val : S) : Prog (Heap S) ℤ := do
  if ← isNull then pure (-1)
  else do
    let head ← getHead
    removeLoop text val fuel head

def searchLoop (val : S) : (fuel : ℕ) → (current : Ptr) → Prog (Heap S) (Option S) :=
  walk (pure none) fun a loop => do
    let v ← getVal (some a)
    if ← strcmpEq text v val then getVal (some a)
    else do
      let next ← getNext (some a)
      loop next

def listSearch (fuel : ℕ) (val : S) : Prog (Heap S) (Option S) := do
  let head ← getHead
  searchLoop text val fuel head

end Text

def listIsEmpty : Prog (Heap S) ℤ := do
  let head ← getHead
  if head = none then do
    let tail ← getTail
    pure (if tail = none then 1 else 0)
  else pure 0

/-- The loop of `list_display`: the strings that it prints. -/
def displayLoop : (fuel : ℕ) → (current : Ptr) → Prog (Heap S) (List S) :=
  walk (pure []) fun a loop => do
    match ← getVal (some a) with
    | none => stop .undefined
    | some s => do
      let next ← getNext (some a)
      let rest ← loop next
      pure (s :: rest)

def listDisplay (fuel : ℕ) : Prog (Heap S) (List S) := do
  let head ← getHead
  displayLoop fuel head

def destoryLoop : (fuel : ℕ) → (current : Ptr) → Prog (Heap S) Unit :=
  walk (pure ()) fun a loop => do
    free (some a)
    let next ← getNext (some a)
    loop next

def listDestory (fuel : ℕ) : Prog (Heap S) Unit := do
  if ← isNull then pure ()
  else do
    let head ← getHead
    destoryLoop fuel head
    freeContainer

/-- A call of the list code. `block` is the answer of `malloc`. -/
inductive Call (S : Type)
  | insert (val : S) (block : Option Addr)
  | append (val : S) (block : Option Addr)
  | remove
  | removeSpecified (val : S)
  | search (val : S)
  | isEmpty
  | display
  | destory
  deriving DecidableEq, Repr

inductive Ret (S : Type)
  | int (value : ℤ)
  | str (pointer : Option S)
  | printed (strings : List S)
  | void
  deriving DecidableEq, Repr

/-- The call; `nd` is what a node block holds if one is allocated. -/
def Call.perform (text : S → List UInt8) (fuel : ℕ) (nd : Node S) : Call S → Prog (Heap S) (Ret S)
  | .insert val block => do
    let r ← listInsert val block nd
    pure (.int r)
  | .append val block => do
    let r ← listAppend val block nd
    pure (.int r)
  | .remove => do
    let r ← listRemove
    pure (.str r)
  | .removeSpecified val => do
    let r ← listRemoveSpecified text fuel val
    pure (.int r)
  | .search val => do
    let r ← listSearch text fuel val
    pure (.str r)
  | .isEmpty => do
    let r ← listIsEmpty
    pure (.int r)
  | .display => do
    let r ← listDisplay fuel
    pure (.printed r)
  | .destory => do
    listDestory fuel
    pure .void

def grants (h : Heap S) : Option Addr → Bool
  | none => false
  | some a => (h.node a).isNone

def Call.granted (h : Heap S) : Call S → Bool
  | .insert _ block => grants h block
  | .append _ block => grants h block
  | _ => false

structure Entry (S : Type) where
  call : Call S
  granted : Bool
  result : Except Stop (Ret S)

/-- The calls one after the other, up to the first that does not come back; `k` counts
them. -/
def run (text : S → List UInt8) (fuel : ℕ) (g : Contents S) :
    (k : ℕ) → Heap S → List (Call S) → List (Entry S) × Heap S
  | _, h, [] => ([],h)
  | k, h, c :: calls =>
    match c.perform text fuel (g.node k) h with
    | (.ok r,h') =>
      let rest := run text fuel g (k+1) h' calls
      (⟨c,c.granted h,.ok r⟩ :: rest.1,rest.2)
    | (.error e,h') => ([⟨c,c.granted h,.error e⟩],h')

end ContainerList
end CPrograming
