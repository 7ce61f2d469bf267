import CPrograming.Programs
import CPrograming.SinglyLinked

/-!
# The list of `func/list.c`

A list is a pointer to its first node, and `NULL` is the empty list. The functions get that
pointer by value. To follow a pointer that does not lead to an allocated node is undefined, and
so is to free one.
-/

namespace CPrograming
namespace FuncList

open Programs SinglyLinked

abbrev Addr := ℕ

abbrev Ptr := Option Addr

abbrev Node := Link Addr ℤ

abbrev Heap := Store Addr ℤ

def theNode (p : Ptr) : Prog Heap (Addr × Node) := fun h =>
  match p with
  | none => (.error .undefined,h)
  | some a =>
    match h a with
    | none => (.error .undefined,h)
    | some node => (.ok (a,node),h)

def getValue (p : Ptr) : Prog Heap ℤ := do
  let (_,node) ← theNode p
  pure node.value

def getNext (p : Ptr) : Prog Heap Ptr := do
  let (_,node) ← theNode p
  pure node.next

def setValue (p : Ptr) (n : ℤ) : Prog Heap Unit := do
  let (a,node) ← theNode p
  modify fun h => Function.update h a (some { node with value := n })

def setNext (p q : Ptr) : Prog Heap Unit := do
  let (a,node) ← theNode p
  modify fun h => Function.update h a (some { node with next := q })

/-- `malloc` for a node with what the block happens to hold. An address that is in use cannot be
had, and the answer is `NULL` as it is for `none`. -/
def malloc (block : Option Addr) (node : Node) : Prog Heap Ptr := fun h =>
  match block with
  | none => (.ok none,h)
  | some a => if (h a).isSome then (.ok none,h) else (.ok (some a),Function.update h a (some node))

def free (p : Ptr) : Prog Heap Unit := do
  let (a,_) ← theNode p
  modify fun h => Function.update h a none

/-- `add_node` returns the new list, or the process exits. -/
inductive AddNode
  | returned (list : Ptr)
  | exited (text : String) (status : ℤ)
  deriving DecidableEq, Repr

def addNode (block : Option Addr) (node : Node) (list : Ptr) (n : ℤ) : Prog Heap AddNode := do
  let newNode ← malloc block node
  if newNode = none then
    pure (.exited "Error: malloc failed in add_node\n" (-1))
  else do
    setValue newNode n
    setNext newNode list
    pure (.returned newNode)

/-- The test of the loop reads `p->next`. -/
def searchList (n : ℤ) : (fuel : ℕ) → (p : Ptr) → Prog Heap Ptr
  | 0, _ => stop .running
  | fuel+1, p => do
    let next ← getNext p
    if next = none then pure none
    else do
      let value ← getValue p
      if value = n then pure p
      else do
        let next ← getNext p
        searchList n fuel next

/-- `if (cur->next == NULL) prev->next = NULL; else prev->next = cur->next;` -/
def bypass (prev cur : Ptr) : Prog Heap Unit := do
  let next ← getNext cur
  if next = none then setNext prev none
  else do
    let next ← getNext cur
    setNext prev next

/-- The loop of `remove_node`. The assignment to `list` is to the parameter, which nothing reads
any more. -/
def removeLoop (list : Ptr) (n : ℤ) : (fuel : ℕ) → (prev cur : Ptr) → Prog Heap ℤ
  | _, _, none => pure 0
  | 0, _, some _ => stop .running
  | fuel+1, prev, some a => do
    let value ← getValue (some a)
    if value = n then
      if prev = none then do
        let _list ← getNext list
        free (some a)
        pure 1
      else do
        bypass prev (some a)
        free (some a)
        pure 1
    else do
      let next ← getNext (some a)
      removeLoop list n fuel (some a) next

def removeNode (fuel : ℕ) (list : Ptr) (n : ℤ) : Prog Heap ℤ := removeLoop list n fuel none list

def Holds (h : Heap) (p : Ptr) (xs : List (Addr × ℤ)) : Prop := Seg h p xs none

section Primitives

variable {h : Heap} {p : Ptr} {a : Addr} {node : Node}

@[simp] theorem wp_theNode {Q : Addr × Node → Heap → Prop} :
    wp (theNode p) Q h ↔ ∃ a node, p = some a ∧ h a = some node ∧ Q (a,node) h := by
  cases p with
  | none => simp [wp,theNode]
  | some a => cases ha : h a <;> simp [wp,theNode,ha]

theorem wp_getValue (ha : h a = some node) {Q : ℤ → Heap → Prop} :
    wp (getValue (some a)) Q h ↔ Q node.value h := by
  simp [getValue,ha]

theorem wp_getNext (ha : h a = some node) {Q : Ptr → Heap → Prop} :
    wp (getNext (some a)) Q h ↔ Q node.next h := by
  simp [getNext,ha]

theorem wp_setValue (ha : h a = some node) (n : ℤ) {Q : Unit → Heap → Prop} :
    wp (setValue (some a) n) Q h ↔
      Q () (Function.update h a (some { node with value := n })) := by
  simp [setValue,ha]

theorem wp_setNext (ha : h a = some node) (q : Ptr) {Q : Unit → Heap → Prop} :
    wp (setNext (some a) q) Q h ↔ Q () (Function.update h a (some { node with next := q })) := by
  simp [setNext,ha]

theorem wp_bypass {b : Addr} {next : Node} (ha : h a = some node) (hb : h b = some next)
    {Q : Unit → Heap → Prop} : wp (bypass (some a) (some b)) Q h ↔
      Q () (Function.update h a (some { node with next := next.next })) := by
  rw [bypass,wp_bind,wp_getNext hb]
  by_cases hnext : next.next = none
  · rw [if_pos hnext,wp_setNext ha,hnext]
  · rw [if_neg hnext,wp_bind,wp_getNext hb,wp_setNext ha]

theorem wp_malloc (ha : h a = none) {Q : Ptr → Heap → Prop} :
    wp (malloc (some a) node) Q h ↔ Q (some a) (Function.update h a (some node)) := by
  simp [wp,malloc,ha]

theorem wp_free (ha : h a = some node) {Q : Unit → Heap → Prop} :
    wp (free (some a)) Q h ↔ Q () (Function.update h a none) := by
  simp [free,ha]

end Primitives

section Building

variable {h t : Heap} {p : Ptr} {a : Addr} {xs : List (Addr × ℤ)} {n : ℤ}

theorem addNode_fresh (ha : h a = none) (node : Node) (list : Ptr) (n : ℤ) :
    addNode (some a) node list n h =
      (.ok (.returned (some a)),Function.update h a (some ⟨n,list⟩)) := by
  have hadd : wp (addNode (some a) node list n) (fun r t => r = .returned (some a) ∧
      t = Function.update h a (some ⟨n,list⟩)) h := by
    rw [addNode,wp_bind,wp_malloc ha,if_neg (Option.some_ne_none a),wp_bind,
      wp_setValue (Function.update_self _ _ _),wp_bind,wp_setNext (Function.update_self _ _ _),
      wp_pure,Function.update_idem,Function.update_idem]
    exact ⟨rfl,rfl⟩
  obtain ⟨r,t,heq,rfl,rfl⟩ := hadd
  exact heq

theorem addNode_returned {block : Option Addr} {node : Node} {q : Ptr}
    (hadd : addNode block node p n h = (.ok (.returned q),t)) :
    ∃ a, q = some a ∧ h a = none ∧ t = Function.update h a (some ⟨n,p⟩) := by
  cases block with
  | none => cases hadd
  | some a =>
    cases ha : h a with
    | none =>
      rw [addNode_fresh ha] at hadd
      cases hadd
      exact ⟨a,rfl,ha,rfl⟩
    | some node' =>
      have hmalloc : malloc (some a) node h = (.ok none,h) := by simp [malloc,ha]
      rw [addNode,bind_of_ok hmalloc] at hadd
      cases hadd

/-- The lists that are built by `add_node`. Meanwhile the program may do what it likes with the
nodes that are not in the list. -/
inductive Built : Heap → Ptr → List (Addr × ℤ) → Prop
  | null (h : Heap) : Built h none []
  | add {h t : Heap} {p : Ptr} {xs : List (Addr × ℤ)} {block : Option Addr} {node : Node} {n : ℤ}
      {a : Addr} : Built h p xs → addNode block node p n h = (.ok (.returned (some a)),t) →
      Built t (some a) ((a,n) :: xs)
  | other {h t : Heap} {p : Ptr} {xs : List (Addr × ℤ)} : Built h p xs →
      (∀ a ∈ xs.map Prod.fst, t a = h a) → Built t p xs

theorem Built.holds (hbuilt : Built h p xs) : Holds h p xs := by
  induction hbuilt with
  | null h => rfl
  | add hbuilt hadd ih =>
    obtain ⟨a,hq,ha,rfl⟩ := addNode_returned hadd
    cases hq
    exact ih.push (fun hmem => ih.cell_ne_none hmem ha) _
  | other hbuilt hsame ih => exact ih.congr hsame

end Building

section Searching

variable {h : Heap} {p : Ptr} {xs : List (Addr × ℤ)} {fuel : ℕ}

/-- The first node of the list with value `n`, or `NULL`. -/
def firstWith (n : ℤ) (xs : List (Addr × ℤ)) : Ptr :=
  (xs.find? fun x => x.2 = n).map Prod.fst

theorem firstWith_cons (n : ℤ) (x : Addr × ℤ) (xs : List (Addr × ℤ)) :
    firstWith n (x :: xs) = if x.2 = n then some x.1 else firstWith n xs := by
  by_cases hn : x.2 = n <;> simp [firstWith,hn]

theorem firstWith_eq_none_iff {n : ℤ} : firstWith n xs = none ↔ n ∉ xs.map Prod.snd := by
  induction xs with
  | nil => simp [firstWith]
  | cons x xs ih =>
    by_cases hn : x.2 = n
    · simp [firstWith_cons,hn]
    · simp [firstWith_cons,hn,ih,Ne.symm hn]

theorem firstWith_append (n : ℤ) (xs ys : List (Addr × ℤ)) :
    firstWith n (xs ++ ys) = (firstWith n xs).or (firstWith n ys) := by
  induction xs with
  | nil => rfl
  | cons x xs ih => by_cases hn : x.2 = n <;> simp [firstWith_cons,hn,ih]

/-- The last node makes no difference, unless it is the only one with that value. -/
theorem firstWith_dropLast_iff (n : ℤ) (xs : List (Addr × ℤ)) :
    firstWith n xs = firstWith n xs.dropLast ↔
      (n ∈ xs.map Prod.snd → n ∈ xs.dropLast.map Prod.snd) := by
  rcases List.eq_nil_or_concat xs with rfl | ⟨ys,z,rfl⟩
  · simp
  · rw [List.concat_eq_append,List.dropLast_concat,firstWith_append]
    by_cases hys : n ∈ ys.map Prod.snd
    · have hsome : (firstWith n ys).isSome := by
        rw [Option.isSome_iff_ne_none,ne_eq,firstWith_eq_none_iff,not_not]
        exact hys
      rw [Option.or_of_isSome hsome]
      exact iff_of_true rfl fun _ => hys
    · rw [firstWith_eq_none_iff.mpr hys,Option.none_or,firstWith_eq_none_iff,List.map_append,
        List.mem_append]
      tauto

theorem wp_searchList (n : ℤ) {x : Addr × ℤ} (hlist : Holds h p (x :: xs))
    (hfuel : xs.length < fuel) :
    wp (searchList n fuel p) (fun r t => r = firstWith n (x :: xs).dropLast ∧ t = h) h := by
  induction xs generalizing x p fuel with
  | nil =>
    obtain ⟨rfl,_,hx,rfl⟩ := hlist
    obtain ⟨fuel,rfl⟩ : ∃ k, fuel = k+1 := ⟨fuel-1,by omega⟩
    rw [searchList,wp_bind,wp_getNext hx,if_pos rfl,wp_pure]
    exact ⟨rfl,rfl⟩
  | cons y ys ih =>
    obtain ⟨rfl,_,hx,hrest⟩ := hlist
    obtain ⟨fuel,rfl⟩ : ∃ k, fuel = k+1 := ⟨fuel-1,by omega⟩
    obtain rfl := hrest.1
    rw [searchList,wp_bind,wp_getNext hx,if_neg (by simp),wp_bind,wp_getValue hx]
    by_cases hn : x.2 = n
    · rw [if_pos hn,wp_pure,List.dropLast_cons_cons,firstWith_cons,if_pos hn]
      exact ⟨rfl,rfl⟩
    · rw [if_neg hn,wp_bind,wp_getNext hx,List.dropLast_cons_cons,firstWith_cons,if_neg hn]
      exact ih hrest (by simpa using hfuel)

theorem searchList_null (n : ℤ) (fuel : ℕ) (h : Heap) :
    searchList n (fuel+1) none h = (.error .undefined,h) := rfl

/-- `search_list` gives the first node with value `n` exactly if the list has a node and the
value is not in its last node only. -/
theorem searchList_correct_iff (hbuilt : Built h p xs) (n : ℤ) (hfuel : xs.length < fuel) :
    wp (searchList n fuel p) (fun r t => r = firstWith n xs ∧ t = h) h ↔
      xs ≠ [] ∧ (n ∈ xs.map Prod.snd → n ∈ xs.dropLast.map Prod.snd) := by
  have hholds := hbuilt.holds
  cases xs with
  | nil =>
    obtain rfl : p = none := hholds
    obtain ⟨fuel,rfl⟩ : ∃ k, fuel = k+1 := ⟨fuel-1,by omega⟩
    refine iff_of_false ?_ fun hne => hne.1 rfl
    rintro ⟨r,t,heq,-⟩
    rw [searchList_null] at heq
    cases heq
  | cons x xs =>
    obtain ⟨r,t,heq,rfl,rfl⟩ := wp_searchList n hholds (Nat.lt_of_succ_lt hfuel)
    rw [← firstWith_dropLast_iff]
    simp [wp,heq,eq_comm]

def twoNodes : Heap :=
  Function.update (Function.update (fun _ => none) 0 (some ⟨7,none⟩)) 1 (some ⟨5,some 0⟩)

theorem built_twoNodes : Built twoNodes (some 1) [(1,5),(0,7)] :=
  .add (.add (.null _) (addNode_fresh rfl ⟨0,none⟩ none 7)) (addNode_fresh rfl ⟨0,none⟩ (some 0) 5)

theorem searchList_first : Built twoNodes (some 1) [(1,5),(0,7)] ∧
    wp (searchList 5 3 (some 1)) (fun r t => r = some 1 ∧ t = twoNodes) twoNodes :=
  ⟨built_twoNodes,(searchList_correct_iff built_twoNodes 5 (by decide)).mpr (by decide)⟩

/-- The empty list is followed, and a value in the last node is not found. -/
theorem searchList_ends :
    (Built (fun _ => none) none [] ∧ searchList 5 1 none (fun _ => none) =
      (.error .undefined,fun _ => none)) ∧
    Built twoNodes (some 1) [(1,5),(0,7)] ∧ firstWith 7 [(1,5),(0,7)] = some 0 ∧
      searchList 7 3 (some 1) twoNodes = (.ok none,twoNodes) :=
  ⟨⟨.null _,rfl⟩,built_twoNodes,rfl,rfl⟩

end Searching

section Removing

variable {h : Heap} {p : Ptr} {xs : List (Addr × ℤ)} {fuel : ℕ}

/-- The caller's pointer leads to the list without its first node of value `n` after the result
1, and to the same list after the result 0. -/
def Removed (p : Ptr) (n : ℤ) (xs : List (Addr × ℤ)) (r : ℤ) (t : Heap) : Prop :=
  (r = 1 ∧ n ∈ xs.map Prod.snd ∧ Holds t p (xs.eraseP fun x => x.2 = n)) ∨
    (r = 0 ∧ n ∉ xs.map Prod.snd ∧ Holds t p xs)

theorem wp_removeLoop {n : ℤ} {list cur : Ptr} {a : Addr} {v : ℤ} {ys : List (Addr × ℤ)}
    (hlist : Holds h p (xs ++ (a,v) :: ys)) (hcur : Holds h cur ys)
    (hn : n ∉ (xs ++ [(a,v)]).map Prod.snd) (hfuel : ys.length ≤ fuel) :
    wp (removeLoop list n fuel (some a) cur) (Removed p n (xs ++ (a,v) :: ys)) h := by
  induction ys generalizing xs a v cur fuel with
  | nil =>
    obtain rfl : cur = none := hcur
    rw [removeLoop,wp_pure]
    exact Or.inr ⟨rfl,hn,hlist⟩
  | cons y ys ih =>
    obtain ⟨rfl,r,hy,hrest⟩ := hcur
    obtain ⟨fuel,rfl⟩ : ∃ k, fuel = k+1 := ⟨fuel-1,by simp at hfuel; omega⟩
    have hsplit : xs ++ (a,v) :: y :: ys = (xs ++ [(a,v)]) ++ y :: ys := by simp
    rw [removeLoop,wp_bind,wp_getValue hy]
    by_cases hyn : y.2 = n
    · obtain ⟨s,-,hback⟩ := seg_append.mp hlist
      have hya : y.1 ≠ a := by
        have hnodup := (List.nodup_cons.mp hback.nodup).1
        rintro rfl
        exact hnodup List.mem_cons_self
      obtain ⟨-,_,ha,-⟩ := hback
      have hfree : Function.update h a (some ⟨v,r⟩) y.1 = some ⟨y.2,r⟩ := by
        rw [Function.update_of_ne hya,hy]
      have herase : (xs ++ (a,v) :: y :: ys).eraseP (fun x => x.2 = n) = xs ++ (a,v) :: ys := by
        rw [hsplit,List.eraseP_append_right,List.eraseP_cons_of_pos (by simpa using hyn)]
        · simp
        · intro x hx hxn
          exact hn (List.mem_map.mpr ⟨x,hx,by simpa using hxn⟩)
      rw [if_pos hyn,if_neg (by simp),wp_bind,wp_bypass ha hy,wp_bind,wp_free hfree,wp_pure]
      refine Or.inl ⟨rfl,?_,?_⟩
      · simp [hyn]
      · rw [herase]
        exact hlist.unlink hy
    · rw [if_neg hyn,wp_bind,wp_getNext hy]
      rw [hsplit] at hlist ⊢
      refine ih hlist hrest ?_ (by simpa using hfuel)
      rw [List.map_append,List.mem_append,not_or]
      exact ⟨hn,by simpa using Ne.symm hyn⟩

/-- The first node is freed, and the caller's pointer still leads to it. -/
theorem removeNode_first {n : ℤ} {a : Addr} (hlist : Holds h p ((a,n) :: xs)) (fuel : ℕ) :
    removeNode (fuel+1) p n h = (.ok 1,Function.update h a none) := by
  obtain ⟨rfl,r,ha,-⟩ := hlist
  have hremove : wp (removeNode (fuel+1) (some a) n)
      (fun r t => r = 1 ∧ t = Function.update h a none) h := by
    rw [removeNode,removeLoop,wp_bind,wp_getValue ha,if_pos rfl,if_pos rfl,wp_bind,wp_getNext ha,
      wp_bind,wp_free ha,wp_pure]
    exact ⟨rfl,rfl⟩
  obtain ⟨_,_,heq,rfl,rfl⟩ := hremove
  exact heq

theorem not_holds {t : Heap} {a : Addr} (ha : t a = none) (ys : List (Addr × ℤ)) :
    ¬Holds t (some a) ys := by
  cases ys with
  | nil => simp [Holds,Seg]
  | cons y ys =>
    rintro ⟨hy,_,hcell,-⟩
    rw [← Option.some.inj hy,ha] at hcell
    cases hcell

/-- For every finite list, `remove_node` does to the caller's list what its result says exactly
if the value is not in the first node. -/
theorem removeNode_correct_iff (hlist : Holds h p xs) (n : ℤ) (hfuel : xs.length ≤ fuel) :
    wp (removeNode fuel p n) (Removed p n xs) h ↔ xs.head?.map Prod.snd ≠ some n := by
  cases xs with
  | nil =>
    obtain rfl : p = none := hlist
    rw [removeNode,removeLoop,wp_pure]
    exact iff_of_true (Or.inr ⟨rfl,List.not_mem_nil,rfl⟩) (by simp)
  | cons x xs =>
    obtain ⟨fuel,rfl⟩ : ∃ k, fuel = k+1 := ⟨fuel-1,by simp at hfuel; omega⟩
    obtain ⟨a,v⟩ := x
    by_cases hv : v = n
    · subst hv
      have hfirst := removeNode_first hlist fuel
      have hnot := not_holds (Function.update_self a (none : Option Node) h)
      obtain rfl : p = some a := hlist.1
      simp [wp,hfirst,Removed,hnot]
    · refine iff_of_true ?_ (by simpa using hv)
      have hwhole : Holds h p ([] ++ (a,v) :: xs) := hlist
      obtain ⟨rfl,r,ha,hrest⟩ := hlist
      rw [removeNode,removeLoop,wp_bind,wp_getValue ha,if_neg hv,wp_bind,wp_getNext ha]
      exact wp_removeLoop hwhole hrest (by simpa using Ne.symm hv) (by simpa using hfuel)

theorem removeNode_second : Holds twoNodes (some 1) [(1,5),(0,7)] ∧
    wp (removeNode 2 (some 1) 7) (Removed (some 1) 7 [(1,5),(0,7)]) twoNodes :=
  ⟨built_twoNodes.holds,(removeNode_correct_iff built_twoNodes.holds 7 (by decide)).mpr (by decide)⟩

/-- The node of 7 is still there, but the caller's pointer leads to a node that is freed. -/
theorem removeNode_dangling : Holds twoNodes (some 1) [(1,5),(0,7)] ∧
    (removeNode 2 (some 1) 5 twoNodes).1 = .ok 1 ∧
    (removeNode 2 (some 1) 5 twoNodes).2 1 = none ∧
    ¬Holds (removeNode 2 (some 1) 5 twoNodes).2 (some 1) [(0,7)] :=
  ⟨built_twoNodes.holds,rfl,rfl,not_holds rfl _⟩

end Removing

end FuncList
end CPrograming
