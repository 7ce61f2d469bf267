import CPrograming.ContainerListRefinement

/-!
# What the list code reads before it assigns it

`list_create` leaves both fields of the container as `malloc` gave them, and the first
call that reads anything reads one of them. So the calls depend on the contents of fresh
memory, unless none of them reads a field at all.
-/

namespace CPrograming
namespace ContainerList

open Programs

variable {S : Type}

/-- Reads of unassigned fields are only ever added. -/
def Grows (h h' : Heap S) : Prop := h.stray <+: h'.stray

section Growing

variable {α β : Type} {x : Prog (Heap S) α} {f : α → Prog (Heap S) β}

theorem grows_pure (a : α) : Keeps Grows (pure a : Prog (Heap S) α) :=
  keeps_pure (fun h => List.prefix_refl h.stray) a

theorem grows_stop (e : Stop) : Keeps Grows (stop e : Prog (Heap S) α) :=
  keeps_stop (fun h => List.prefix_refl h.stray) e

theorem grows_bind (hx : Keeps Grows x) (hf : ∀ a, Keeps Grows (f a)) : Keeps Grows (x >>= f) :=
  keeps_bind (fun _ _ _ h h' => List.IsPrefix.trans h h') hx hf

theorem theBox_grows : Keeps Grows (theBox : Prog (Heap S) Box) := by
  intro h
  simp only [theBox]
  split <;> exact List.prefix_rfl

theorem theNode_grows (p : Ptr) : Keeps Grows (theNode p : Prog (Heap S) (Addr × Node S)) := by
  intro h
  simp only [theNode]
  split
  · exact List.prefix_rfl
  · split <;> exact List.prefix_rfl

theorem read_grows (c : Cell α) (g : Field) : Keeps Grows (read c g : Prog (Heap S) α) := by
  intro h
  change h.stray <+: (h.note c g).stray
  simp only [Heap.note]
  split_ifs
  · exact List.prefix_rfl
  · exact List.prefix_append _ _

theorem modify_grows {g : Heap S → Heap S} (hg : ∀ h, (g h).stray = h.stray) :
    Keeps Grows (modify g) := by
  intro h
  change h.stray <+: (g h).stray
  rw [hg]

theorem malloc_grows (block : Option Addr) (nd : Node S) : Keeps Grows (malloc block nd) := by
  intro h
  cases block with
  | none => exact List.prefix_rfl
  | some a =>
    simp only [malloc]
    split_ifs <;> exact List.prefix_rfl

theorem isNull_grows : Keeps Grows (isNull : Prog (Heap S) Bool) := fun _ => List.prefix_rfl

theorem getHead_grows : Keeps Grows (getHead : Prog (Heap S) Ptr) :=
  grows_bind theBox_grows fun _ => read_grows _ _

theorem getTail_grows : Keeps Grows (getTail : Prog (Heap S) Ptr) :=
  grows_bind theBox_grows fun _ => read_grows _ _

theorem setHead_grows (p : Ptr) : Keeps Grows (setHead p : Prog (Heap S) Unit) :=
  grows_bind theBox_grows fun _ => modify_grows fun _ => rfl

theorem setTail_grows (p : Ptr) : Keeps Grows (setTail p : Prog (Heap S) Unit) :=
  grows_bind theBox_grows fun _ => modify_grows fun _ => rfl

theorem getVal_grows (p : Ptr) : Keeps Grows (getVal p : Prog (Heap S) (Option S)) :=
  grows_bind (theNode_grows p) fun _ => read_grows _ _

theorem getNext_grows (p : Ptr) : Keeps Grows (getNext p : Prog (Heap S) Ptr) :=
  grows_bind (theNode_grows p) fun _ => read_grows _ _

theorem getLast_grows (p : Ptr) : Keeps Grows (getLast p : Prog (Heap S) Ptr) :=
  grows_bind (theNode_grows p) fun _ => read_grows _ _

theorem setVal_grows (p : Ptr) (v : Option S) : Keeps Grows (setVal p v) :=
  grows_bind (theNode_grows p) fun _ => modify_grows fun _ => rfl

theorem setNext_grows (p q : Ptr) : Keeps Grows (setNext p q : Prog (Heap S) Unit) :=
  grows_bind (theNode_grows p) fun _ => modify_grows fun _ => rfl

theorem setLast_grows (p q : Ptr) : Keeps Grows (setLast p q : Prog (Heap S) Unit) :=
  grows_bind (theNode_grows p) fun _ => modify_grows fun _ => rfl

theorem free_grows (p : Ptr) : Keeps Grows (free p : Prog (Heap S) Unit) :=
  grows_bind (theNode_grows p) fun _ => modify_grows fun _ => rfl

theorem linkFirst_grows (p head : Ptr) : Keeps Grows (linkFirst p head : Prog (Heap S) ℤ) := by
  refine keeps_ite ?_ ?_
  · exact grows_bind (setTail_grows p) fun _ => grows_bind (setHead_grows p) fun _ => grows_pure _
  · refine grows_bind getHead_grows fun _ => grows_bind (setLast_grows _ _) fun _ => ?_
    refine grows_bind getHead_grows fun _ => grows_bind (setNext_grows _ _) fun _ => ?_
    exact grows_bind (setHead_grows p) fun _ => grows_pure _

theorem linkLast_grows (p tail : Ptr) : Keeps Grows (linkLast p tail : Prog (Heap S) ℤ) := by
  refine keeps_ite ?_ ?_
  · exact grows_bind (setTail_grows p) fun _ => grows_bind (setHead_grows p) fun _ => grows_pure _
  · refine grows_bind getTail_grows fun _ => grows_bind (setNext_grows _ _) fun _ => ?_
    refine grows_bind getTail_grows fun _ => grows_bind (setLast_grows _ _) fun _ => ?_
    exact grows_bind (setTail_grows p) fun _ => grows_pure _

theorem dropLast_grows (tail : Ptr) : Keeps Grows (dropLast tail : Prog (Heap S) (Option S)) := by
  refine keeps_ite (grows_pure _) ?_
  refine grows_bind getTail_grows fun _ => grows_bind (getVal_grows _) fun _ => ?_
  refine grows_bind getTail_grows fun _ => grows_bind getTail_grows fun _ => ?_
  refine grows_bind (getLast_grows _) fun _ => keeps_ite ?_ ?_
  · refine grows_bind (setTail_grows _) fun _ => grows_bind (setHead_grows _) fun _ => ?_
    exact grows_bind (free_grows _) fun _ => grows_pure _
  · refine grows_bind getTail_grows fun _ => grows_bind (getLast_grows _) fun _ => ?_
    refine grows_bind (setTail_grows _) fun _ => grows_bind getTail_grows fun _ => ?_
    refine grows_bind (setNext_grows _ _) fun _ => ?_
    exact grows_bind (free_grows _) fun _ => grows_pure _

theorem isOnly_grows (p : Ptr) : Keeps Grows (isOnly p : Prog (Heap S) Bool) := by
  refine grows_bind (getLast_grows p) fun _ => keeps_ite ?_ (grows_pure _)
  exact grows_bind (getNext_grows p) fun _ => grows_pure _

theorem clearEnds_grows (only : Bool) : Keeps Grows (clearEnds only : Prog (Heap S) Unit) :=
  keeps_ite (grows_bind (setTail_grows _) fun _ => setHead_grows _) (grows_pure _)

theorem relinkLast_grows (p : Ptr) : Keeps Grows (relinkLast p : Prog (Heap S) Unit) := by
  refine grows_bind (getLast_grows p) fun _ => keeps_ite ?_ ?_
  · refine grows_bind (getLast_grows p) fun _ => grows_bind (getNext_grows p) fun _ => ?_
    exact setNext_grows _ _
  · exact grows_bind (getNext_grows p) fun _ => setHead_grows _

theorem relinkNext_grows (p : Ptr) : Keeps Grows (relinkNext p : Prog (Heap S) Unit) := by
  refine grows_bind (getNext_grows p) fun _ => keeps_ite ?_ ?_
  · refine grows_bind (getNext_grows p) fun _ => grows_bind (getLast_grows p) fun _ => ?_
    exact setLast_grows _ _
  · exact grows_bind (getLast_grows p) fun _ => setTail_grows _

theorem unlink_grows (p : Ptr) : Keeps Grows (unlink p : Prog (Heap S) ℤ) := by
  refine grows_bind (isOnly_grows p) fun _ => grows_bind (clearEnds_grows _) fun _ => ?_
  refine grows_bind (relinkLast_grows p) fun _ => grows_bind (relinkNext_grows p) fun _ => ?_
  exact grows_bind (free_grows p) fun _ => grows_pure _

variable (text : S → List UInt8)

theorem strcmpEq_grows (p : Option S) (val : S) : Keeps Grows (strcmpEq text p val) := by
  cases p with
  | none => exact grows_stop _
  | some s => exact grows_pure _

theorem walk_grows {A : Type} {done : Prog (Heap S) α}
    {body : A → (Option A → Prog (Heap S) α) → Prog (Heap S) α} (hdone : Keeps Grows done)
    (hbody : ∀ a loop, (∀ p, Keeps Grows (loop p)) → Keeps Grows (body a loop)) (fuel : ℕ)
    (p : Option A) : Keeps Grows (walk done body fuel p) :=
  keeps_walk (fun h => List.prefix_refl h.stray) hdone hbody fuel p

theorem removeLoop_grows (val : S) (fuel : ℕ) (current : Ptr) :
    Keeps Grows (removeLoop text val fuel current) := by
  refine walk_grows (grows_pure _) (fun a loop hloop => ?_) fuel current
  refine grows_bind (getVal_grows _) fun _ => grows_bind (strcmpEq_grows text _ _) fun _ => ?_
  exact keeps_ite (unlink_grows _) (grows_bind (getNext_grows _) hloop)

theorem searchLoop_grows (val : S) (fuel : ℕ) (current : Ptr) :
    Keeps Grows (searchLoop text val fuel current) := by
  refine walk_grows (grows_pure _) (fun a loop hloop => ?_) fuel current
  refine grows_bind (getVal_grows _) fun _ => grows_bind (strcmpEq_grows text _ _) fun _ => ?_
  exact keeps_ite (getVal_grows _) (grows_bind (getNext_grows _) hloop)

theorem displayLoop_grows (fuel : ℕ) (current : Ptr) :
    Keeps Grows (displayLoop fuel current : Prog (Heap S) (List S)) := by
  refine walk_grows (grows_pure _) (fun a loop hloop => ?_) fuel current
  refine grows_bind (getVal_grows _) fun v => ?_
  cases v with
  | none => exact grows_stop _
  | some s =>
    exact grows_bind (getNext_grows _) fun _ => grows_bind (hloop _) fun _ => grows_pure _

theorem destoryLoop_grows (fuel : ℕ) (current : Ptr) :
    Keeps Grows (destoryLoop fuel current : Prog (Heap S) Unit) := by
  refine walk_grows (grows_pure _) (fun a loop hloop => ?_) fuel current
  exact grows_bind (free_grows _) fun _ => grows_bind (getNext_grows _) hloop

theorem freeContainer_grows : Keeps Grows (freeContainer : Prog (Heap S) Unit) :=
  grows_bind theBox_grows fun _ => modify_grows fun _ => rfl

theorem perform_grows (fuel : ℕ) (nd : Node S) (c : Call S) :
    Keeps Grows (c.perform text fuel nd) := by
  cases c with
  | insert val block =>
    refine grows_bind (grows_bind (malloc_grows block nd) fun p => ?_) fun _ => grows_pure _
    refine keeps_ite (grows_pure _) (grows_bind (setVal_grows p _) fun _ => ?_)
    exact grows_bind getHead_grows (linkFirst_grows p)
  | append val block =>
    refine grows_bind (grows_bind (malloc_grows block nd) fun p => ?_) fun _ => grows_pure _
    refine keeps_ite (grows_pure _) (grows_bind (setVal_grows p _) fun _ => ?_)
    exact grows_bind getTail_grows (linkLast_grows p)
  | remove =>
    refine grows_bind (grows_bind isNull_grows fun _ => ?_) fun _ => grows_pure _
    exact keeps_ite (grows_pure _) (grows_bind getTail_grows dropLast_grows)
  | removeSpecified val =>
    refine grows_bind (grows_bind isNull_grows fun _ => ?_) fun _ => grows_pure _
    exact keeps_ite (grows_pure _) (grows_bind getHead_grows (removeLoop_grows text val fuel))
  | search val =>
    exact grows_bind (grows_bind getHead_grows (searchLoop_grows text val fuel)) fun _ =>
      grows_pure _
  | isEmpty =>
    refine grows_bind (grows_bind getHead_grows fun _ => ?_) fun _ => grows_pure _
    exact keeps_ite (grows_bind getTail_grows fun _ => grows_pure _) (grows_pure _)
  | display =>
    exact grows_bind (grows_bind getHead_grows (displayLoop_grows fuel)) fun _ => grows_pure _
  | destory =>
    refine grows_bind (grows_bind isNull_grows fun _ => ?_) fun _ => grows_pure _
    refine keeps_ite (grows_pure _) (grows_bind getHead_grows fun _ => ?_)
    exact grows_bind (destoryLoop_grows fuel _) fun _ => freeContainer_grows

theorem run_grows (fuel : ℕ) (g : Contents S) (k : ℕ) (h : Heap S) (calls : List (Call S)) :
    Grows h (run text fuel g k h calls).2 := by
  induction calls generalizing k h with
  | nil => exact List.prefix_refl _
  | cons c calls ih =>
    have hc := perform_grows text fuel (g.node k) c h
    simp only [run]
    split
    · rename_i hrun
      rw [hrun] at hc
      exact List.IsPrefix.trans hc (ih (k+1) _)
    · rename_i hrun
      rwa [hrun] at hc

end Growing

section FirstRead

variable {α β : Type} {x : Prog (Heap S) α} {f : α → Prog (Heap S) β} {h : Heap S}

theorem stray_bind (hx : (x h).2.stray ≠ []) (hf : ∀ a, Keeps Grows (f a)) :
    ((x >>= f) h).2.stray ≠ [] := by
  cases hrun : x h with
  | mk r t =>
    rw [hrun] at hx
    cases r with
    | ok a =>
      rw [bind_of_ok hrun]
      intro hnil
      have hgrows : t.stray <+: (f a t).2.stray := hf a t
      rw [hnil,List.prefix_nil] at hgrows
      exact hx hgrows
    | error e =>
      rw [bind_of_error hrun]
      exact hx

theorem boxField_stray {b : Box} {cell : Box → Cell Ptr} {g : Field} (hbox : h.container = .block b)
    (hb : (cell b).assigned = false) : ((theBox >>= fun b => read (cell b) g) h).2.stray ≠ [] := by
  have hrun : theBox h = (.ok b,h) := by simp only [theBox,hbox]
  rw [bind_of_ok hrun]
  change (h.note (cell b) g).stray ≠ []
  simp [Heap.note,hb]

end FirstRead

/-- `list_insert` or `list_append` with a failing `malloc`. -/
def Call.refused : Call S → Bool
  | .insert _ none => true
  | .append _ none => true
  | _ => false

section Fresh

variable (text : S → List UInt8) (fuel : ℕ)

theorem perform_refused (nd : Node S) {c : Call S} (hc : c.refused = true) (h : Heap S) :
    c.perform text fuel nd h = (.ok (.int (-1)),h) := by
  cases c with
  | insert val block =>
    cases block with
    | none => rfl
    | some a => simp [Call.refused] at hc
  | append val block =>
    cases block with
    | none => rfl
    | some a => simp [Call.refused] at hc
  | _ => simp [Call.refused] at hc

theorem setVal_created (g : Contents S) (nd : Node S) (a : Addr) (val : S) :
    ∃ t, setVal (some a) (some val) ((listCreate (some g.box)).setNode a (some nd)) = (.ok (),t) ∧
      t.container = .block g.box := by
  have hset : wp (setVal (some a) (some val)) (fun _ t => t.container = .block g.box)
      ((listCreate (some g.box)).setNode a (some nd)) := by
    simp [listCreate]
  obtain ⟨⟨⟩,t,hrun,ht⟩ := hset
  exact ⟨t,hrun,ht⟩

/-- The first call that reads anything reads a field of the container, and nobody has
assigned it. -/
theorem perform_stray (g : Contents S) (nd : Node S) {c : Call S} (hc : c.refused = false) :
    (c.perform text fuel nd (listCreate (some g.box))).2.stray ≠ [] := by
  have hhead : ∀ h : Heap S, h.container = .block g.box → (getHead h).2.stray ≠ [] :=
    fun h hbox => boxField_stray hbox rfl
  have htail : ∀ h : Heap S, h.container = .block g.box → (getTail h).2.stray ≠ [] :=
    fun h hbox => boxField_stray hbox rfl
  have hnull : isNull (listCreate (some g.box) : Heap S) =
      (.ok false,listCreate (some g.box)) := rfl
  have hmalloc : ∀ a, malloc (some a) nd (listCreate (some g.box)) =
      (.ok (some a),(listCreate (some g.box)).setNode a (some nd)) := fun _ => rfl
  cases c with
  | insert val block =>
    cases block with
    | none => simp [Call.refused] at hc
    | some a =>
      obtain ⟨t,hset,ht⟩ := setVal_created g nd a val
      refine stray_bind (x := listInsert val (some a) nd) ?_ fun _ => grows_pure _
      rw [listInsert,bind_of_ok (hmalloc a),if_neg (Option.some_ne_none a),bind_of_ok hset]
      exact stray_bind (hhead t ht) (linkFirst_grows _)
  | append val block =>
    cases block with
    | none => simp [Call.refused] at hc
    | some a =>
      obtain ⟨t,hset,ht⟩ := setVal_created g nd a val
      refine stray_bind (x := listAppend val (some a) nd) ?_ fun _ => grows_pure _
      rw [listAppend,bind_of_ok (hmalloc a),if_neg (Option.some_ne_none a),bind_of_ok hset]
      exact stray_bind (htail t ht) (linkLast_grows _)
  | remove =>
    refine stray_bind (x := listRemove) ?_ fun _ => grows_pure _
    rw [listRemove,bind_of_ok hnull]
    exact stray_bind (htail _ rfl) dropLast_grows
  | removeSpecified val =>
    refine stray_bind (x := listRemoveSpecified text fuel val) ?_ fun _ => grows_pure _
    rw [listRemoveSpecified,bind_of_ok hnull]
    exact stray_bind (hhead _ rfl) (removeLoop_grows text val fuel)
  | search val =>
    exact stray_bind (stray_bind (hhead _ rfl) (searchLoop_grows text val fuel)) fun _ =>
      grows_pure _
  | isEmpty =>
    refine stray_bind (stray_bind (hhead _ rfl) fun _ => ?_) fun _ => grows_pure _
    exact keeps_ite (grows_bind getTail_grows fun _ => grows_pure _) (grows_pure _)
  | display =>
    exact stray_bind (stray_bind (hhead _ rfl) (displayLoop_grows fuel)) fun _ => grows_pure _
  | destory =>
    refine stray_bind (x := listDestory fuel) ?_ fun _ => grows_pure _
    rw [listDestory,bind_of_ok hnull]
    refine stray_bind (hhead _ rfl) fun _ => ?_
    exact grows_bind (destoryLoop_grows fuel _) fun _ => freeContainer_grows

/-- No call reads an unassigned field exactly if no call reads a field. -/
theorem run_stray_iff (g : Contents S) (k : ℕ) (calls : List (Call S)) :
    (run text fuel g k (listCreate (some g.box)) calls).2.stray = [] ↔
      ∀ c ∈ calls, c.refused = true := by
  induction calls generalizing k with
  | nil => simp [run,listCreate]
  | cons c calls ih =>
    cases hc : c.refused with
    | true =>
      rw [run,perform_refused text fuel (g.node k) hc]
      simpa [hc] using ih (k+1)
    | false =>
      have hstray := perform_stray text fuel g (g.node k) hc
      simp only [List.forall_mem_cons,hc,Bool.false_eq_true,false_and,iff_false]
      intro hnil
      rw [run] at hnil
      split at hnil
      · rename_i h' hrun
        rw [hrun] at hstray
        have hgrows := run_grows text fuel g (k+1) h' calls
        rw [Grows,hnil,List.prefix_nil] at hgrows
        exact hstray hgrows
      · rename_i hrun
        rw [hrun] at hstray
        exact hstray hnil

/-- Both ends of the container point to `a`, where there is no node. -/
def Contents.wild (S : Type) (a : Addr) : Contents S :=
  { Contents.zero S with head := some a, tail := some a }

theorem perform_zero (k : ℕ) (c : Call S) : ∃ r,
    (c.perform text fuel ((Contents.zero S).node k)
      (listCreate (some (Contents.zero S).box))).1 = .ok r := by
  by_cases hc : c = .destory
  · subst c
    have hdestory : wp (Call.destory.perform text fuel ((Contents.zero S).node k))
        (fun _ _ => True) (listCreate (some (Contents.zero S).box)) := by
      simp [Call.perform,listDestory,destoryLoop,freeContainer,listCreate,Contents.zero,
        Contents.box]
    obtain ⟨r,h',hrun,-⟩ := hdestory
    exact ⟨r,by rw [hrun]⟩
  · obtain ⟨r,h',hrun,-⟩ := perform_spec text c ((Contents.zero S).node k) hc (create_repr S)
      (Nat.zero_le fuel) rfl rfl
    exact ⟨r,by rw [hrun]⟩

/-- A call that follows one of the wild pointers does not come back. -/
theorem perform_wild (nd : Node S) {c : Call S} (hc : c.refused = false) (hempty : c ≠ .isEmpty) :
    ∃ a, ¬ wp (c.perform text fuel nd) (fun _ _ => True)
      (listCreate (some (Contents.wild S a).box)) := by
  cases c with
  | insert val block =>
    cases block with
    | none => simp [Call.refused] at hc
    | some b =>
      refine ⟨b+1,?_⟩
      rw [Call.perform,wp_bind,listInsert,wp_bind,wp_malloc_granted rfl]
      simp [linkFirst,listCreate,Contents.wild,Contents.box]
  | append val block =>
    cases block with
    | none => simp [Call.refused] at hc
    | some b =>
      refine ⟨b+1,?_⟩
      rw [Call.perform,wp_bind,listAppend,wp_bind,wp_malloc_granted rfl]
      simp [linkLast,listCreate,Contents.wild,Contents.box]
  | remove =>
    exact ⟨0,by simp [Call.perform,listRemove,dropLast,listCreate,Contents.wild,Contents.box]⟩
  | removeSpecified val =>
    refine ⟨0,?_⟩
    cases fuel <;>
      simp [Call.perform,listRemoveSpecified,removeLoop,walk,listCreate,Contents.wild,Contents.box]
  | search val =>
    refine ⟨0,?_⟩
    cases fuel <;>
      simp [Call.perform,listSearch,searchLoop,walk,listCreate,Contents.wild,Contents.box]
  | isEmpty => exact absurd rfl hempty
  | display =>
    refine ⟨0,?_⟩
    cases fuel <;>
      simp [Call.perform,listDisplay,displayLoop,walk,listCreate,Contents.wild,Contents.box]
  | destory =>
    refine ⟨0,?_⟩
    cases fuel <;>
      simp [Call.perform,listDestory,destoryLoop,walk,listCreate,Contents.wild,Contents.box]

theorem results_cons (g : Contents S) (k : ℕ) (h : Heap S) (c : Call S) (calls : List (Call S)) :
    ∃ rest, (run text fuel g k h (c :: calls)).1.map Entry.result =
      (c.perform text fuel (g.node k) h).1 :: rest := by
  rw [run]
  split
  · rename_i hrun
    exact ⟨_,by rw [hrun]; rfl⟩
  · rename_i hrun
    exact ⟨[],by rw [hrun]; rfl⟩

theorem perform_differs (k : ℕ) {c : Call S} (hc : c.refused = false) : ∃ g g' : Contents S,
    (c.perform text fuel (g.node k) (listCreate (some g.box))).1 ≠
      (c.perform text fuel (g'.node k) (listCreate (some g'.box))).1 := by
  by_cases hempty : c = .isEmpty
  · subst c
    have hzero : (Call.isEmpty.perform text fuel ((Contents.zero S).node k)
        (listCreate (some (Contents.zero S).box))).1 = .ok (.int 1) := rfl
    have hwild : (Call.isEmpty.perform text fuel ((Contents.wild S 0).node k)
        (listCreate (some (Contents.wild S 0).box))).1 = .ok (.int 0) := rfl
    refine ⟨.zero S,.wild S 0,?_⟩
    rw [hzero,hwild]
    simp
  · obtain ⟨a,hwild⟩ := perform_wild text fuel ((Contents.wild S 0).node k) hc hempty
    obtain ⟨r,hzero⟩ := perform_zero text fuel k c
    refine ⟨.zero S,.wild S a,?_⟩
    intro heq
    rw [hzero] at heq
    exact hwild ⟨r,_,Prod.ext heq.symm rfl,trivial⟩

/-- The results do not depend on the contents of fresh memory exactly if no call reads a
field. -/
theorem run_results_iff (k : ℕ) (calls : List (Call S)) :
    (∀ g g' : Contents S, (run text fuel g k (listCreate (some g.box)) calls).1.map Entry.result =
      (run text fuel g' k (listCreate (some g'.box)) calls).1.map Entry.result) ↔
      ∀ c ∈ calls, c.refused = true := by
  induction calls generalizing k with
  | nil => simp [run]
  | cons c calls ih =>
    cases hc : c.refused with
    | true =>
      simp only [run,perform_refused text fuel _ hc]
      simpa [hc] using ih (k+1)
    | false =>
      simp only [List.forall_mem_cons,hc,Bool.false_eq_true,false_and,iff_false]
      intro hall
      obtain ⟨g,g',hne⟩ := perform_differs text fuel k hc
      obtain ⟨rest,hg⟩ := results_cons text fuel g k (listCreate (some g.box)) c calls
      obtain ⟨rest',hg'⟩ := results_cons text fuel g' k (listCreate (some g'.box)) c calls
      have heq := hall g g'
      rw [hg,hg'] at heq
      exact hne (List.cons.inj heq).1

end Fresh

/-- Starting from `list_create`, no call reads a field that the list code has not assigned,
and no result depends on what `malloc` left in a block, exactly if every call is one of
`list_insert` and `list_append` whose `malloc` fails. -/
theorem list_initialised_iff (S : Type) (text : S → List UInt8) (fuel : ℕ)
    (calls : List (Call S)) :
    (∀ g : Contents S, (run text fuel g 0 (listCreate (some g.box)) calls).2.stray = [] ↔
      ∀ c ∈ calls, c.refused = true) ∧
    ((∀ g g' : Contents S,
      (run text fuel g 0 (listCreate (some g.box)) calls).1.map Entry.result =
        (run text fuel g' 0 (listCreate (some g'.box)) calls).1.map Entry.result) ↔
      ∀ c ∈ calls, c.refused = true) :=
  ⟨fun g => run_stray_iff text fuel g 0 calls,run_results_iff text fuel 0 calls⟩

/-- A list that nothing was put into is not empty, if the memory of the container held
something else before. -/
theorem created_not_empty :
    ((run id 0 (.zero (List UInt8)) 0 (listCreate (some (Contents.zero (List UInt8)).box))
      [.isEmpty]).1.map Entry.result = [.ok (.int 1)]) ∧
    ((run id 0 (.wild (List UInt8) 7) 0 (listCreate (some (Contents.wild (List UInt8) 7).box))
      [.isEmpty]).1.map Entry.result = [.ok (.int 0)]) ∧
    (run id 0 (.wild (List UInt8) 7) 0 (listCreate (some (Contents.wild (List UInt8) 7).box))
      [.isEmpty]).2.stray = [.head] := ⟨rfl,rfl,rfl⟩

end ContainerList
end CPrograming
