import CPrograming.ReadlineIsolation
import CPrograming.ThreadReadlineCalls

/-!
# Where `thread_readline` finds its state

The first call of a thread allocates the `Rline` and registers it; it does not initialise
it. A later call does not ask for it: its variable `tsd` has whatever value the stack
holds. So the calls are calls on one `Rline` only if the leftovers happen to be right.
-/

namespace CPrograming
namespace ThreadReadline

open Readline

/-- The calls of one thread, from the `k`-th on, each with a descriptor and a limit: what
they return and store. -/
def session (g : ℕ → Leftover) : (asks : List (ℤ × ℕ)) → (k : ℕ) → Thread →
    List (Outcome × List (ℕ × UInt8))
  | [], _, _ => []
  | (fd,maxlen) :: asks, k, t =>
    let (outcome,stores,t) := threadReadline fd maxlen (g k) t
    (outcome,stores) ::
      match outcome with
      | .returned _ => session g asks (k+1) t
      | _ => []

def shared : (asks : List (ℤ × ℕ)) → Reader → List (Outcome × List (ℕ × UInt8))
  | [], _ => []
  | (fd,maxlen) :: asks, r =>
    let call := threadReadlineOn fd maxlen r
    (call.outcome,call.stores) ::
      match call.outcome with
      | .returned _ => shared asks call.reader
      | _ => []

/-- The first call gets the block `a` with nothing in its buffer, and in every later call
`tsd` still points to it. -/
structure Proper (a : Addr) (g : ℕ → Leftover) : Prop where
  block : (g 0).block = some a
  cnt : (g 0).contents.cnt ≤ 0
  tsd : ∀ k, 0 < k → (g k).tsd = some a

section Lookup

variable {t t' : Thread} {g : Leftover} {a : Addr} {line : Rline}

/-- A call works on the `Rline` that `tsd` points to. -/
theorem threadReadline_at (fd : ℤ) (maxlen : ℕ) (hlookup : t.lookup g = (some a,t'))
    (hline : t'.heap a = some line) (hkey : t'.key = some a) : ∃ after line',
      threadReadline fd maxlen g t = ((threadReadlineOn fd maxlen (t'.reader line)).outcome,
        (threadReadlineOn fd maxlen (t'.reader line)).stores,after) ∧
      after.key = some a ∧ after.heap a = some line' ∧
      after.reader line' = (threadReadlineOn fd maxlen (t'.reader line)).reader := by
  by_cases hm : maxlen ≤ 1
  · rw [threadReadlineOn_one fd hm]
    exact ⟨t',line,by simp [threadReadline,hlookup,hm],hkey,hline,rfl⟩
  · refine ⟨t'.put a (threadReadlineOn fd maxlen (t'.reader line)).reader,
      ⟨_,_,_⟩,?_,hkey,by simp [Thread.put],rfl⟩
    simp [threadReadline,hlookup,hm,hline]

theorem lookup_registered (hkey : t.key = some a) : t.lookup g = (g.tsd,t) := by
  simp [Thread.lookup,hkey]

theorem lookup_first (hkey : t.key = none) (hblock : g.block = some a) (hfree : t.heap a = none) :
    t.lookup g = (some a,⟨Function.update t.heap a (some g.contents),some a,t.answers,t.log⟩) := by
  have hmalloc : t.malloc g = some a := by simp [Thread.malloc,hblock,Option.filter,hfree]
  simp [Thread.lookup,hkey,hmalloc]

end Lookup

section Sessions

variable {t t' : Thread} {g : ℕ → Leftover} {a : Addr} {line : Rline} {k : ℕ}

theorem session_cons (fd : ℤ) (maxlen : ℕ) {asks : List (ℤ × ℕ)}
    (hlookup : t.lookup (g k) = (some a,t')) (hline : t'.heap a = some line)
    (hkey : t'.key = some a) (hrest : ∀ after line', after.key = some a →
      after.heap a = some line' → session g asks (k+1) after = shared asks (after.reader line')) :
    session g ((fd,maxlen) :: asks) k t = shared ((fd,maxlen) :: asks) (t'.reader line) := by
  obtain ⟨after,line',hcall,hkey',hline',hreader⟩ := threadReadline_at fd maxlen hlookup hline hkey
  rw [session,hcall,shared]
  cases (threadReadlineOn fd maxlen (t'.reader line)).outcome with
  | waiting | undefined => rfl
  | returned v =>
    dsimp only
    rw [hrest after line' hkey' hline',hreader]

theorem session_registered (asks : List (ℤ × ℕ)) (hkey : t.key = some a)
    (hline : t.heap a = some line) (htsd : ∀ j, k ≤ j → (g j).tsd = some a) :
    session g asks k t = shared asks (t.reader line) := by
  induction asks generalizing k t line with
  | nil => rfl
  | cons ask asks ih =>
    have hlookup : t.lookup (g k) = (some a,t) := by rw [lookup_registered hkey,htsd k (le_refl k)]
    refine session_cons ask.1 ask.2 hlookup hline hkey ?_
    intro after line' hkey' hline'
    exact ih hkey' hline' (fun j hj => htsd j (by omega))

theorem session_first (asks : List (ℤ × ℕ)) (hkey : t.key = none) (hfree : t.heap a = none)
    (hblock : (g 0).block = some a) (htsd : ∀ k, 0 < k → (g k).tsd = some a) :
    session g asks 0 t = shared asks (t.reader (g 0).contents) := by
  cases asks with
  | nil => rfl
  | cons ask asks =>
    have hrest (after : Thread) (line' : Rline) (hkey' : after.key = some a)
        (hline' : after.heap a = some line') :
        session g asks 1 after = shared asks (after.reader line') :=
      session_registered asks hkey' hline' fun j hj => htsd j (by omega)
    have hcons := session_cons ask.1 ask.2 (lookup_first hkey hblock hfree)
      (Function.update_self a _ t.heap) rfl hrest
    exact hcons

end Sessions

section Contents

def Same (r s : Reader) : Prop := r.rest = s.rest ∧ r.answers = s.answers

variable {r s : Reader}

theorem again_same (fd : ℤ) (answers : List ReadAnswer) (r s : Reader) :
    (again fd answers r = none ∧ again fd answers s = none) ∨ ∃ got r' s',
      again fd answers r = some (got,r') ∧ again fd answers s = some (got,s') ∧
        r'.answers = s'.answers := by
  induction answers generalizing r s with
  | nil => exact Or.inl ⟨rfl,rfl⟩
  | cons a later ih =>
    cases ha : a.upTo maxLine with
    | data bytes =>
      rw [again_data fd later r ha,again_data fd later s ha]
      exact Or.inr ⟨_,_,_,rfl,rfl,rfl⟩
    | fail e =>
      by_cases he : e = .eintr
      · subst he
        rw [again_interrupted fd later r ha,again_interrupted fd later s ha]
        exact ih _ _
      · rw [again_failed fd later r ha he,again_failed fd later s ha he]
        exact Or.inr ⟨_,_,_,rfl,rfl,rfl⟩

theorem Same.cnt (h : Same r s) : r.cnt ≤ 0 ↔ s.cnt ≤ 0 := by
  have hlen := congrArg List.length h.1
  simp only [Reader.rest,Memory.load_length] at hlen
  omega

/-- The next byte does not depend on anything else. -/
theorem Same.myread (fd : ℤ) (h : Same r s) :
    (Readline.myread fd r = none ∧ Readline.myread fd s = none) ∨ ∃ f r' s',
      Readline.myread fd r = some (f,r') ∧ Readline.myread fd s = some (f,s') ∧ Same r' s' := by
  by_cases hcnt : r.cnt ≤ 0
  · have hcnt' := h.cnt.mp hcnt
    rcases again_same fd r.answers r s with ⟨hr,hs⟩ | ⟨got,r',s',hr,hs,hanswers⟩
    · rw [h.2] at hs
      exact Or.inl ⟨by simp [Readline.myread,hcnt,hr],by simp [Readline.myread,hcnt',hs]⟩
    · right
      obtain ⟨-,hret,hload⟩ := again_reads hr
      obtain ⟨-,hret',hload'⟩ := again_reads hs
      rw [h.2] at hs
      have hempty (hle : got.ret ≤ 0) : Same r' s' := by
        refine ⟨?_,hanswers⟩
        rw [Reader.rest_of_cnt (hret.trans_le hle),Reader.rest_of_cnt (hret'.trans_le hle)]
      cases got with
      | fail e =>
        exact ⟨.error,r',s',by simp [Readline.myread,hcnt,hr],by simp [Readline.myread,hcnt',hs],
          hempty (by simp [ReadAnswer.ret])⟩
      | data bytes =>
        cases bytes with
        | nil =>
          exact ⟨.eof,r',s',by simp [Readline.myread,hcnt,hr],by simp [Readline.myread,hcnt',hs],
            hempty (by simp [ReadAnswer.ret])⟩
        | cons c z =>
          obtain ⟨hc,hz⟩ := Reader.fetch_first (by simp [hret,ReadAnswer.ret]) hload
          obtain ⟨hc',hz'⟩ := Reader.fetch_first (by simp [hret',ReadAnswer.ret]) hload'
          refine ⟨.byte c,_,_,?_,?_,hz.trans hz'.symm,hanswers⟩
          · simp only [Readline.myread,hcnt,hr,if_true,Option.map_some]
            rw [hc]
          · simp only [Readline.myread,hcnt',hs,if_true,Option.map_some]
            rw [hc']
  · right
    have hcnt' := mt h.cnt.mpr hcnt
    have hrest := h.1
    rw [Reader.rest_fetch (not_le.mp hcnt),Reader.rest_fetch (not_le.mp hcnt')] at hrest
    obtain ⟨hc,hrest⟩ := List.cons.inj hrest
    exact ⟨.byte (r.buffer r.point),_,_,by simp [Readline.myread,hcnt,Reader.fetch],
      by simp [Readline.myread,hcnt',Reader.fetch,hc],hrest,h.2⟩

theorem Same.loop (fd : ℤ) (h : Same r s) (left cnt : ℕ) :
    (threadReadlineLoop fd left cnt r).outcome = (threadReadlineLoop fd left cnt s).outcome ∧
      (threadReadlineLoop fd left cnt r).stores = (threadReadlineLoop fd left cnt s).stores ∧
      Same (threadReadlineLoop fd left cnt r).reader (threadReadlineLoop fd left cnt s).reader := by
  induction left generalizing cnt r s with
  | zero => exact ⟨rfl,rfl,h⟩
  | succ left ih =>
    simp only [threadReadlineLoop,threadReadOne]
    rcases h.myread fd with ⟨hr,hs⟩ | ⟨f,r',s',hr,hs,hsame⟩
    · simp only [hr,hs]
      exact ⟨trivial,trivial,h⟩
    · simp only [hr,hs]
      cases f with
      | eof | error => exact ⟨rfl,rfl,hsame⟩
      | byte c =>
        dsimp only
        split_ifs
        · exact ⟨rfl,rfl,hsame⟩
        · exact ⟨rfl,rfl,hsame⟩
        · obtain ⟨houtcome,hstores,hrest⟩ := ih hsame (cnt+1)
          exact ⟨houtcome,congrArg ((cnt,c) :: ·) hstores,hrest⟩

theorem Same.shared (h : Same r s) (asks : List (ℤ × ℕ)) :
    ThreadReadline.shared asks r = ThreadReadline.shared asks s := by
  induction asks generalizing r s with
  | nil => rfl
  | cons ask asks ih =>
    obtain ⟨fd,maxlen⟩ := ask
    obtain ⟨houtcome,hstores,hsame⟩ := h.loop fd (maxlen-1) 0
    simp only [ThreadReadline.shared,threadReadlineOn,houtcome,hstores]
    cases (threadReadlineLoop fd (maxlen-1) 0 s).outcome with
    | waiting | undefined => rfl
    | returned k => exact congrArg _ (ih hsame)

end Contents

section Dependence

variable {fd : ℤ} {r s : Reader} {c d : UInt8} {tail : List UInt8}

theorem threadReadlineLoop_first (h : r.incoming = c :: tail) (left cnt : ℕ) :
    (threadReadlineLoop fd (left+1) cnt r).stores.head? = some (cnt,c) := by
  obtain ⟨r',hread,-⟩ := myread_next fd h
  rw [threadReadlineLoop,threadReadOne]
  simp only [hread]
  split_ifs <;> rfl

theorem shared_ne {tail' : List UInt8} (hr : r.incoming = c :: tail) (hs : s.incoming = d :: tail')
    (hne : c ≠ d) {asks : List (ℤ × ℕ)} (h : ∃ ask ∈ asks, 1 < ask.2) :
    shared asks r ≠ shared asks s := by
  induction asks with
  | nil => simp at h
  | cons ask asks ih =>
    obtain ⟨fd,maxlen⟩ := ask
    by_cases hm : maxlen ≤ 1
    · have hrest : ∃ ask ∈ asks, 1 < ask.2 := by
        simpa [show ¬ 1 < maxlen by omega] using h
      simp only [shared,threadReadlineOn_one fd hm]
      intro heq
      exact ih hrest (List.cons.inj heq).2
    · obtain ⟨left,hleft⟩ : ∃ left, maxlen-1 = left+1 := ⟨maxlen-2,by omega⟩
      intro heq
      have hhead := congrArg (fun e => e.2.head?) (List.cons.inj heq).1
      simp only [threadReadlineOn,hleft] at hhead
      rw [threadReadlineLoop_first hr,threadReadlineLoop_first hs] at hhead
      simp [hne] at hhead

theorem session_short {g : ℕ → Leftover} {asks : List (ℤ × ℕ)} (h : ∀ ask ∈ asks, ask.2 ≤ 1)
    (k : ℕ) (t : Thread) :
    session g asks k t = List.replicate asks.length (.returned 0,[(0,0)]) := by
  induction asks generalizing k t with
  | nil => rfl
  | cons ask asks ih =>
    obtain ⟨fd,maxlen⟩ := ask
    have hm : maxlen ≤ 1 := h (fd,maxlen) List.mem_cons_self
    have hrest := fun t => ih (fun b hb => h b (List.mem_cons_of_mem _ hb)) (k+1) t
    simp [session,threadReadline,hm,hrest,List.replicate_succ]

def holding (a : Addr) (c : UInt8) : ℕ → Leftover := fun _ => ⟨some a,some a,⟨1,0,fun _ => c⟩⟩

theorem holding_incoming (t : Thread) (a : Addr) (c : UInt8) : ∃ tail,
    (t.reader (holding a c 0).contents).incoming = c :: tail := ⟨_,rfl⟩

end Dependence

/-- What a thread's calls return and store depends on the leftovers as soon as one of them
makes a round of the loop. With proper leftovers they are calls on one `Rline` that starts
with nothing in it. -/
theorem leftovers_matter_iff (t : Thread) (a : Addr) (hkey : t.key = none)
    (hfree : t.heap a = none) (asks : List (ℤ × ℕ)) :
    ((∀ g g' : ℕ → Leftover, session g asks 0 t = session g' asks 0 t) ↔
      ∀ ask ∈ asks, ask.2 ≤ 1) ∧
    ∀ g, Proper a g → session g asks 0 t = shared asks ⟨0,0,fun _ => 0,t.answers,t.log⟩ := by
  refine ⟨⟨?_,?_⟩,?_⟩
  · intro hsame
    by_contra hlong
    have hlong : ∃ ask ∈ asks, 1 < ask.2 := by simpa using hlong
    have heq := hsame (holding a newline) (holding a 97)
    rw [session_first asks hkey hfree rfl (fun _ _ => rfl),
      session_first asks hkey hfree rfl (fun _ _ => rfl)] at heq
    obtain ⟨tail,hr⟩ := holding_incoming t a newline
    obtain ⟨tail',hs⟩ := holding_incoming t a 97
    exact shared_ne hr hs (by decide) hlong heq
  · intro hshort g g'
    rw [session_short hshort,session_short hshort]
  · intro g hg
    rw [session_first asks hkey hfree hg.block hg.tsd]
    apply Same.shared
    exact ⟨by rw [Reader.rest_of_cnt hg.cnt,Reader.rest_of_cnt (le_refl 0)],rfl⟩

def newThread : Thread := ⟨fun _ => none,none,[.data [97,10,98,10]],[]⟩

theorem leftovers_matter_proper :
    session (fun _ => ⟨some 5,some 5,⟨0,9,fun _ => 7⟩⟩) [(3,8),(3,8)] 0 newThread =
      shared [(3,8),(3,8)] ⟨0,0,fun _ => 0,[.data [97,10,98,10]],[]⟩ := by
  refine (leftovers_matter_iff newThread 5 rfl rfl [(3,8),(3,8)]).2 _ ?_
  exact ⟨rfl,le_refl 0,fun _ _ => rfl⟩

/-- The same two calls of this thread: with proper leftovers, with another value in `tsd` of
the second call, and with a block that seems to hold a byte. -/
theorem two_lines_leftovers :
    session (fun _ => ⟨some 5,some 5,⟨0,0,fun _ => 0⟩⟩) [(3,8),(3,8)] 0 newThread =
        [(.returned 2,[(0,97),(1,10),(2,0)]),(.returned 2,[(0,98),(1,10),(2,0)])] ∧
      session (fun _ => ⟨none,some 5,⟨0,0,fun _ => 0⟩⟩) [(3,8),(3,8)] 0 newThread =
        [(.returned 2,[(0,97),(1,10),(2,0)]),(.undefined,[])] ∧
      session (fun _ => ⟨some 5,some 5,⟨1,0,fun _ => 10⟩⟩) [(3,8),(3,8)] 0 newThread =
        [(.returned 1,[(0,10),(1,0)]),(.returned 2,[(0,97),(1,10),(2,0)])] := by
  decide

end ThreadReadline
end CPrograming
