import CPrograming.LinearBuffer
import CPrograming.Posix

/-!
# The line reader of `socket_func.c`

`myread` fetches bytes one at a time from a static buffer that it refills with
`read`; `readline` stores them up to the first newline. The kernel answers the calls
of `read` from a list, and a call that finds the list used up is still waiting.
-/

namespace CPrograming
namespace Readline

def newline : UInt8 := 10

/-- The static variables `read_cnt`, `read_point` and `read_buffer`, the answers to the
calls of `read` still to come, and the calls made so far with their answers. -/
structure Reader where
  cnt : ℤ
  point : ℕ
  buffer : Memory UInt8
  answers : List ReadAnswer
  log : List (ℤ × ReadAnswer)

/-- What `myread` returns: 1 with a byte, 0 or -1. -/
inductive Fetched
  | byte (c : UInt8)
  | eof
  | error
  deriving DecidableEq, Repr

/-- The calls of `read` from the label `again` on: the answer that ends them. -/
def again (fd : ℤ) : List ReadAnswer → Reader → Option (ReadAnswer × Reader)
  | [], _ => none
  | a :: rest, r =>
    let got := a.upTo maxLine
    let r := { r with cnt := got.ret, answers := rest, log := r.log ++ [(fd,got)] }
    match got with
    | .fail .eintr => again fd rest r
    | .fail e => some (.fail e,r)
    | .data bytes => some (.data bytes,{ r with buffer := r.buffer.store 0 bytes })

/-- `read_cnt--; *c = *read_point++;` -/
def Reader.fetch (r : Reader) : Fetched × Reader :=
  (.byte (r.buffer r.point),{ r with cnt := r.cnt-1, point := r.point+1 })

def myread (fd : ℤ) (r : Reader) : Option (Fetched × Reader) :=
  if r.cnt ≤ 0 then
    (again fd r.answers r).map fun (got,r) =>
      match got with
      | .fail _ => (.error,r)
      | .data [] => (.eof,r)
      | .data (_ :: _) => { r with point := 0 }.fetch
  else some r.fetch

def Reader.reset (r : Reader) : Reader := { r with cnt := 0 }

/-- A call of `readline`: its return value, once there is one, and its stores into the
caller's buffer in their order. -/
structure Call where
  ret : Option ℤ
  stores : List (ℕ × UInt8)
  reader : Reader

/-- The loop with `left` rounds left. At its head `pstr` is `buffer+i`. -/
def readlineLoop (fd : ℤ) : (left i : ℕ) → Reader → Call
  | 0, i, r => ⟨some (i+1),[(i,0)],r.reset⟩
  | left+1, i, r =>
    match myread fd r with
    | none => ⟨none,[],r⟩
    | some (.byte c,r) =>
      if c = newline then ⟨some (i+1),[(i,c),(i+1,0)],r.reset⟩
      else
        let call := readlineLoop fd left (i+1) r
        { call with stores := (i,c) :: call.stores }
    | some (.eof,r) => ⟨some 0,[(i,0)],r⟩
    | some (.error,r) => ⟨some (-1),[],r⟩

def readline (fd max : ℤ) (r : Reader) : Call := readlineLoop fd max.toNat 0 r

/-- `count` calls on one descriptor and into one buffer, with the return value of each
and as many bytes of the buffer as it says. -/
def readlines (fd max : ℤ) : (count : ℕ) → (dst : Memory UInt8) → Reader → List (ℤ × List UInt8)
  | 0, _, _ => []
  | count+1, dst, r =>
    let call := readline fd max r
    let dst := dst.storeAll call.stores
    match call.ret with
    | none => []
    | some k => (k,dst.load 0 k.toNat) :: readlines fd max count dst call.reader

/-- `read` gives a piece of the stream or is interrupted. -/
def Segment (a : ReadAnswer) : Prop :=
  a = .fail .eintr ∨ ∃ bs, a = .data bs ∧ bs ≠ [] ∧ bs.length ≤ maxLine

def Reader.rest (r : Reader) : List UInt8 := r.buffer.load r.point r.cnt.toNat

def Reader.pending (r : Reader) : List UInt8 := r.rest ++ r.answers.flatMap ReadAnswer.bytes

/-- A newline only ends what is left of the buffer and what a later `read` gives. -/
def Reader.Tidy (r : Reader) : Prop :=
  newline ∉ r.rest.dropLast ∧ ∀ bs, .data bs ∈ r.answers → newline ∉ bs.dropLast

section Fetching

variable (fd : ℤ) {r : Reader} {c : UInt8} {tail : List UInt8}

theorem Reader.rest_of_cnt (hcnt : r.cnt ≤ 0) : r.rest = [] := by
  simp [rest,Int.toNat_of_nonpos hcnt,Memory.load]

theorem Reader.rest_fetch (hcnt : 0 < r.cnt) : r.rest = r.buffer r.point :: r.fetch.2.rest := by
  obtain ⟨k,hk⟩ : ∃ k : ℕ, r.cnt = k+1 := ⟨r.cnt.toNat-1,by omega⟩
  have hnat : r.cnt.toNat = k+1 := by omega
  have hless : (r.cnt-1).toNat = k := by omega
  simp [fetch,rest,hnat,hless,Memory.load]

theorem Reader.fetch_first {z : List UInt8} (hcnt : r.cnt = z.length+1)
    (hload : r.buffer.load 0 (z.length+1) = c :: z) :
    { r with point := 0 }.fetch = (.byte c,{ r with point := 0 }.fetch.2) ∧
      { r with point := 0 }.fetch.2.rest = z := by
  rw [Memory.load] at hload
  obtain ⟨hc,hz⟩ := List.cons.inj hload
  exact ⟨by simp [fetch,hc],by simpa [fetch,rest,hcnt] using hz⟩

theorem Segment.upTo {a : ReadAnswer} (h : Segment a) : a.upTo maxLine = a := by
  rcases h with rfl | ⟨bs,rfl,-,hlen⟩
  · rfl
  · rw [ReadAnswer.upTo,List.take_of_length_le hlen]

/-- The reader once `read` has returned `got`, before it looks at it. -/
def Reader.answered (r : Reader) (got : ReadAnswer) (later : List ReadAnswer) : Reader :=
  { r with cnt := got.ret, answers := later, log := r.log ++ [(fd,got)] }

section Again

variable {a : ReadAnswer} (later : List ReadAnswer) (r : Reader)

theorem again_interrupted (ha : a.upTo maxLine = .fail .eintr) :
    again fd (a :: later) r = again fd later (r.answered fd (.fail .eintr) later) := by
  simp only [again,ha,Reader.answered]

theorem again_failed {e : Errno} (ha : a.upTo maxLine = .fail e) (he : e ≠ .eintr) :
    again fd (a :: later) r = some (.fail e,r.answered fd (.fail e) later) := by
  cases e with
  | eintr => exact absurd rfl he
  | ewouldblock | other => simp only [again,ha,Reader.answered]

theorem again_data {bytes : List UInt8} (ha : a.upTo maxLine = .data bytes) :
    again fd (a :: later) r = some (.data bytes,
      { r.answered fd (.data bytes) later with buffer := r.buffer.store 0 bytes }) := by
  simp only [again,ha,Reader.answered]

end Again

theorem again_segment {answers : List ReadAnswer} (hfed : ∀ a ∈ answers, Segment a)
    (h : answers.flatMap ReadAnswer.bytes = c :: tail) (r : Reader) : ∃ z r',
      again fd answers r = some (.data (c :: z),r') ∧ r'.cnt = (z.length+1 : ℕ) ∧
      r'.buffer.load 0 (z.length+1) = c :: z ∧ tail = z ++ r'.answers.flatMap ReadAnswer.bytes ∧
      (∀ a ∈ r'.answers, Segment a) ∧
      ∀ bs, .data bs ∈ answers ↔ bs = c :: z ∨ .data bs ∈ r'.answers := by
  induction answers generalizing r with
  | nil => simp at h
  | cons a later ih =>
    have hlater : ∀ b ∈ later, Segment b := fun b hb => hfed b (List.mem_cons_of_mem a hb)
    have hup := (hfed a List.mem_cons_self).upTo
    rcases hfed a List.mem_cons_self with rfl | ⟨bs,rfl,hne,-⟩
    · obtain ⟨z,r',hagain,hcnt,hload,htail,hrest,hmem⟩ := ih hlater h (r.answered fd _ later)
      rw [again_interrupted fd later r hup]
      exact ⟨z,r',hagain,hcnt,hload,htail,hrest,by simpa using hmem⟩
    · cases bs with
      | nil => exact absurd rfl hne
      | cons b z =>
        obtain ⟨rfl,rfl⟩ : b = c ∧ z ++ later.flatMap ReadAnswer.bytes = tail := by
          simpa [ReadAnswer.bytes] using h
        refine ⟨z,_,again_data fd later r hup,rfl,?_,rfl,hlater,?_⟩
        · exact Memory.load_store r.buffer 0 (b :: z)
        · intro bs
          simp [Reader.answered]

theorem again_nil {answers : List ReadAnswer} (hfed : ∀ a ∈ answers, Segment a)
    (h : answers.flatMap ReadAnswer.bytes = []) (r : Reader) : again fd answers r = none := by
  induction answers generalizing r with
  | nil => rfl
  | cons a later ih =>
    have hlater : ∀ b ∈ later, Segment b := fun b hb => hfed b (List.mem_cons_of_mem a hb)
    rcases hfed a List.mem_cons_self with rfl | ⟨bs,rfl,hne,-⟩
    · simpa [again,ReadAnswer.upTo] using ih hlater h _
    · simp [ReadAnswer.bytes,hne] at h

theorem mem_dropLast_cons {z : List UInt8} :
    newline ∉ (c :: z).dropLast ↔ (c = newline → z = []) ∧ newline ∉ z.dropLast := by
  cases z with
  | nil => simp
  | cons b z => simp [List.dropLast,eq_comm]

/-- From a reader that will only be given pieces of the stream, `myread` fetches the next
byte of the stream. -/
theorem myread_byte (hfed : ∀ a ∈ r.answers, Segment a) (h : r.pending = c :: tail) :
    ∃ r', myread fd r = some (.byte c,r') ∧ (∀ a ∈ r'.answers, Segment a) ∧ r'.pending = tail ∧
      (r.Tidy ↔ (c = newline → r'.rest = []) ∧ r'.Tidy) := by
  by_cases hcnt : r.cnt ≤ 0
  · have hrest := Reader.rest_of_cnt hcnt
    rw [Reader.pending,hrest,List.nil_append] at h
    obtain ⟨z,r',hagain,hz,hload,htail,hlater,hmem⟩ := again_segment fd hfed h r
    obtain ⟨hc,hrest'⟩ := Reader.fetch_first (by rw [hz]; push_cast; rfl) hload
    refine ⟨({ r' with point := 0 }.fetch).2,?_,hlater,?_,?_⟩
    · simp only [myread,hcnt,hagain,if_true,Option.map_some]
      rw [hc]
    · rw [Reader.pending,hrest',htail]
      rfl
    · rw [Reader.Tidy,Reader.Tidy,hrest,hrest']
      have hanswers : ({ r' with point := 0 }.fetch).2.answers = r'.answers := rfl
      rw [hanswers]
      simp only [hmem,forall_eq_or_imp,mem_dropLast_cons,List.dropLast_nil,List.not_mem_nil,
        not_false_eq_true,true_and,and_assoc]
  · have hrest := Reader.rest_fetch (not_le.mp hcnt)
    rw [Reader.pending,hrest] at h
    obtain ⟨rfl,htail⟩ := List.cons.inj h
    refine ⟨r.fetch.2,?_,hfed,htail,?_⟩
    · simp [myread,hcnt,Reader.fetch]
    · have hanswers : r.fetch.2.answers = r.answers := rfl
      rw [Reader.Tidy,Reader.Tidy,hrest,hanswers,mem_dropLast_cons,and_assoc]

theorem myread_wait (hfed : ∀ a ∈ r.answers, Segment a) (h : r.pending = []) :
    myread fd r = none := by
  obtain ⟨hrest,hnil⟩ := List.append_eq_nil_iff.mp h
  have hcnt : r.cnt ≤ 0 := by
    have hlen := congrArg List.length hrest
    simp only [Reader.rest,Memory.load_length,List.length_nil] at hlen
    omega
  simp [myread,hcnt,again_nil fd hfed hnil]

end Fetching

section Lines

variable (fd : ℤ) {r : Reader} {body tail : List UInt8}

/-- A line of the stream is stored up to its newline. -/
theorem readlineLoop_line (left i : ℕ) (hfed : ∀ a ∈ r.answers, Segment a)
    (h : r.pending = body ++ newline :: tail) (hbody : newline ∉ body)
    (hleft : body.length < left) : ∃ r' : Reader,
      readlineLoop fd left i r = ⟨some (i+body.length+1 : ℕ),
        Memory.storesFrom i (body ++ [newline,0]),r'.reset⟩ ∧
      (∀ a ∈ r'.answers, Segment a) ∧ r'.pending = tail ∧
      (r.Tidy ↔ r'.rest = [] ∧ r'.Tidy) := by
  obtain ⟨left,rfl⟩ : ∃ k, left = k+1 := ⟨left-1,by omega⟩
  induction body generalizing left i r with
  | nil =>
    obtain ⟨r',hread,hfed',htail,htidy⟩ := myread_byte fd hfed h
    refine ⟨r',?_,hfed',htail,by simpa using htidy⟩
    simp [readlineLoop,hread,Memory.storesFrom]
  | cons c body ih =>
    obtain ⟨r₁,hread,hfed₁,htail,htidy⟩ := myread_byte fd hfed h
    have hc : c ≠ newline := fun hc => hbody (by simp [hc])
    have hbody : newline ∉ body := fun hc => hbody (List.mem_cons_of_mem c hc)
    rw [List.length_cons] at hleft
    obtain ⟨left,rfl⟩ : ∃ k, left = k+1 := ⟨left-1,by omega⟩
    obtain ⟨r',hloop,hfed',htail',htidy'⟩ := ih (i+1) hfed₁ htail hbody left (by omega)
    refine ⟨r',?_,hfed',htail',?_⟩
    · rw [readlineLoop]
      simp only [hread,if_neg hc,hloop]
      simp [Memory.storesFrom]
      omega
    · rw [htidy,htidy']
      simp [hc]

theorem Reader.reset_pending (r : Reader) :
    r.reset.pending = r.answers.flatMap ReadAnswer.bytes := by
  simp [pending,rest,reset,Memory.load]

theorem Reader.reset_pending_length (r : Reader) : r.reset.pending.length ≤ r.pending.length := by
  rw [reset_pending,pending,List.length_append]
  omega

theorem readlineLoop_length {left i : ℕ} {k : ℤ} (hfed : ∀ a ∈ r.answers, Segment a)
    (hret : (readlineLoop fd left i r).ret = some k) (hpos : 0 < k) (hk : k ≤ i+left) :
    (∀ a ∈ (readlineLoop fd left i r).reader.answers, Segment a) ∧
      k-i+(readlineLoop fd left i r).reader.pending.length ≤ r.pending.length := by
  induction left generalizing i r with
  | zero =>
    simp only [readlineLoop,Option.some.injEq] at hret
    omega
  | succ left ih =>
    cases hp : r.pending with
    | nil => simp [readlineLoop,myread_wait fd hfed hp] at hret
    | cons c tail =>
      obtain ⟨r',hread,hfed',htail,-⟩ := myread_byte fd hfed hp
      rw [readlineLoop] at hret ⊢
      simp only [hread] at hret ⊢
      split_ifs at hret ⊢ with hc
      · obtain rfl := Option.some.inj hret
        refine ⟨hfed',?_⟩
        have hreset := r'.reset_pending_length
        rw [htail] at hreset
        simp only [List.length_cons]
        omega
      · have hrest := ih hfed' hret (by push_cast; omega)
        rw [htail] at hrest
        refine ⟨hrest.1,?_⟩
        simp only [List.length_cons]
        omega

def IsLine (line : List UInt8) : Prop := ∃ body, line = body ++ [newline] ∧ newline ∉ body

theorem readline_line {max : ℤ} {line : List UInt8} (hfed : ∀ a ∈ r.answers, Segment a)
    (h : r.pending = line ++ tail) (hline : IsLine line) (hmax : line.length < max) :
    ∃ r' : Reader, readline fd max r =
      ⟨some line.length,Memory.storesFrom 0 (line ++ [0]),r'.reset⟩ ∧
      (∀ a ∈ r'.answers, Segment a) ∧ r'.pending = tail ∧
      (r.Tidy ↔ r'.rest = [] ∧ r'.Tidy) := by
  obtain ⟨body,rfl,hbody⟩ := hline
  rw [List.length_append,List.length_singleton] at hmax
  rw [List.append_assoc,List.singleton_append] at h
  obtain ⟨r',hloop,hrest⟩ := readlineLoop_line fd max.toNat 0 hfed h hbody (by omega)
  exact ⟨r',by simpa [readline] using hloop,hrest⟩

theorem readlines_length {max : ℤ} {lines : List (List UInt8)} {dst : Memory UInt8}
    (hlines : ∀ line ∈ lines, IsLine line ∧ line.length < max)
    (hfed : ∀ a ∈ r.answers, Segment a)
    (h : readlines fd max lines.length dst r =
      lines.map (fun line => ((line.length : ℤ),line))) :
    lines.flatten.length ≤ r.pending.length := by
  induction lines generalizing dst r with
  | nil => simp
  | cons line lines ih =>
    obtain ⟨⟨body,hbody,-⟩,hmax⟩ := hlines line List.mem_cons_self
    have hpos : 0 < line.length := by simp [hbody]
    rw [List.length_cons,readlines] at h
    cases hret : (readline fd max r).ret with
    | none => simp [hret] at h
    | some k =>
      simp only [hret,List.map_cons,List.cons.injEq,Prod.mk.injEq] at h
      obtain ⟨⟨rfl,-⟩,htail⟩ := h
      obtain ⟨hfed',hlen⟩ := readlineLoop_length fd hfed hret (by omega) (by omega)
      have hrest := ih (fun l hl => hlines l (List.mem_cons_of_mem line hl)) hfed' htail
      rw [List.flatten_cons,List.length_append]
      omega

theorem readlines_iff_tidy {max : ℤ} {lines : List (List UInt8)} {dst : Memory UInt8}
    (hlines : ∀ line ∈ lines, IsLine line ∧ line.length < max)
    (hfed : ∀ a ∈ r.answers, Segment a) (hcnt : r.cnt ≤ 0) (h : r.pending = lines.flatten) :
    readlines fd max lines.length dst r = lines.map (fun line => ((line.length : ℤ),line)) ↔
      r.Tidy := by
  induction lines generalizing dst r with
  | nil =>
    simp only [List.length_nil,readlines,List.map_nil,true_iff]
    refine ⟨by simp [Reader.rest_of_cnt hcnt],?_⟩
    intro bs hbs
    have hnil : bs = [] := by
      have hall := (List.append_eq_nil_iff.mp h).2
      exact List.flatMap_eq_nil_iff.mp hall _ hbs
    simp [hnil]
  | cons line lines ih =>
    obtain ⟨hline,hmax⟩ := hlines line List.mem_cons_self
    have hlines : ∀ l ∈ lines, IsLine l ∧ l.length < max :=
      fun l hl => hlines l (List.mem_cons_of_mem line hl)
    rw [List.flatten_cons] at h
    obtain ⟨r',hcall,hfed',htail,htidy⟩ := readline_line fd hfed h hline hmax
    have hload := Memory.load_storesFrom dst 0 line [0]
    rw [List.length_cons,readlines,hcall]
    simp only [List.map_cons,Int.toNat_natCast,hload,List.cons.injEq,true_and]
    rw [htidy]
    by_cases hrest : r'.rest = []
    · have hpending : r'.reset.pending = lines.flatten := by
        rw [Reader.reset_pending,← htail,Reader.pending,hrest,List.nil_append]
      have hreset : r'.reset.Tidy ↔ r'.Tidy := by
        rw [Reader.Tidy,Reader.Tidy,hrest,Reader.rest_of_cnt (le_refl 0)]
        rfl
      rw [ih (r := r'.reset) hlines hfed' (le_refl 0) hpending,hreset]
      simp [hrest]
    · constructor
      · intro hcalls
        have hlen := readlines_length fd (r := r'.reset) hlines hfed' hcalls
        rw [Reader.reset_pending,← htail,Reader.pending,List.length_append] at hlen
        have hpos := List.length_pos_iff.mpr hrest
        omega
      · intro htidy
        exact absurd htidy.1 hrest

end Lines

section InProgress

/-- One more answer for a call in progress: the call is followed from its start again. -/
def Reader.feed (r : Reader) (a : ReadAnswer) : Reader := { r with answers := r.answers ++ [a] }

/-- A call that started with nothing in the buffer has been given `bytes`. -/
structure Reader.Got (r : Reader) (bytes : List UInt8) : Prop where
  cnt : r.cnt ≤ 0
  segments : ∀ a ∈ r.answers, Segment a
  bytes : r.answers.flatMap ReadAnswer.bytes = bytes

variable {r : Reader} {bytes : List UInt8}

theorem Reader.Got.pending (h : r.Got bytes) : r.pending = bytes := by
  rw [Reader.pending,Reader.rest_of_cnt h.cnt,h.bytes,List.nil_append]

theorem Reader.Got.data (h : r.Got bytes) {new : List UInt8} (hne : new ≠ [])
    (hlen : new.length ≤ maxLine) : (r.feed (.data new)).Got (bytes ++ new) := by
  refine ⟨h.cnt,?_,?_⟩
  · exact List.forall_mem_append.mpr
      ⟨h.segments,List.forall_mem_singleton.mpr (Or.inr ⟨new,rfl,hne,hlen⟩)⟩
  · simp [feed,h.bytes,ReadAnswer.bytes]

theorem Reader.Got.interrupted (h : r.Got bytes) : (r.feed (.fail .eintr)).Got bytes := by
  refine ⟨h.cnt,?_,?_⟩
  · exact List.forall_mem_append.mpr ⟨h.segments,List.forall_mem_singleton.mpr (Or.inl rfl)⟩
  · simp [feed,h.bytes,ReadAnswer.bytes]

theorem readlineLoop_wait (fd : ℤ) {left i : ℕ} (hfed : ∀ a ∈ r.answers, Segment a)
    (hnone : newline ∉ r.pending) (hlen : r.pending.length < left) :
    (readlineLoop fd left i r).ret = none := by
  induction left generalizing i r with
  | zero => omega
  | succ left ih =>
    cases hp : r.pending with
    | nil => simp [readlineLoop,myread_wait fd hfed hp]
    | cons c tail =>
      obtain ⟨r',hread,hfed',htail,-⟩ := myread_byte fd hfed hp
      rw [hp] at hnone hlen
      have hc : c ≠ newline := fun hc => hnone (by simp [hc])
      rw [readlineLoop]
      simp only [hread,if_neg hc]
      apply ih hfed'
      · rw [htail]
        exact fun h => hnone (List.mem_cons_of_mem c h)
      · rw [htail]
        simpa using hlen

theorem Reader.Got.waits (h : r.Got bytes) (fd : ℤ) {max : ℤ} (hnone : newline ∉ bytes)
    (hlen : bytes.length < max) : (readline fd max r).ret = none := by
  apply readlineLoop_wait fd h.segments
  · rwa [h.pending]
  · rw [h.pending]
    omega

/-- A line that is complete is stored, and the next call starts afresh. -/
theorem Reader.Got.line (h : r.Got bytes) (fd : ℤ) {max : ℤ} (hline : IsLine bytes)
    (hlen : bytes.length < max) : ∃ r' : Reader, r'.Got [] ∧
      readline fd max r = ⟨some bytes.length,Memory.storesFrom 0 (bytes ++ [0]),r'⟩ := by
  have hpending : r.pending = bytes ++ [] := by rw [h.pending,List.append_nil]
  obtain ⟨r',hcall,hfed,hnil,-⟩ := readline_line fd h.segments hpending hline hlen
  exact ⟨r'.reset,⟨le_refl 0,hfed,(List.append_eq_nil_iff.mp hnil).2⟩,hcall⟩

end InProgress

/-- A stream of lines is delivered line by line exactly if no `read` gives bytes behind
a newline: what is left in the buffer at the end of a call is thrown away. -/
theorem readlines_eq_iff (fd max : ℤ) (lines : List (List UInt8)) (dst : Memory UInt8)
    (r : Reader) (hcnt : r.cnt ≤ 0) (hlines : ∀ line ∈ lines, IsLine line ∧ line.length < max)
    (hfed : ∀ a ∈ r.answers, Segment a) (h : r.answers.flatMap ReadAnswer.bytes = lines.flatten) :
    readlines fd max lines.length dst r = lines.map (fun line => ((line.length : ℤ),line)) ↔
      ∀ bs, .data bs ∈ r.answers → newline ∉ bs.dropLast := by
  have hrest := Reader.rest_of_cnt hcnt
  rw [readlines_iff_tidy fd hlines hfed hcnt (by rw [Reader.pending,hrest,h,List.nil_append]),
    Reader.Tidy,hrest]
  simp

def start (answers : List ReadAnswer) : Reader := ⟨0,0,fun _ => 0,answers,[]⟩

theorem readlines_eq_two :
    readlines 3 8 2 (fun _ => 7) (start [.data [97],.fail .eintr,.data [98,10],.data [99,10]]) =
      [(3,[97,98,10]),(2,[99,10])] := by
  apply (readlines_eq_iff 3 8 [[97,98,10],[99,10]] (fun _ => 7)
    (start [.data [97],.fail .eintr,.data [98,10],.data [99,10]]) (le_refl 0) _ _ rfl).mpr
  · simp [start,newline]
  · simp only [List.forall_mem_cons]
    exact ⟨⟨⟨[97,98],rfl,by decide⟩,by decide⟩,⟨⟨[99],rfl,by decide⟩,by decide⟩,by simp⟩
  · simp only [start,List.forall_mem_cons]
    exact ⟨Or.inr ⟨_,rfl,by decide,by decide⟩,Or.inl rfl,Or.inr ⟨_,rfl,by decide,by decide⟩,
      Or.inr ⟨_,rfl,by decide,by decide⟩,by simp⟩

/-- Two lines that arrive in one piece: the second is lost, and the next call waits. -/
theorem readlines_lost :
    (start [.data [97,98,10,99,10]]).answers.flatMap ReadAnswer.bytes =
      [[97,98,10],[99,10]].flatten ∧
      readlines 3 8 2 (fun _ => 7) (start [.data [97,98,10,99,10]]) = [(3,[97,98,10])] := by
  decide

end Readline
end CPrograming
