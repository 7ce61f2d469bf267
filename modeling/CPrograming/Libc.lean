import CPrograming.Readline

/-!
# What the programs use of the C library

A `long` as it lies in memory, `fgets` and `strlen` on lines of input, and the
conversions of `sscanf` that the clients use. Machine numbers are 64 bits wide and lie
in memory with their least significant byte first.
-/

namespace CPrograming
namespace Libc

open Readline (newline)

abbrev Long := BitVec 64

section Layout

/-- The last `k` bytes of a number, least significant byte first. -/
def natBytes : (k v : ℕ) → List UInt8
  | 0, _ => []
  | k+1, v => v.toUInt8 :: natBytes k (v/256)

def natOf : List UInt8 → ℕ
  | [] => 0
  | b :: bytes => b.toNat+256*natOf bytes

def longBytes (x : Long) : List UInt8 := natBytes 8 x.toNat

def longOf (bytes : List UInt8) : Long := BitVec.ofNat 64 (natOf bytes)

@[simp] theorem natBytes_length (k v : ℕ) : (natBytes k v).length = k := by
  induction k generalizing v with
  | zero => rfl
  | succ k ih => simp [natBytes,ih]

@[simp] theorem longBytes_length (x : Long) : (longBytes x).length = 8 := natBytes_length 8 _

theorem natOf_natBytes (k v : ℕ) : natOf (natBytes k v) = v % 256^k := by
  induction k generalizing v with
  | zero => simp [natBytes,natOf,Nat.mod_one]
  | succ k ih =>
    have hbyte : v.toUInt8.toNat = v % 256 := by simp
    rw [natBytes,natOf,ih,hbyte,pow_succ',Nat.mod_mul]

@[simp] theorem longOf_longBytes (x : Long) : longOf (longBytes x) = x := by
  apply BitVec.eq_of_toNat_eq
  have hlt := x.isLt
  simp only [longOf,longBytes,natOf_natBytes,BitVec.toNat_ofNat]
  omega

end Layout

section Lines

/-- The string that starts a buffer, up to its terminating 0. -/
def cString (buffer : List UInt8) : List UInt8 := buffer.takeWhile (· ≠ 0)

/-- The bytes up to the first newline, but at most `room`, and the bytes behind them. -/
def copyLine : (room : ℕ) → List UInt8 → List UInt8 × List UInt8
  | 0, input => ([],input)
  | _+1, [] => ([],[])
  | room+1, c :: input =>
    if c = newline then ([c],input)
    else (c :: (copyLine room input).1,(copyLine room input).2)

/-- `fgets(line, size, file)`: the line and the input that is left, or `NULL` at the end of
the input. -/
def fgets (size : ℕ) (input : List UInt8) : Option (List UInt8 × List UInt8) :=
  if input = [] then none else some (copyLine (size-1) input)

def fgetsMany (size : ℕ) : (count : ℕ) → List UInt8 → List (List UInt8)
  | 0, _ => []
  | count+1, input =>
    match fgets size input with
    | none => []
    | some (line,rest) => line :: fgetsMany size count rest

def inputLines (size : ℕ) (input : List UInt8) : List (List UInt8) :=
  fgetsMany size input.length input

variable {room size : ℕ} {input line rest : List UInt8}

theorem copyLine_append (room : ℕ) (input : List UInt8) :
    (copyLine room input).1 ++ (copyLine room input).2 = input := by
  induction room generalizing input with
  | zero => rfl
  | succ room ih =>
    cases input with
    | nil => rfl
    | cons c input =>
      simp only [copyLine]
      split_ifs
      · rfl
      · simp [ih]

theorem copyLine_length (room : ℕ) (input : List UInt8) :
    (copyLine room input).1.length ≤ room := by
  induction room generalizing input with
  | zero => simp [copyLine]
  | succ room ih =>
    cases input with
    | nil => simp [copyLine]
    | cons c input =>
      simp only [copyLine]
      split_ifs
      · simp
      · simpa using ih input

theorem copyLine_newline (room : ℕ) (input : List UInt8) :
    newline ∉ (copyLine room input).1.dropLast := by
  induction room generalizing input with
  | zero => simp [copyLine]
  | succ room ih =>
    cases input with
    | nil => simp [copyLine]
    | cons c input =>
      simp only [copyLine]
      split_ifs with hc
      · simp
      · rw [Readline.mem_dropLast_cons]
        exact ⟨fun h => absurd h hc,ih input⟩

theorem copyLine_ne_nil (hroom : 0 < room) (h : input ≠ []) : (copyLine room input).1 ≠ [] := by
  obtain ⟨room,rfl⟩ : ∃ k, room = k+1 := ⟨room-1,by omega⟩
  cases input with
  | nil => exact absurd rfl h
  | cons c input =>
    simp only [copyLine]
    split_ifs <;> simp

theorem fgets_eq_some (h : fgets size input = some (line,rest)) :
    input ≠ [] ∧ line = (copyLine (size-1) input).1 ∧ rest = (copyLine (size-1) input).2 := by
  simp only [fgets] at h
  split_ifs at h with hnil
  have hpair := Option.some.inj h
  exact ⟨hnil,by rw [hpair],by rw [hpair]⟩

theorem fgets_append (h : fgets size input = some (line,rest)) : input = line ++ rest := by
  obtain ⟨-,rfl,rfl⟩ := fgets_eq_some h
  exact (copyLine_append _ _).symm

theorem fgets_length (h : fgets size input = some (line,rest)) : line.length ≤ size-1 := by
  obtain ⟨-,rfl,-⟩ := fgets_eq_some h
  exact copyLine_length _ _

theorem fgets_newline (h : fgets size input = some (line,rest)) : newline ∉ line.dropLast := by
  obtain ⟨-,rfl,-⟩ := fgets_eq_some h
  exact copyLine_newline _ _

theorem fgets_shorter (hsize : 1 < size) (h : fgets size input = some (line,rest)) :
    rest.length < input.length := by
  obtain ⟨hne,hline,-⟩ := fgets_eq_some h
  have hpos : line ≠ [] := hline ▸ copyLine_ne_nil (by omega) hne
  have hlen := List.length_pos_iff.mpr hpos
  rw [fgets_append h,List.length_append]
  omega

theorem fgetsMany_enough (hsize : 1 < size) {count : ℕ} (h : input.length ≤ count) :
    fgetsMany size count input = inputLines size input := by
  induction count using Nat.strong_induction_on generalizing input with
  | _ count ih =>
    simp only [inputLines]
    cases hget : fgets size input with
    | none =>
      cases count <;> cases hlen : input.length <;> simp [fgetsMany,hget]
    | some pair =>
      obtain ⟨line,rest⟩ := pair
      have hlt := fgets_shorter hsize hget
      obtain ⟨k,rfl⟩ : ∃ k, count = k+1 := ⟨count-1,by omega⟩
      obtain ⟨n,hn⟩ : ∃ n, input.length = n+1 := ⟨input.length-1,by omega⟩
      have hk : fgetsMany size k rest = inputLines size rest := ih k (by omega) (by omega)
      have hrest : fgetsMany size n rest = inputLines size rest := by
        by_cases hnk : n < k+1
        · exact ih n hnk (by omega)
        · obtain rfl : n = k := by omega
          exact hk
      simp [fgetsMany,hget,hn,hk,hrest]

theorem inputLines_nil : inputLines size [] = [] := rfl

theorem inputLines_cons (hsize : 1 < size) (h : fgets size input = some (line,rest)) :
    inputLines size input = line :: inputLines size rest := by
  have hlt := fgets_shorter hsize h
  obtain ⟨n,hn⟩ : ∃ n, input.length = n+1 := ⟨input.length-1,by omega⟩
  rw [inputLines,hn,fgetsMany,h]
  simp only [fgetsMany_enough hsize (show rest.length ≤ n by omega)]

/-- What holds at the end of the input, and of an input if it holds behind its first piece. -/
theorem fgets_induction (hsize : 1 < size) {C : List UInt8 → Prop} (hnil : C [])
    (hline : ∀ input line rest, fgets size input = some (line,rest) → C rest → C input)
    (input : List UInt8) : C input := by
  induction hn : input.length using Nat.strong_induction_on generalizing input with
  | _ n ih =>
    cases hget : fgets size input with
    | none =>
      have hempty : input = [] := by
        by_contra hne
        simp [fgets,hne] at hget
      exact hempty ▸ hnil
    | some pair =>
      obtain ⟨line,rest⟩ := pair
      exact hline input line rest hget (ih rest.length (hn ▸ fgets_shorter hsize hget) rest rfl)

/-- The pieces make up the input. -/
theorem inputLines_flatten (hsize : 1 < size) (input : List UInt8) :
    (inputLines size input).flatten = input := by
  induction input using fgets_induction hsize with
  | hnil => rfl
  | hline input line rest hget ih =>
    rw [inputLines_cons hsize hget,List.flatten_cons,ih,← fgets_append hget]

theorem mem_inputLines (hsize : 1 < size) (h : line ∈ inputLines size input) :
    newline ∉ line.dropLast ∧ line.length < size := by
  induction input using fgets_induction hsize with
  | hnil => simp [inputLines_nil] at h
  | hline input first rest hget ih =>
    rw [inputLines_cons hsize hget] at h
    rcases List.mem_cons.mp h with rfl | hrest
    · have hlen := fgets_length hget
      exact ⟨fgets_newline hget,by omega⟩
    · exact ih hrest

theorem eq_nil_of_fgets (h : fgets size input = none) : input = [] := by
  by_contra hne
  simp [fgets,hne] at h

theorem fgets_of_lines {lines : List (List UInt8)} (hsize : 1 < size)
    (h : inputLines size input = line :: lines) :
    ∃ rest, fgets size input = some (line,rest) ∧ inputLines size rest = lines := by
  cases hget : fgets size input with
  | none => simp [eq_nil_of_fgets hget,inputLines_nil] at h
  | some pair =>
    obtain ⟨first,rest⟩ := pair
    rw [inputLines_cons hsize hget] at h
    obtain ⟨rfl,hrest⟩ := List.cons.inj h
    exact ⟨rest,rfl,hrest⟩

theorem fgets_of_no_lines (hsize : 1 < size) (h : inputLines size input = []) :
    fgets size input = none := by
  cases hget : fgets size input with
  | none => rfl
  | some pair => simp [inputLines_cons hsize hget] at h

def Finished (size : ℕ) (got : List UInt8) : Prop :=
  got.getLast? = some newline ∨ got.length = size-1

instance (size : ℕ) (got : List UInt8) : Decidable (Finished size got) :=
  inferInstanceAs (Decidable (_ ∨ _))

def Open (size : ℕ) (got : List UInt8) : Prop := newline ∉ got ∧ got.length < size-1

theorem Open.not_finished (h : Open size line) : ¬ Finished size line := by
  rintro (hlast | hlen)
  · exact h.1 (List.mem_of_getLast? hlast)
  · exact h.2.ne hlen

/-- A call with `got` goes on with what is in the buffer: the piece so far, and what is left. -/
def takeLine (size : ℕ) (got buffer : List UInt8) : List UInt8 × List UInt8 :=
  (got ++ (copyLine (size-1-got.length) buffer).1,(copyLine (size-1-got.length) buffer).2)

theorem takeLine_append (size : ℕ) (got buffer : List UInt8) :
    (takeLine size got buffer).1 ++ (takeLine size got buffer).2 = got ++ buffer := by
  rw [takeLine,List.append_assoc,copyLine_append]

theorem copyLine_cases (room : ℕ) (input : List UInt8) :
    (newline ∉ input ∧ input.length < room ∧ copyLine room input = (input,[])) ∨
      ((copyLine room input).1.getLast? = some newline ∨
        (copyLine room input).1.length = room) := by
  induction room generalizing input with
  | zero => simp [copyLine]
  | succ room ih =>
    cases input with
    | nil => simp [copyLine]
    | cons c input =>
      by_cases hc : c = newline
      · simp [copyLine,hc]
      · simp only [copyLine,if_neg hc]
        rcases ih input with ⟨hnone,hlen,heq⟩ | hlast | hlen
        · left
          simp [heq,hnone,Ne.symm hc,hlen]
        · right
          left
          simp [List.getLast?_cons,hlast]
        · right
          right
          simp [hlen]

structure Whole (size : ℕ) (line : List UInt8) : Prop where
  finished : Finished size line
  body : newline ∉ line.dropLast
  short : line.length ≤ size-1

/-- Either the buffer is used up and the call goes on, or the piece is complete. -/
theorem takeLine_cases {got : List UInt8} (h : Open size got) (buffer : List UInt8) :
    (Open size (got ++ buffer) ∧ takeLine size got buffer = (got ++ buffer,[])) ∨
      Whole size (takeLine size got buffer).1 := by
  obtain ⟨hnone,hlen⟩ := h
  have hshort := copyLine_length (size-1-got.length) buffer
  have hbody := copyLine_newline (size-1-got.length) buffer
  rcases copyLine_cases (size-1-got.length) buffer with ⟨hmem,hroom,heq⟩ | hended
  · left
    refine ⟨⟨?_,?_⟩,by rw [takeLine,heq]⟩
    · rw [List.mem_append]
      exact fun hor => hor.elim hnone hmem
    · rw [List.length_append]
      omega
  · right
    have hne : (copyLine (size-1-got.length) buffer).1 ≠ [] := by
      rcases hended with hlast | hfull
      · intro hnil
        simp [hnil] at hlast
      · intro hnil
        rw [hnil,List.length_nil] at hfull
        omega
    refine ⟨?_,?_,?_⟩
    · rcases hended with hlast | hfull
      · left
        rw [takeLine,List.getLast?_append,hlast]
        rfl
      · right
        rw [takeLine,List.length_append]
        omega
    · rw [takeLine,List.dropLast_append_of_ne_nil hne,List.mem_append]
      exact fun hor => hor.elim hnone hbody
    · rw [takeLine,List.length_append]
      omega

theorem copyLine_piece (room : ℕ) (line rest : List UInt8) (hbody : newline ∉ line.dropLast)
    (hlen : line.length ≤ room) (hended : line.getLast? = some newline ∨ line.length = room) :
    copyLine room (line ++ rest) = (line,rest) := by
  induction line generalizing room with
  | nil =>
    obtain rfl : room = 0 := by simpa [eq_comm] using hended
    rfl
  | cons c line ih =>
    obtain ⟨room,rfl⟩ : ∃ k, room = k+1 := ⟨room-1,by simp only [List.length_cons] at hlen; omega⟩
    rw [Readline.mem_dropLast_cons] at hbody
    rw [List.cons_append,copyLine]
    by_cases hc : c = newline
    · obtain rfl : line = [] := hbody.1 hc
      simp [hc]
    · rw [if_neg hc]
      have hrest : line.getLast? = some newline ∨ line.length = room := by
        rcases hended with hlast | hfull
        · cases line with
          | nil => simp [hc] at hlast
          | cons d line => exact Or.inl (by simpa using hlast)
        · exact Or.inr (by simpa using hfull)
      rw [ih room hbody.2 (by simpa using hlen) hrest]

theorem Whole.ne_nil (h : Whole size line) (hsize : 1 < size) : line ≠ [] := by
  rintro rfl
  rcases h.finished with hlast | hlen
  · simp at hlast
  · simp only [List.length_nil] at hlen
    omega

theorem Whole.fgets (h : Whole size line) (hsize : 1 < size) (rest : List UInt8) :
    fgets size (line ++ rest) = some (line,rest) := by
  have hne := List.append_ne_nil_of_left_ne_nil (h.ne_nil hsize) rest
  rw [Libc.fgets,if_neg hne,copyLine_piece (size-1) line rest h.body h.short h.finished]

theorem inputLines_whole (hsize : 1 < size) {lines : List (List UInt8)}
    (h : ∀ line ∈ lines, Whole size line) : inputLines size lines.flatten = lines := by
  induction lines with
  | nil => rfl
  | cons line lines ih =>
    have hline := (h line List.mem_cons_self).fgets hsize lines.flatten
    rw [List.flatten_cons,inputLines_cons hsize hline,
      ih fun l hl => h l (List.mem_cons_of_mem line hl)]

theorem Open.fgets {got : List UInt8} (h : Open size got) (hne : got ≠ []) :
    fgets size got = some (got,[]) := by
  rcases copyLine_cases (size-1) got with ⟨-,-,heq⟩ | hended
  · rw [Libc.fgets,if_neg hne,heq]
  · exfalso
    have happend := copyLine_append (size-1) got
    rcases hended with hlast | hfull
    · exact h.1 (happend ▸ List.mem_append_left _ (List.mem_of_getLast? hlast))
    · have hlen := congrArg List.length happend
      rw [List.length_append] at hlen
      have hopen := h.2
      omega

/-- The length of the piece that is not finished at the end of the input, when `n` bytes of it
were there before. -/
def unfinished (size : ℕ) : (n : ℕ) → List UInt8 → ℕ
  | n, [] => n
  | n, c :: input => unfinished size (if c = newline ∨ n+1 = size-1 then 0 else n+1) input

theorem unfinished_append (n : ℕ) (xs ys : List UInt8) :
    unfinished size n (xs ++ ys) = unfinished size (unfinished size n xs) ys := by
  induction xs generalizing n with
  | nil => rfl
  | cons c xs ih => exact ih _

theorem unfinished_open {n : ℕ} (hnone : newline ∉ input) (hlen : n+input.length < size-1) :
    unfinished size n input = n+input.length := by
  induction input generalizing n with
  | nil => rfl
  | cons c input ih =>
    have hc : c ≠ newline := fun hc => hnone (by simp [hc])
    have hmem : newline ∉ input := fun hmem => hnone (List.mem_cons_of_mem c hmem)
    rw [List.length_cons] at hlen ⊢
    rw [unfinished,if_neg (not_or.mpr ⟨hc,by omega⟩),ih hmem (by omega)]
    omega

theorem Open.unfinished {got : List UInt8} (h : Open size got) :
    unfinished size 0 got = got.length := by
  have hlen := h.2
  rw [unfinished_open h.1 (by omega),Nat.zero_add]

theorem Whole.unfinished (h : Whole size line) :
    unfinished size 0 line = 0 := by
  rcases List.eq_nil_or_concat line with rfl | ⟨body,c,rfl⟩
  · rfl
  · have hbody := h.body
    have hshort := h.short
    rw [List.concat_eq_append] at hbody hshort ⊢
    rw [List.dropLast_concat] at hbody
    rw [List.length_append,List.length_singleton] at hshort
    rw [unfinished_append,unfinished_open hbody (by omega)]
    have hend : c = newline ∨ 0+body.length+1 = size-1 := by
      rcases h.finished with hlast | hlen
      · left
        simpa using hlast
      · right
        rw [List.concat_eq_append,List.length_append,List.length_singleton] at hlen
        omega
    rw [Libc.unfinished,if_pos hend]
    rfl

end Lines

section Scanning

def isSpace (c : UInt8) : Bool := c = 32 || 9 ≤ c && c ≤ 13

def isDigit (c : UInt8) : Bool := 48 ≤ c && c ≤ 57

def digitsValue (digits : List UInt8) : ℕ :=
  digits.foldl (fun v d => 10*v+(d.toNat-48)) 0

def scanSign : List UInt8 → Bool × List UInt8
  | 45 :: text => (true,text)
  | 43 :: text => (false,text)
  | text => (false,text)

/-- The conversion `%ld`: the number, held within the range of a `long`, and the text behind
it. -/
def scanLong (text : List UInt8) : Option (Long × List UInt8) :=
  let signed := scanSign (text.dropWhile isSpace)
  let digits := signed.2.takeWhile isDigit
  if digits = [] then none
  else
    let value : ℤ := if signed.1 then -(digitsValue digits : ℤ) else digitsValue digits
    some (BitVec.ofInt 64 (max (-2^63) (min value (2^63-1))),signed.2.dropWhile isDigit)

/-- `sscanf(line, "%ld %ld", ..)`: the two numbers if both conversions succeed. The second
conversion skips the white space that the format allows before it. -/
def scanTwo (line : List UInt8) : Option (Long × Long) :=
  (scanLong (cString line)).bind fun a => (scanLong a.2).map fun b => (a.1,b.1)

def decimalNat (v : ℕ) : List UInt8 :=
  if v = 0 then [48] else (Nat.digits 10 v).reverse.map fun d => (48+d).toUInt8

def decimal (v : ℤ) : List UInt8 :=
  if v < 0 then 45 :: decimalNat v.natAbs else decimalNat v.natAbs

theorem digitsValue_reverse {ds : List ℕ} (h : ∀ d ∈ ds, d < 10) :
    digitsValue (ds.reverse.map fun d => (48+d).toUInt8) = Nat.ofDigits 10 ds := by
  induction ds with
  | nil => rfl
  | cons d ds ih =>
    have hd : d < 10 := h d List.mem_cons_self
    have hds := ih fun x hx => h x (List.mem_cons_of_mem d hx)
    have hbyte : (48+d).toUInt8.toNat-48 = d := by
      simp only [Nat.toUInt8_eq,UInt8.toNat_ofNat']
      omega
    rw [digitsValue] at hds ⊢
    rw [List.reverse_cons,List.map_append,List.foldl_append,hds,Nat.ofDigits_cons]
    simp only [List.map_cons,List.map_nil,List.foldl_cons,List.foldl_nil,hbyte]
    omega

theorem digitsValue_decimalNat (v : ℕ) : digitsValue (decimalNat v) = v := by
  rw [decimalNat]
  split_ifs with hv
  · rw [hv]
    rfl
  · rw [digitsValue_reverse fun d hd => Nat.digits_lt_base (by omega) hd,Nat.ofDigits_digits]

theorem decimalNat_ne_nil (v : ℕ) : decimalNat v ≠ [] := by
  rw [decimalNat]
  split_ifs with hv
  · simp
  · simpa [Nat.digits_ne_nil_iff_ne_zero] using hv

theorem isDigit_decimalNat (v : ℕ) : ∀ c ∈ decimalNat v, isDigit c = true := by
  intro c hc
  rw [decimalNat] at hc
  split_ifs at hc with hv
  · obtain rfl := List.mem_singleton.mp hc
    rfl
  · obtain ⟨d,hd,rfl⟩ := List.mem_map.mp hc
    have hlt : d < 10 := Nat.digits_lt_base (by omega) (List.mem_reverse.mp hd)
    interval_cases d <;> rfl

theorem scanSign_digit {c : UInt8} (h : isDigit c = true) (text : List UInt8) :
    scanSign (c :: text) = (false,c :: text) := by
  simp only [scanSign]
  split
  · rename_i heq
    obtain rfl := (List.cons.inj heq).1
    cases h
  · rename_i heq
    obtain rfl := (List.cons.inj heq).1
    cases h
  · rfl

theorem isSpace_of_isDigit {c : UInt8} (h : isDigit c = true) : isSpace c = false := by
  simp only [isDigit,Bool.and_eq_true,decide_eq_true_eq,UInt8.le_iff_toNat_le] at h
  simp only [isSpace,Bool.or_eq_false_iff,Bool.and_eq_false_iff,decide_eq_false_iff_not,
    UInt8.le_iff_toNat_le,← UInt8.toNat_inj]
  change 48 ≤ c.toNat ∧ c.toNat ≤ 57 at h
  change ¬ c.toNat = 32 ∧ (¬ 9 ≤ c.toNat ∨ ¬ c.toNat ≤ 13)
  omega

theorem scanSign_decimal (v : ℤ) (text : List UInt8) :
    scanSign ((decimal v ++ text).dropWhile isSpace) =
      (decide (v < 0),decimalNat v.natAbs ++ text) := by
  by_cases hv : v < 0
  · simp [decimal,hv,scanSign,isSpace]
  · cases hdigits : decimalNat v.natAbs with
    | nil => exact absurd hdigits (decimalNat_ne_nil _)
    | cons c digits =>
      have hc : isDigit c = true := isDigit_decimalNat v.natAbs c (by simp [hdigits])
      simp [decimal,hv,hdigits,isSpace_of_isDigit hc,scanSign_digit hc]

theorem scanLong_decimal (x : Long) {c : UInt8} (hc : isDigit c = false) (text : List UInt8) :
    scanLong (decimal x.toInt ++ c :: text) = some (x,c :: text) := by
  have hdigits := isDigit_decimalNat x.toInt.natAbs
  have htake : (decimalNat x.toInt.natAbs ++ c :: text).takeWhile isDigit =
      decimalNat x.toInt.natAbs := by
    rw [List.takeWhile_append_of_pos hdigits]
    simp [hc]
  have hdrop : (decimalNat x.toInt.natAbs ++ c :: text).dropWhile isDigit = c :: text := by
    rw [List.dropWhile_append_of_pos hdigits]
    simp [hc]
  have hvalue : (if decide (x.toInt < 0) = true then -(x.toInt.natAbs : ℤ) else x.toInt.natAbs) =
      x.toInt := by
    split_ifs with hneg <;> simp only [decide_eq_true_eq] at hneg <;> omega
  have hlow := BitVec.le_toInt x
  have hhigh := BitVec.toInt_lt (x := x)
  have hfits : max (-2^63) (min x.toInt (2^63-1)) = x.toInt := by omega
  simp only [scanLong,scanSign_decimal,htake,hdrop,decimalNat_ne_nil,if_false,
    digitsValue_decimalNat,hvalue,hfits,BitVec.ofInt_toInt]

theorem scanLong_space {c : UInt8} (hc : isSpace c = true) (text : List UInt8) :
    scanLong (c :: text) = scanLong text := by
  simp only [scanLong,List.dropWhile_cons_of_pos hc]

theorem cString_decimal (v : ℤ) (text : List UInt8) :
    cString (decimal v ++ text) = decimal v ++ cString text := by
  apply List.takeWhile_append_of_pos
  intro c hc
  have hdigit : isDigit c = true ∨ c = 45 := by
    rw [decimal] at hc
    split_ifs at hc
    · rcases List.mem_cons.mp hc with rfl | hc
      · exact Or.inr rfl
      · exact Or.inl (isDigit_decimalNat _ c hc)
    · exact Or.inl (isDigit_decimalNat _ c hc)
  rcases hdigit with hdigit | rfl
  · refine decide_eq_true ?_
    rintro rfl
    cases hdigit
  · rfl

/-- A line with two numbers gives these numbers. -/
theorem scanTwo_decimal (a b : Long) :
    scanTwo (decimal a.toInt ++ 32 :: (decimal b.toInt ++ [newline])) = some (a,b) := by
  have hspace : cString (32 :: (decimal b.toInt ++ [newline])) =
      32 :: (decimal b.toInt ++ [newline]) := by
    rw [cString,List.takeWhile_cons_of_pos (by decide)]
    congr 1
    exact cString_decimal b.toInt [newline]
  rw [scanTwo,cString_decimal,hspace,scanLong_decimal a (by decide),Option.bind_some,
    scanLong_space (by decide),scanLong_decimal b (by decide)]
  rfl

end Scanning

end Libc
end CPrograming
