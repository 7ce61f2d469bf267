import CPrograming.Readline

/-!
# `read_line` of `func/string.c`

The loop fetches a character before it looks at the limit, and it ends at a newline or at the
limit only. At the end of the input `getchar` returns `EOF` again and again, which is stored like
a character.
-/

namespace CPrograming
namespace FuncString

open Readline (newline)

def getchar : List UInt8 → ℤ × List UInt8
  | [] => (-1,[])
  | c :: rest => (c.toNat,rest)

/-- The stores into `str`, the return value, and the input that is left. -/
structure Line where
  stores : List (ℕ × UInt8)
  ret : ℕ
  rest : List UInt8
  deriving DecidableEq, Repr

def Line.store (r : Line) (i : ℕ) (c : UInt8) : Line := { r with stores := (i,c) :: r.stores }

/-- The loop of `read_line` with `left = n-i`. -/
def readLoop (left i : ℕ) (input : List UInt8) : Line :=
  let ch := (getchar input).1
  let rest := (getchar input).2
  if ch = newline.toNat then ⟨[(i,0)],i,rest⟩
  else
    match left with
    | 0 => ⟨[(i,0)],i,rest⟩
    | left+1 => (readLoop left (i+1) rest).store i (UInt8.ofInt ch)

def readLine (n : ℕ) (input : List UInt8) : Line := readLoop n 0 input

/-- What `read_line` should store of the input. -/
def lineOf (n : ℕ) (input : List UInt8) : List UInt8 := (input.takeWhile (· ≠ newline)).take n

/-- The line is stored with a NUL, its length is returned, and nothing is consumed but the line
and a newline behind it. -/
structure Correct (n : ℕ) (input : List UInt8) (r : Line) : Prop where
  stores : r.stores = Memory.storesFrom 0 (lineOf n input ++ [0])
  ret : r.ret = (lineOf n input).length
  rest : r.rest = input.drop (lineOf n input).length ∨
    input.drop (lineOf n input).length = newline :: r.rest

theorem ofInt_toNat (c : UInt8) : UInt8.ofInt c.toNat = c := by
  have hmod : ((c.toNat : ℤ) % 2^8).toNat = c.toNat := by
    have hlt := c.toNat_lt
    omega
  rw [UInt8.ofInt,hmod,UInt8.ofNat_toNat]

theorem lineOf_cons {c : UInt8} (hc : c ≠ newline) (n : ℕ) (input : List UInt8) :
    lineOf (n+1) (c :: input) = c :: lineOf n input := by
  simp [lineOf,hc]

theorem lineOf_newline (n : ℕ) (input : List UInt8) : lineOf n (newline :: input) = [] := by
  simp [lineOf]

def Line.taken (i : ℕ) (line input : List UInt8) : Line :=
  ⟨Memory.storesFrom i (line ++ [0]),i+line.length,input.drop (line.length+1)⟩

theorem taken_cons (i : ℕ) (c : UInt8) (line input : List UInt8) :
    (Line.taken (i+1) line input.tail).store i c = Line.taken i (c :: line) input := by
  have hret : i+1+line.length = i+(line.length+1) := by omega
  simp [Line.taken,Line.store,Memory.storesFrom,hret]

theorem readLoop_newline (left i : ℕ) (input : List UInt8) :
    readLoop left i (newline :: input) = Line.taken i [] (newline :: input) := by
  cases left <;> rfl

theorem readLoop_cons {c : UInt8} (hc : c ≠ newline) (left i : ℕ) (input : List UInt8) :
    readLoop (left+1) i (c :: input) = (readLoop left (i+1) input).store i c := by
  have hne : (c.toNat : ℤ) ≠ newline.toNat := by
    intro heq
    exact hc (UInt8.toNat_inj.mp (Int.ofNat.inj heq))
  rw [readLoop]
  simp only [getchar,if_neg hne,ofInt_toNat]

/-- The loop sees the input with `EOF` behind it. -/
theorem readLoop_eq {left pad : ℕ} (hpad : left ≤ pad) (i : ℕ) (input : List UInt8) :
    readLoop left i input =
      Line.taken i (lineOf left (input ++ List.replicate pad 255)) input := by
  induction left generalizing pad i input with
  | zero => cases input <;> simp [readLoop,getchar,lineOf,Line.taken,Memory.storesFrom]
  | succ left ih =>
    cases input with
    | nil =>
      obtain ⟨pad,rfl⟩ : ∃ k, pad = k+1 := ⟨pad-1,by omega⟩
      have hloop : readLoop (left+1) i [] = (readLoop left (i+1) []).store i 255 := rfl
      have heof : (255 : UInt8) ≠ newline := by decide
      have hline := lineOf_cons heof left (List.replicate pad 255)
      rw [hloop,ih (Nat.le_of_succ_le_succ hpad),List.nil_append,List.nil_append,
        List.replicate_succ,hline]
      exact taken_cons i 255 _ []
    | cons c input =>
      by_cases hc : c = newline
      · subst hc
        rw [readLoop_newline,List.cons_append,lineOf_newline]
      · rw [readLoop_cons hc,ih (Nat.le_of_succ_le hpad),List.cons_append,lineOf_cons hc]
        exact taken_cons i c _ (c :: input)

theorem readLine_eq (n : ℕ) (input : List UInt8) :
    readLine n input = Line.taken 0 (lineOf n (input ++ List.replicate n 255)) input :=
  readLoop_eq le_rfl 0 input

theorem takeWhile_line {line : List UInt8} (h : newline ∉ line) (rest : List UInt8) :
    (line ++ rest).takeWhile (· ≠ newline) = line ++ rest.takeWhile (· ≠ newline) := by
  refine List.takeWhile_append_of_pos fun c hc => ?_
  exact decide_eq_true (ne_of_mem_of_not_mem hc h)

theorem lineOf_of_notMem {input : List UInt8} (h : newline ∉ input) (n : ℕ) :
    lineOf n input = input.take n := by
  have htake := takeWhile_line h []
  rw [List.append_nil,List.takeWhile_nil,List.append_nil] at htake
  rw [lineOf,htake]

/-- A character behind the line is consumed only if it is a newline. -/
theorem Correct.next {n i : ℕ} {input : List UInt8}
    (h : Correct n input (Line.taken i (lineOf n input) input))
    (hlen : (lineOf n input).length < input.length) :
    input[(lineOf n input).length]? = some newline := by
  have hdrop := List.drop_eq_getElem_cons hlen
  rcases h.rest with hrest | hrest
  · rw [hdrop] at hrest
    have hlength := congrArg List.length hrest
    simp only [Line.taken,List.length_cons,List.length_drop] at hlength
    omega
  · rw [hdrop] at hrest
    rw [List.getElem?_eq_getElem hlen,(List.cons.inj hrest).1]

theorem readLine_newline {line : List UInt8} (h : newline ∉ line) (n : ℕ) (rest : List UInt8) :
    Correct n (line ++ newline :: rest) (readLine n (line ++ newline :: rest)) ↔
      line.length ≤ n := by
  have hline (more : List UInt8) : lineOf n (line ++ newline :: more) = line.take n := by
    rw [lineOf,takeWhile_line h]
    simp
  have hread : readLine n (line ++ newline :: rest) =
      Line.taken 0 (lineOf n (line ++ newline :: rest)) (line ++ newline :: rest) := by
    rw [readLine_eq,List.append_assoc,List.cons_append,hline,hline]
  rw [hread]
  constructor
  · intro hcorrect
    by_contra hlong
    have hn : n < line.length := not_le.mp hlong
    have hlen : (lineOf n (line ++ newline :: rest)).length = n := by
      rw [hline,List.length_take,Nat.min_eq_left hn.le]
    have hnext := hcorrect.next (by rw [hlen,List.length_append]; omega)
    rw [hlen,List.getElem?_append_left hn] at hnext
    exact h (List.mem_of_getElem? hnext)
  · intro hle
    refine ⟨rfl,Nat.zero_add _,Or.inr ?_⟩
    simp [hline,Line.taken,List.take_of_length_le hle]

theorem readLine_eof {input : List UInt8} (h : newline ∉ input) (n : ℕ) :
    Correct n input (readLine n input) ↔ input.length = n := by
  have hline := lineOf_of_notMem h n
  have hpad : newline ∉ input ++ List.replicate n 255 := by
    rw [List.mem_append,not_or]
    exact ⟨h,fun hmem => absurd (List.eq_of_mem_replicate hmem) (by decide)⟩
  have hread : readLine n input =
      Line.taken 0 ((input ++ List.replicate n 255).take n) input := by
    rw [readLine_eq,lineOf_of_notMem hpad]
  rw [hread]
  constructor
  · intro hcorrect
    have hret := hcorrect.ret
    have hn : n ≤ input.length := by
      simp [Line.taken,hline] at hret
      omega
    rw [List.take_append_of_le_length hn,← hline] at hcorrect
    by_contra hne
    have hlen : (lineOf n input).length = n := by
      rw [hline,List.length_take,Nat.min_eq_left hn]
    have hnext := hcorrect.next (by omega)
    exact h (List.mem_of_getElem? hnext)
  · intro hn
    rw [List.take_append_of_le_length hn.ge,← hline]
    refine ⟨rfl,Nat.zero_add _,Or.inl ?_⟩
    simp [hline,Line.taken,hn]

/-- For every input, `read_line` reads its line exactly if a newline ends it within the limit, or
if there is no newline and the input is as long as the limit. -/
theorem readLine_correct_iff (n : ℕ) (input : List UInt8) :
    Correct n input (readLine n input) ↔
      (newline ∈ input ∧ (input.takeWhile (· ≠ newline)).length ≤ n) ∨
        (newline ∉ input ∧ input.length = n) := by
  by_cases hmem : newline ∈ input
  · obtain ⟨line,rest,rfl,hline⟩ := List.eq_append_cons_of_mem hmem
    rw [readLine_newline hline,takeWhile_line hline]
    simp
  · rw [readLine_eof hmem]
    simp [hmem]

/-- With a limit of 2 the third character of a line is lost, and with a limit of 4 two `EOF` are
stored behind an input of two characters. -/
theorem readLine_loses_and_pads :
    readLine 2 [97,98,99,100,newline] = ⟨[(0,97),(1,98),(2,0)],2,[100,newline]⟩ ∧
      ¬Correct 2 [97,98,99,100,newline] (readLine 2 [97,98,99,100,newline]) ∧
      readLine 4 [97,98] = ⟨[(0,97),(1,98),(2,255),(3,255),(4,0)],4,[]⟩ ∧
      ¬Correct 4 [97,98] (readLine 4 [97,98]) := by
  refine ⟨by decide,?_,by decide,?_⟩
  · intro h
    exact absurd ((readLine_newline (by decide : newline ∉ [97,98,99,100]) 2 []).mp h) (by decide)
  · intro h
    exact absurd ((readLine_eof (by decide) 4).mp h) (by decide)

end FuncString
end CPrograming
