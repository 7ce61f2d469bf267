import CPrograming.Libc

/-!
# `concat` of `func/memary.c`

The length of the new string is computed as a `size_t`, kept in an `int` and passed to `malloc`
as a `size_t` again. The loops copy up to the NUL of each string, whatever `length` is.
-/

namespace CPrograming
namespace FuncMemary

open Libc (cString)

/-- A string of C, without the NUL behind it. -/
structure CString where
  bytes : List UInt8
  nonzero : 0 ∉ bytes
  deriving DecidableEq

namespace CString

def text (s : CString) : List UInt8 := s.bytes ++ [0]

def strlen (s : CString) : BitVec 64 := BitVec.ofNat 64 (cString s.text).length

theorem cString_text (s : CString) : cString s.text = s.bytes := by
  have hall : ∀ c ∈ s.bytes, decide (c ≠ 0) = true := by
    intro c hc
    exact decide_eq_true (ne_of_mem_of_not_mem hc s.nonzero)
  rw [cString,text,List.takeWhile_append_of_pos hall]
  simp

theorem strlen_eq (s : CString) : s.strlen = BitVec.ofNat 64 s.bytes.length := by
  rw [strlen,cString_text]

end CString

/-- `while (*s != '\0') *pr++ = *s++;` gives the stores and the new value of `pr`. -/
def copyLoop : (s : List UInt8) → (pr : ℕ) → List (ℕ × UInt8) × ℕ
  | [], pr => ([],pr)
  | c :: s, pr =>
    if c ≠ 0 then ((pr,c) :: (copyLoop s (pr+1)).1,(copyLoop s (pr+1)).2) else ([],pr)

/-- The size that `malloc` is asked for, and the stores at their offsets in the block. -/
structure Concat where
  size : ℕ
  stores : List (ℕ × UInt8)
  deriving DecidableEq

def concat (s1 s2 : CString) : Concat :=
  let length : BitVec 32 := (s1.strlen+s2.strlen+1).setWidth 32
  let first := copyLoop s1.text 0
  let second := copyLoop s2.text first.2
  ⟨(length.signExtend 64).toNat,first.1 ++ second.1 ++ [(second.2,0)]⟩

theorem copyLoop_append (bytes rest : List UInt8) (h : 0 ∉ bytes) (pr : ℕ) :
    copyLoop (bytes ++ 0 :: rest) pr = (Memory.storesFrom pr bytes,pr+bytes.length) := by
  induction bytes generalizing pr with
  | nil => simp [copyLoop,Memory.storesFrom]
  | cons c bytes ih =>
    rw [List.mem_cons,not_or] at h
    rw [List.cons_append,copyLoop,if_pos (Ne.symm h.1),ih h.2,Memory.storesFrom,List.length_cons,
      Nat.add_assoc,Nat.add_comm 1]

theorem concat_stores (s1 s2 : CString) :
    (concat s1 s2).stores = Memory.storesFrom 0 (s1.bytes ++ s2.bytes ++ [0]) := by
  have hfirst := copyLoop_append s1.bytes [] s1.nonzero 0
  have hsecond := copyLoop_append s2.bytes [] s2.nonzero (0+s1.bytes.length)
  simp only [concat,CString.text,hfirst,hsecond,Memory.storesFrom_append,List.length_append]
  simp [Memory.storesFrom]

def needed (s1 s2 : CString) : ℕ := s1.bytes.length+s2.bytes.length+1

theorem needed_eq (s1 s2 : CString) : (s1.bytes ++ s2.bytes ++ [0]).length = needed s1 s2 := by
  simp [needed,Nat.add_assoc]

theorem signExtend_toNat (n : ℕ) : ((BitVec.ofNat 32 n).signExtend 64).toNat =
    if n % 2^32 < 2^31 then n % 2^32 else n % 2^32+(2^64-2^32) := by
  have hmod : n % 2^32 % 2^64 = n % 2^32 := by omega
  rw [BitVec.toNat_signExtend,BitVec.msb_eq_decide,BitVec.toNat_setWidth,BitVec.toNat_ofNat,hmod]
  by_cases hsmall : n % 2^32 < 2^31
  · rw [if_pos hsmall,if_neg (by simpa using hsmall),Nat.add_zero]
  · rw [if_neg hsmall,if_pos (by simpa using hsmall)]

theorem concat_size (s1 s2 : CString) : (concat s1 s2).size =
    if needed s1 s2 % 2^32 < 2^31 then needed s1 s2 % 2^32
    else needed s1 s2 % 2^32+(2^64-2^32) := by
  have hlength : (s1.strlen+s2.strlen+1).setWidth 32 = BitVec.ofNat 32 (needed s1 s2) := by
    apply BitVec.eq_of_toNat_eq
    rw [s1.strlen_eq,s2.strlen_eq]
    have hone : (1 : BitVec 64).toNat = 1 := rfl
    simp only [needed,BitVec.toNat_setWidth,BitVec.toNat_add,BitVec.toNat_ofNat,hone]
    omega
  simp only [concat,hlength,signExtend_toNat]

/-- The new string fits into the block exactly if its size is not cut to something shorter. -/
theorem needed_le_size_iff {s1 s2 : CString} (hfits : needed s1 s2 < 2^64) :
    needed s1 s2 ≤ (concat s1 s2).size ↔
      needed s1 s2 < 2^31 ∨ 2^31 ≤ needed s1 s2 % 2^32 := by
  rw [concat_size]
  split_ifs <;> omega

theorem stores_inside_iff (s1 s2 : CString) (size : ℕ) :
    (∀ e ∈ (concat s1 s2).stores, e.1 < size) ↔ needed s1 s2 ≤ size := by
  rw [concat_stores]
  constructor
  · intro hinside
    have hnul := hinside (s1.bytes.length+s2.bytes.length,0) (by
      rw [Memory.storesFrom_append]
      simp [Memory.storesFrom])
    exact hnul
  · intro hle e he
    have hoff := (Memory.mem_storesFrom he).2
    rw [needed_eq] at hoff
    omega

/-- Every store is inside the block and the result is the new string exactly if the needed size
is below `2^31`, or its value as an `int` is negative and so becomes a huge size. -/
theorem concat_correct_iff (s1 s2 : CString) (block : Memory UInt8)
    (hfits : s1.bytes.length+s2.bytes.length+1 < 2^64) :
    ((∀ e ∈ (concat s1 s2).stores, e.1 < (concat s1 s2).size) ∧
      (block.storeAll (concat s1 s2).stores).load 0 (s1.bytes.length+s2.bytes.length+1) =
        s1.bytes ++ s2.bytes ++ [0]) ↔
      s1.bytes.length+s2.bytes.length+1 < 2^31 ∨
        2^31 ≤ (s1.bytes.length+s2.bytes.length+1) % 2^32 := by
  have hresult : (block.storeAll (concat s1 s2).stores).load 0
      (s1.bytes.length+s2.bytes.length+1) = s1.bytes ++ s2.bytes ++ [0] := by
    have hload := Memory.load_store block 0 (s1.bytes ++ s2.bytes ++ [0])
    rwa [needed_eq,← Memory.storeAll_storesFrom,← concat_stores] at hload
  rw [stores_inside_iff]
  constructor
  · rintro ⟨hle,_⟩
    exact (needed_le_size_iff hfits).mp hle
  · intro hsize
    exact ⟨(needed_le_size_iff hfits).mpr hsize,hresult⟩

theorem concat_short :
    (∀ e ∈ (concat ⟨[97,98],by decide⟩ ⟨[99],by decide⟩).stores,
      e.1 < (concat ⟨[97,98],by decide⟩ ⟨[99],by decide⟩).size) ∧
    (Memory.storeAll (fun _ => 7) (concat ⟨[97,98],by decide⟩ ⟨[99],by decide⟩).stores).load 0 4 =
      [97,98,99,0] :=
  (concat_correct_iff ⟨[97,98],by decide⟩ ⟨[99],by decide⟩ (fun _ => 7) (by decide)).mpr
    (by decide)

def letters (k : ℕ) : CString :=
  ⟨List.replicate k 97,fun hmem => absurd (List.eq_of_mem_replicate hmem) (by decide)⟩

theorem needed_letters (k : ℕ) : needed (letters k) (letters 0) = k+1 := by
  simp [needed,letters]

theorem mem_stores_letters (k : ℕ) : (0,97) ∈ (concat (letters (k+1)) (letters 0)).stores := by
  rw [concat_stores]
  simp [letters,List.replicate_succ,Memory.storesFrom]

/-- For a string of `2^32-1` letters `malloc` is asked for no bytes, and the first store is
outside the block. -/
theorem concat_huge :
    needed (letters 4294967295) (letters 0) < 2^64 ∧
      (concat (letters 4294967295) (letters 0)).size = 0 ∧
      (0,97) ∈ (concat (letters 4294967295) (letters 0)).stores := by
  refine ⟨?_,?_,mem_stores_letters 4294967294⟩
  · rw [needed_letters]
    norm_num
  · rw [concat_size,needed_letters]
    norm_num

end FuncMemary
end CPrograming
