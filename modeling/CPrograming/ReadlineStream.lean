import CPrograming.Libc
import CPrograming.ReadStream

/-!
# What the line reader makes of its stream

A call of `readline` takes the next piece of the stream: up to the first newline, at most
`max` bytes, and less only if the stream ends before. Everything that it stores and
returns follows from that piece and from how the stream ends. It stays within a buffer of
`max` bytes only if the piece is shorter than that.
-/

namespace CPrograming
namespace Readline

open ReadStream Libc

/-- What the reader will still get before its stream ends: the rest of the buffer and what
later calls of `read` bring. -/
def Reader.incoming (r : Reader) : List UInt8 :=
  r.rest ++ arriving (r.answers.map (ReadAnswer.upTo maxLine))

def Reader.closing (r : Reader) : Closing :=
  ReadStream.closing (r.answers.map (ReadAnswer.upTo maxLine))

structure Reader.Within (r : Reader) : Prop where
  cnt : 0 ≤ r.cnt
  fits : r.point+r.cnt ≤ maxLine

def Reader.Sound (r : Reader) : Prop := 0 < r.cnt → r.point+r.cnt ≤ maxLine

theorem Reader.Within.sound {r : Reader} (h : r.Within) : r.Sound := fun _ => h.fits

section Fetching

variable (fd : ℤ) {r : Reader} {c : UInt8} {tail : List UInt8}

theorem again_next {answers : List ReadAnswer}
    (h : arriving (answers.map (ReadAnswer.upTo maxLine)) = c :: tail) (r : Reader) : ∃ z r',
      again fd answers r = some (.data (c :: z),r') ∧ r'.cnt = z.length+1 ∧
      z.length < maxLine ∧ r'.buffer.load 0 (z.length+1) = c :: z ∧
      tail = z ++ arriving (r'.answers.map (ReadAnswer.upTo maxLine)) ∧
      r'.closing = ReadStream.closing (answers.map (ReadAnswer.upTo maxLine)) := by
  induction answers generalizing r with
  | nil => simp [arriving] at h
  | cons a later ih =>
    rw [List.map_cons] at h ⊢
    cases ha : a.upTo maxLine with
    | fail e =>
      rw [ha] at h
      by_cases he : e = .eintr
      · subst he
        rw [again_interrupted fd later r ha]
        exact ih h _
      · rw [arriving_failed he] at h
        simp at h
    | data bytes =>
      rw [ha] at h
      have hlen := ReadAnswer.upTo_length ha
      cases bytes with
      | nil => simp [arriving] at h
      | cons b z =>
        obtain ⟨rfl,rfl⟩ : b = c ∧ z ++ arriving (later.map (ReadAnswer.upTo maxLine)) = tail := by
          simpa [arriving] using h
        refine ⟨z,_,again_data fd later r ha,?_,hlen,?_,rfl,rfl⟩
        · simp [Reader.answered,ReadAnswer.ret]
        · exact Memory.load_store r.buffer 0 (b :: z)

theorem again_end {answers : List ReadAnswer}
    (h : arriving (answers.map (ReadAnswer.upTo maxLine)) = []) (r : Reader) :
    match ReadStream.closing (answers.map (ReadAnswer.upTo maxLine)) with
    | .waiting => again fd answers r = none
    | .eof => ∃ r', again fd answers r = some (.data [],r') ∧ r'.cnt = 0
    | .error => ∃ e r', again fd answers r = some (.fail e,r') := by
  induction answers generalizing r with
  | nil => rfl
  | cons a later ih =>
    rw [List.map_cons] at h ⊢
    cases ha : a.upTo maxLine with
    | fail e =>
      rw [ha] at h
      by_cases he : e = .eintr
      · subst he
        rw [again_interrupted fd later r ha]
        exact ih h _
      · rw [closing_failed he]
        exact ⟨e,_,again_failed fd later r ha he⟩
    | data bytes =>
      rw [ha] at h
      cases bytes with
      | nil => exact ⟨_,again_data fd later r ha,rfl⟩
      | cons b z => simp [arriving] at h

theorem again_suffix {fd : ℤ} {answers : List ReadAnswer} {r r' : Reader} {got : ReadAnswer}
    (h : again fd answers r = some (got,r')) : r'.answers <:+ answers := by
  induction answers generalizing r with
  | nil => simp [again] at h
  | cons a later ih =>
    cases ha : a.upTo maxLine with
    | data bytes =>
      rw [again_data fd later r ha] at h
      cases h
      exact List.suffix_cons a later
    | fail e =>
      by_cases he : e = .eintr
      · subst he
        rw [again_interrupted fd later r ha] at h
        exact (ih h).trans (List.suffix_cons a later)
      · rw [again_failed fd later r ha he] at h
        cases h
        exact List.suffix_cons a later

theorem myread_next (h : r.incoming = c :: tail) : ∃ r', myread fd r = some (.byte c,r') ∧
    r'.incoming = tail ∧ r'.closing = r.closing ∧ (r.Sound → r'.Within) := by
  by_cases hcnt : r.cnt ≤ 0
  · rw [Reader.incoming,Reader.rest_of_cnt hcnt,List.nil_append] at h
    obtain ⟨z,r',hagain,hz,hlen,hload,htail,hclosing⟩ := again_next fd h r
    obtain ⟨hc,hrest⟩ := Reader.fetch_first hz hload
    refine ⟨({ r' with point := 0 }.fetch).2,?_,?_,hclosing,?_⟩
    · simp only [myread,hcnt,hagain,if_true,Option.map_some]
      rw [hc]
    · rw [Reader.incoming,hrest,htail]
      rfl
    · intro _
      constructor <;> simp only [Reader.fetch,hz] <;> push_cast <;> omega
  · rw [Reader.incoming,Reader.rest_fetch (not_le.mp hcnt)] at h
    obtain ⟨rfl,htail⟩ := List.cons.inj h
    refine ⟨r.fetch.2,?_,htail,rfl,?_⟩
    · simp [myread,hcnt,Reader.fetch]
    · intro hsound
      have hfits := hsound (by omega)
      constructor <;> simp only [Reader.fetch] <;> push_cast <;> omega

theorem Reader.cnt_of_incoming (h : r.incoming = []) : r.cnt ≤ 0 := by
  have hlen := congrArg List.length (List.append_eq_nil_iff.mp h).1
  simp only [rest,Memory.load_length,List.length_nil] at hlen
  omega

theorem myread_end (h : r.incoming = []) :
    match r.closing with
    | .waiting => myread fd r = none
    | .eof => ∃ r', myread fd r = some (.eof,r') ∧ r'.cnt = 0
    | .error => ∃ r', myread fd r = some (.error,r') := by
  have hcnt := Reader.cnt_of_incoming h
  have hend := again_end fd (List.append_eq_nil_iff.mp h).2 r
  rw [Reader.closing]
  cases hclosing : ReadStream.closing (r.answers.map (ReadAnswer.upTo maxLine)) with
  | waiting =>
    rw [hclosing] at hend
    simp [myread,hcnt,hend]
  | eof =>
    rw [hclosing] at hend
    obtain ⟨r',hagain,hr'⟩ := hend
    exact ⟨r',by simp [myread,hcnt,hagain],hr'⟩
  | error =>
    rw [hclosing] at hend
    obtain ⟨e,r',hagain⟩ := hend
    exact ⟨r',by simp [myread,hcnt,hagain]⟩

theorem myread_suffix {fd : ℤ} {r r' : Reader} {f : Fetched} (h : myread fd r = some (f,r')) :
    r'.answers <:+ r.answers := by
  simp only [myread] at h
  split_ifs at h with hcnt
  · obtain ⟨⟨got,r₁⟩,hagain,hgot⟩ := Option.map_eq_some_iff.mp h
    have hsuffix := again_suffix hagain
    rcases got with ⟨_ | _⟩ | _ <;> cases hgot <;> exact hsuffix
  · cases h
    exact List.suffix_refl _

end Fetching

section Pieces

abbrev Ended (piece : List UInt8) : Prop := piece.getLast? = some newline

@[simp] theorem not_ended_nil : ¬ Ended [] := by simp [Ended]

@[simp] theorem ended_newline : Ended [newline] := rfl

theorem ended_cons {c : UInt8} (hc : c ≠ newline) (piece : List UInt8) :
    Ended (c :: piece) ↔ Ended piece := by
  cases piece with
  | nil => simp [Ended,hc]
  | cons b piece => simp [Ended,List.getLast?_cons_cons]

/-- What a loop from `i` with `left` rounds returns after it has stored `piece`, and what it
stores behind. -/
def lineEnd (i left : ℕ) (piece : List UInt8) (closing : Closing) : Option ℤ × List UInt8 :=
  if Ended piece then (some (i+piece.length),[0])
  else if piece.length = left then (some (i+piece.length+1),[0])
  else
    match closing with
    | .waiting => (none,[])
    | .eof => (some 0,[0])
    | .error => (some (-1),[])

theorem lineEnd_ended {i left : ℕ} {piece : List UInt8} (h : Ended piece) (closing : Closing) :
    lineEnd i left piece closing = (some ((i : ℤ)+piece.length),[0]) := if_pos h

theorem lineEnd_full {i left : ℕ} {piece : List UInt8} (h : ¬ Ended piece)
    (hlen : piece.length = left) (closing : Closing) :
    lineEnd i left piece closing = (some ((i : ℤ)+piece.length+1),[0]) := by
  rw [lineEnd.eq_def,if_neg h,if_pos hlen]

theorem lineEnd_cons {c : UInt8} (hc : c ≠ newline) (i left : ℕ) (piece : List UInt8)
    (closing : Closing) :
    lineEnd i (left+1) (c :: piece) closing = lineEnd (i+1) left piece closing := by
  have hlen : (i : ℤ)+((piece.length+1 : ℕ) : ℤ) = (i+1 : ℕ)+piece.length := by
    push_cast
    omega
  simp only [lineEnd,ended_cons hc,List.length_cons,hlen,Nat.add_right_cancel_iff]

variable (fd : ℤ)

/-- The loop stores the next piece of the stream. -/
theorem readlineLoop_piece (left i : ℕ) (r : Reader) :
    (readlineLoop fd left i r).ret =
        (lineEnd i left (copyLine left r.incoming).1 r.closing).1 ∧
      (readlineLoop fd left i r).stores = Memory.storesFrom i ((copyLine left r.incoming).1 ++
        (lineEnd i left (copyLine left r.incoming).1 r.closing).2) := by
  induction left generalizing i r with
  | zero => simp [readlineLoop,copyLine,lineEnd,Memory.storesFrom,Ended]
  | succ left ih =>
    rw [readlineLoop]
    cases hin : r.incoming with
    | nil =>
      have hend := myread_end fd hin
      cases hclosing : r.closing with
      | waiting =>
        rw [hclosing] at hend
        simp [hend,copyLine,lineEnd,Memory.storesFrom,Ended]
      | eof =>
        rw [hclosing] at hend
        obtain ⟨r',hread,-⟩ := hend
        simp [hread,copyLine,lineEnd,Memory.storesFrom,Ended]
      | error =>
        rw [hclosing] at hend
        obtain ⟨r',hread⟩ := hend
        simp [hread,copyLine,lineEnd,Memory.storesFrom,Ended]
    | cons c tail =>
      obtain ⟨r',hread,rfl,hclosing,-⟩ := myread_next fd hin
      by_cases hc : c = newline
      · simp [hread,copyLine,lineEnd,Memory.storesFrom,Ended,hc]
      · obtain ⟨hret,hstores⟩ := ih (i+1) r'
        simp only [hread,hc,if_false,copyLine,lineEnd_cons hc,← hclosing]
        refine ⟨hret,?_⟩
        rw [hstores]
        rfl

end Pieces

section Bounds

def Reader.piece (r : Reader) (max : ℤ) : List UInt8 := (copyLine max.toNat r.incoming).1

/-- All stores are within `max` bytes, and a positive return value counts the bytes of the
piece, with the terminating 0 behind them. -/
structure Fits (max : ℤ) (piece : List UInt8) (call : Call) : Prop where
  within : ∀ e ∈ call.stores, (e.1 : ℤ) < max
  counted : ∀ k, call.ret = some k → 0 < k → k = piece.length ∧
    ∀ dst : Memory UInt8, (dst.storeAll call.stores).load 0 (k.toNat+1) = piece ++ [0]

variable {fd max : ℤ} {piece tail : List UInt8} {call : Call}

theorem storesFrom_within (hstores : call.stores = Memory.storesFrom 0 (piece ++ tail))
    (hlen : ((piece ++ tail).length : ℤ) ≤ max) : ∀ e ∈ call.stores, (e.1 : ℤ) < max := by
  intro e he
  rw [hstores] at he
  have hbound := Memory.mem_storesFrom he
  omega

theorem Fits.room (h : Fits max piece call)
    (hstores : call.stores = Memory.storesFrom 0 (piece ++ [0])) : piece.length < max := by
  have hmem : (piece.length,(0 : UInt8)) ∈ call.stores := by
    rw [hstores,Memory.storesFrom_append]
    simp [Memory.storesFrom]
  exact h.within _ hmem

theorem fits_of_room (hstores : call.stores = Memory.storesFrom 0 (piece ++ [0]))
    (hret : ∀ k, call.ret = some k → 0 < k → k = piece.length) (hlen : piece.length < max) :
    Fits max piece call := by
  refine ⟨storesFrom_within hstores (by simp; omega),?_⟩
  intro k hk hpos
  refine ⟨hret k hk hpos,?_⟩
  intro dst
  have hcount : k.toNat+1 = (piece ++ [0]).length := by
    rw [hret k hk hpos]
    simp
  rw [hstores,Memory.storeAll_storesFrom,hcount,Memory.load_store]

/-- The stream ends within the piece: nothing positive is returned. -/
theorem lineEnd_short {left : ℕ} (hended : ¬ Ended piece) (hlen : piece.length ≠ left)
    (closing : Closing) : (∀ k, (lineEnd 0 left piece closing).1 = some k → k ≤ 0) ∧
      ((lineEnd 0 left piece closing).2 = [] ∨ (lineEnd 0 left piece closing).2 = [0]) := by
  rw [lineEnd.eq_def,if_neg hended,if_neg hlen]
  cases closing <;> simp

theorem fits_of_short (hret : ∀ k, call.ret = some k → k ≤ 0)
    (hstores : call.stores = Memory.storesFrom 0 (piece ++ tail)) (htail : tail = [] ∨ tail = [0])
    (hlen : piece.length < max) : Fits max piece call := by
  refine ⟨storesFrom_within hstores ?_,?_⟩
  · rcases htail with rfl | rfl <;> simp <;> omega
  · intro k hk hpos
    have hle := hret k hk
    omega

end Bounds

/-- Whatever the static variables hold and `read` answers, a call of `readline` stores the
next piece of the stream and at most a 0 behind it. It stays within `max` bytes and counts
them right exactly if the piece is shorter than `max`: the 0 needs a byte of its own. -/
theorem readline_fits_iff (fd max : ℤ) (r : Reader) :
    (∃ tail, (tail = [] ∨ tail = [0]) ∧
      (readline fd max r).stores = Memory.storesFrom 0 (r.piece max ++ tail)) ∧
    (Fits max (r.piece max) (readline fd max r) ↔ (r.piece max).length < max) := by
  have hle := copyLine_length max.toNat r.incoming
  obtain ⟨hret,hstores⟩ := readlineLoop_piece fd max.toNat 0 r
  rw [← Reader.piece] at hle hret hstores
  by_cases hended : Ended (r.piece max)
  · rw [lineEnd_ended hended] at hret hstores
    refine ⟨⟨[0],Or.inr rfl,hstores⟩,fun h => h.room hstores,fits_of_room hstores ?_⟩
    intro k hk _
    rw [readline,hret] at hk
    have hcount := Option.some.inj hk
    omega
  · by_cases hfull : (r.piece max).length = max.toNat
    · rw [lineEnd_full hended hfull] at hret hstores
      refine ⟨⟨[0],Or.inr rfl,hstores⟩,fun h => h.room hstores,fun hlen => ?_⟩
      omega
    · obtain ⟨hnone,htail⟩ := lineEnd_short hended hfull r.closing
      refine ⟨⟨_,htail,hstores⟩,fun _ => by omega,fits_of_short ?_ hstores htail⟩
      intro k hk
      rw [readline,hret] at hk
      exact hnone k hk

/-- A buffer of three bytes. With the newline in the last of them the 0 is stored behind
the buffer; without a newline the count is wrong as well. -/
theorem readline_overruns :
    (readline 3 3 (start [.data [97,98,10]])).stores = [(0,97),(1,98),(2,10),(3,0)] ∧
      (readline 3 3 (start [.data [97,98,99,10]])).stores = [(0,97),(1,98),(2,99),(3,0)] ∧
      (readline 3 3 (start [.data [97,98,99,10]])).ret = some 4 := by
  decide

example : (readline 3 3 (start [.data [97,10]])).stores = [(0,97),(1,10),(2,0)] := by decide

end Readline
end CPrograming
