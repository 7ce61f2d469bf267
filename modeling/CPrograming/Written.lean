import CPrograming.SocketFunc

/-!
# `written` sends a prefix

The calls of `write` that `written` makes are given the buffer from the first byte on that has
not been accepted. So what has been accepted is a prefix of the buffer after any mix of short
writes, interrupts and failures.
-/

namespace CPrograming
namespace SocketFunc

def accepted : WriteAnswer → ℕ
  | .accepted count => count
  | .fail _ => 0

/-- `write` returns 0, or fails with something other than `EINTR`. -/
def Fatal (got : WriteAnswer) : Prop := got = .accepted 0 ∨ ∃ e, e ≠ .eintr ∧ got = .fail e

/-- A call of `write`: the offset in the buffer and the number of bytes it is given, and its
result. -/
structure WriteCall where
  off : ℕ
  len : ℕ
  got : WriteAnswer
  deriving DecidableEq, Repr

def WriteCall.bytes (buffer : Memory UInt8) (c : WriteCall) : List UInt8 :=
  buffer.load c.off (accepted c.got)

def Writing.calls (size : ℤ) : List WriteAnswer → Writing → List WriteCall
  | [], _ => []
  | a :: rest, s =>
    if s.ret = none then
      ⟨s.off,s.left.toNat,a.upTo s.left.toNat⟩ :: calls size rest (s.body size a)
    else []

def writtenCalls (size : ℤ) (answers : List WriteAnswer) : List WriteCall :=
  Writing.calls size answers (Writing.enter size)

/-- Each call is given all of the `size` bytes that have not been accepted, `pos` of which are
before the first call. -/
def Resumes (size : ℕ) : (pos : ℕ) → List WriteCall → Prop
  | _, [] => True
  | pos, c :: rest =>
    c.off = pos ∧ 0 < c.len ∧ pos+c.len = size ∧ Resumes size (pos+accepted c.got) rest

section Loop

variable {size k : ℕ} {got : WriteAnswer}

theorem Fatal.accepted_eq (h : Fatal got) : accepted got = 0 := by
  obtain rfl | ⟨e,he,rfl⟩ := h <;> rfl

theorem Writing.calls_returned {size r : ℤ} {s : Writing} (h : s.ret = some r)
    (answers : List WriteAnswer) : Writing.calls size answers s = [] := by
  cases answers with
  | nil => rfl
  | cons a rest => simp [calls,h]

theorem Writing.after_left (size k : ℕ) : (Writing.after size k).left.toNat = size-k := by
  simp only [after]
  omega

theorem Writing.body_upTo (a : WriteAnswer) :
    (Writing.after size k).body size (a.upTo (size-k)) = (Writing.after size k).body size a := by
  rw [body,body,after_left]
  congr 1
  cases a with
  | accepted count => simp [WriteAnswer.upTo]
  | fail e => rfl

theorem Writing.body_fatal (h : Fatal got) :
    (Writing.after size k).body size got = ⟨k,size-k,some (-1)⟩ := by
  obtain rfl | ⟨e,he,rfl⟩ := h
  · simp [body,after,WriteAnswer.upTo]
  · exact body_failed he

theorem Writing.body_resumes (h : ¬Fatal got) (hk : k < size) (hle : k+accepted got ≤ size) :
    (Writing.after size k).body size got = Writing.after size (k+accepted got) := by
  cases got with
  | accepted count =>
    have hpos : 0 < count := by
      refine Nat.pos_of_ne_zero fun hzero => h (Or.inl ?_)
      rw [hzero]
    exact body_accepted hpos hle
  | fail e =>
    obtain rfl : e = .eintr := by
      by_contra he
      exact h (Or.inr ⟨e,he,rfl⟩)
    exact body_interrupted hk

theorem accepted_upTo_le (len : ℕ) (a : WriteAnswer) : accepted (a.upTo len) ≤ len := by
  cases ha : a.upTo len with
  | accepted count => exact WriteAnswer.upTo_le ha
  | fail e => exact Nat.zero_le len

/-- What the loop does from the moment when `k` bytes have been accepted: the calls it makes
and the state it comes to. -/
structure Exact (size k : ℕ) (w : Writing) (calls : List WriteCall) : Prop where
  resumes : Resumes size k calls
  off : w.off = k+(calls.map fun c => accepted c.got).sum
  within : w.off ≤ size
  full : w.ret = some (size : ℤ) ↔ w.off = size
  failed : w.ret = some (-1) ↔ ∃ c ∈ calls, Fatal c.got

theorem Exact.cons {w : Writing} {calls : List WriteCall} (h : k < size) (hgot : ¬Fatal got)
    (hrest : Exact size (k+accepted got) w calls) :
    Exact size k w (⟨k,size-k,got⟩ :: calls) := by
  have hlen : 0 < size-k := by omega
  have hsize : k+(size-k) = size := by omega
  refine ⟨⟨rfl,hlen,hsize,hrest.resumes⟩,?_,hrest.within,hrest.full,?_⟩
  · rw [hrest.off,List.map_cons,List.sum_cons,Nat.add_assoc]
  · rw [hrest.failed]
    simp [hgot]

theorem Exact.stop (h : k < size) (hgot : Fatal got) :
    Exact size k ⟨k,size-k,some (-1)⟩ [⟨k,size-k,got⟩] := by
  have hlen : 0 < size-k := by omega
  have hsize : k+(size-k) = size := by omega
  refine ⟨⟨rfl,hlen,hsize,trivial⟩,by simp [hgot.accepted_eq],h.le,?_,?_⟩
  · simp only [Option.some.injEq]
    omega
  · simp [hgot]

theorem Exact.start (h : k ≤ size) : Exact size k (Writing.after size k) [] := by
  refine ⟨trivial,rfl,h,?_,?_⟩
  · by_cases hlt : k < size
    · simp [Writing.after,hlt,hlt.ne]
    · simp [Writing.after,le_antisymm h (not_lt.mp hlt)]
  · by_cases hlt : k < size <;> simp [Writing.after,hlt]

theorem Writing.run_exact (h : k ≤ size) (answers : List WriteAnswer) :
    Exact size k (Writing.run size answers (Writing.after size k))
      (Writing.calls size answers (Writing.after size k)) := by
  induction answers generalizing k with
  | nil => exact .start h
  | cons a rest ih =>
    by_cases hlt : k < size
    · have hret : (Writing.after size k).ret = none := if_pos hlt
      rw [run,calls,if_pos hret,if_pos hret,after_left,← body_upTo]
      by_cases hgot : Fatal (a.upTo (size-k))
      · rw [body_fatal hgot,run_returned,calls_returned rfl]
        exact .stop hlt hgot
      · have hle : k+accepted (a.upTo (size-k)) ≤ size := by
          have haccepted := accepted_upTo_le (size-k) a
          omega
        rw [body_resumes hgot hlt hle]
        exact .cons hlt hgot (ih hle)
    · have hret : (Writing.after size k).ret = some (size : ℤ) := if_neg hlt
      have hnone : (Writing.after size k).ret ≠ none := by
        rw [hret]
        simp
      rw [run,calls,if_neg hnone,if_neg hnone]
      exact .start h

end Loop

/-- The bytes of calls that resume where the one before has ended are consecutive. -/
theorem Resumes.bytes {size : ℕ} (buffer : Memory UInt8) {calls : List WriteCall} {pos : ℕ}
    (h : Resumes size pos calls) :
    calls.flatMap (WriteCall.bytes buffer) =
      buffer.load pos (calls.map fun c => accepted c.got).sum := by
  induction calls generalizing pos with
  | nil => rfl
  | cons c rest ih =>
    obtain ⟨hoff,_,_,hrest⟩ := h
    rw [List.flatMap_cons,ih hrest,List.map_cons,List.sum_cons,Memory.load_add,
      WriteCall.bytes,hoff]

theorem fatal_accepted_succ (j : ℕ) : ¬ Fatal (.accepted (j+1)) := by
  simp [Fatal]

theorem writtenLoop_returns_iff (buffer : Memory UInt8) (size : ℤ) (answers : List WriteAnswer)
    (pos : ℕ) (left : ℤ) :
    (writtenLoop buffer size answers pos left).ret.isSome ↔
      (∃ a ∈ answers, Fatal a) ∨ left.toNat ≤ (answers.map accepted).sum := by
  induction answers generalizing pos left with
  | nil =>
    by_cases hleft : left ≤ 0 <;> simp [writtenLoop,hleft]
  | cons a rest ih =>
    by_cases hleft : left ≤ 0
    · have hzero : left.toNat = 0 := Int.toNat_of_nonpos hleft
      simp [writtenLoop,hleft,hzero]
    · rw [writtenLoop,if_neg hleft]
      cases a with
      | accepted j =>
        cases j with
        | zero => simp [WriteAnswer.upTo,Fatal]
        | succ j =>
          obtain ⟨k,hk⟩ : ∃ k, min (j+1) left.toNat = k+1 := ⟨min (j+1) left.toNat-1,by omega⟩
          have hrest := ih (pos+(k+1)) (left-(k+1))
          have hsum : (left-(k+1)).toNat ≤ (rest.map accepted).sum ↔
              left.toNat ≤ j+1+(rest.map accepted).sum := by omega
          rw [hsum] at hrest
          simp [WriteAnswer.upTo,hk,fatal_accepted_succ,accepted,hrest]
      | fail e =>
        cases e with
        | eintr => simpa [WriteAnswer.upTo,Fatal,accepted] using ih pos left
        | ewouldblock | other => simp [WriteAnswer.upTo,Fatal]

/-- `written` returns once a call has returned 0 or has failed for good, or all is accepted. -/
theorem written_returns_iff (buffer : Memory UInt8) (size : ℤ) (answers : List WriteAnswer) :
    (written buffer size answers).ret.isSome ↔
      (∃ a ∈ answers, Fatal a) ∨ size.toNat ≤ (answers.map accepted).sum :=
  writtenLoop_returns_iff buffer size answers 0 size

/-- For every buffer, size and results of the calls of `write`, each call resumes behind the
bytes that have been accepted, which are a prefix of the buffer. `written` returns `size`
exactly if all of the bytes have been accepted, and -1 exactly if a call has returned 0 or has
failed with something other than `EINTR`. A size that is not positive sends nothing. -/
theorem written_exact (buffer : Memory UInt8) (size : ℤ) (answers : List WriteAnswer) :
    Resumes size.toNat 0 (writtenCalls size answers) ∧
      (written buffer size answers).sent =
        (writtenCalls size answers).flatMap (WriteCall.bytes buffer) ∧
      (written buffer size answers).sent <+: buffer.load 0 size.toNat ∧
      ((written buffer size answers).ret = some size ↔
        0 ≤ size ∧ (written buffer size answers).sent = buffer.load 0 size.toNat) ∧
      ((written buffer size answers).ret = some (-1) ↔
        ∃ c ∈ writtenCalls size answers, Fatal c.got) ∧
      (size ≤ 0 → writtenCalls size answers = [] ∧ written buffer size answers = ⟨some 0,[]⟩) := by
  by_cases hpos : 0 ≤ size
  · obtain ⟨size,rfl⟩ := Int.eq_ofNat_of_zero_le hpos
    have hexact := Writing.run_exact (Nat.zero_le size) answers
    rw [← Writing.enter_eq_after] at hexact
    have hsum := hexact.off
    rw [Nat.zero_add] at hsum
    rw [written_eq_run,Int.toNat_natCast,hexact.full,hexact.failed]
    refine ⟨hexact.resumes,?_,buffer.load_le 0 hexact.within,?_,Iff.rfl,?_⟩
    · rw [writtenCalls,hexact.resumes.bytes buffer,hsum]
    · constructor
      · intro hoff
        exact ⟨hpos,congrArg (buffer.load 0) hoff⟩
      · rintro ⟨_,hsent⟩
        have hlen := congrArg List.length hsent
        rwa [Memory.load_length,Memory.load_length] at hlen
    · intro hle
      obtain rfl : size = 0 := by omega
      have henter : Writing.enter (0 : ℕ) = ⟨0,0,some 0⟩ := by decide
      rw [writtenCalls,henter,Writing.calls_returned rfl,Writing.run_returned]
      exact ⟨rfl,rfl⟩
  · have henter : Writing.enter size = ⟨0,size,some 0⟩ := by
      simp only [Writing.enter,Writing.test,sub_self]
      rw [if_neg (by omega)]
    have hcalls : writtenCalls size answers = [] := by
      rw [writtenCalls,henter,Writing.calls_returned rfl]
    have hwritten : written buffer size answers = ⟨some 0,[]⟩ := by
      rw [written_eq_run,henter,Writing.run_returned]
      rfl
    have hne : (0 : ℤ) ≠ size := by omega
    rw [hcalls,hwritten]
    refine ⟨trivial,rfl,List.nil_prefix,?_,by simp,fun _ => ⟨rfl,rfl⟩⟩
    simp [hne,hpos]

end SocketFunc
end CPrograming
