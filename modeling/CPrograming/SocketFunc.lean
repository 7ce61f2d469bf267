import CPrograming.LinearBuffer
import CPrograming.Posix

/-!
# Helpers of `socket_func.c`

The loops around `read` and `write` that the programs share. The environment gives a
list of answers, one for each call of the loop. Where other things happen between the
calls, `Readn` and `Writing` hold the variables of a loop that waits for its next answer.
-/

namespace CPrograming
namespace SocketFunc

/-- The return value, once there is one, and the bytes the kernel has taken. -/
structure Written where
  ret : Option ℤ
  sent : List UInt8
  deriving DecidableEq, Repr

/-- The loop of `written` from offset `pos` on. When the answers are used up it is
still in the loop. -/
def writtenLoop (buffer : Memory UInt8) (size : ℤ) :
    List WriteAnswer → (pos : ℕ) → (left : ℤ) → Written
  | answers, pos, left =>
    if left ≤ 0 then ⟨some (size-left),[]⟩
    else
      match answers with
      | [] => ⟨none,[]⟩
      | a :: rest =>
        match a.upTo left.toNat with
        | .accepted 0 => ⟨some (-1),[]⟩
        | .accepted (k+1) =>
          let w := writtenLoop buffer size rest (pos+(k+1)) (left-(k+1))
          ⟨w.ret,buffer.load pos (k+1) ++ w.sent⟩
        | .fail .eintr => writtenLoop buffer size rest pos left
        | .fail _ => ⟨some (-1),[]⟩

def written (buffer : Memory UInt8) (size : ℤ) (answers : List WriteAnswer) : Written :=
  writtenLoop buffer size answers 0 size

/-- What was sent is the buffer from `pos` on, and a loop that has left its condition
has sent all of it. -/
structure SentFrom (buffer : Memory UInt8) (pos : ℕ) (size left : ℤ) (w : Written) : Prop where
  sent : w.sent = buffer.load pos w.sent.length
  length : w.sent.length ≤ left.toNat
  ret : ∀ r, w.ret = some r → r = -1 ∨ r = size-min left 0 ∧ w.sent.length = left.toNat

theorem SentFrom.nothing (buffer : Memory UInt8) (pos : ℕ) (size left : ℤ) {ret : Option ℤ}
    (h : ∀ r, ret = some r → r = -1) : SentFrom buffer pos size left ⟨ret,[]⟩ :=
  ⟨rfl,Nat.zero_le _,fun r hr => Or.inl (h r hr)⟩

theorem SentFrom.finished (buffer : Memory UInt8) (pos : ℕ) (size : ℤ) {left : ℤ}
    (h : left ≤ 0) : SentFrom buffer pos size left ⟨some (size-left),[]⟩ := by
  refine ⟨rfl,Nat.zero_le _,?_⟩
  rintro r ⟨rfl⟩
  right
  simp only [List.length_nil]
  omega

theorem SentFrom.cons {buffer : Memory UInt8} {pos k : ℕ} {size left : ℤ} {w : Written}
    (hk : k ≤ left.toNat) (h : SentFrom buffer (pos+k) size (left-k) w) :
    SentFrom buffer pos size left ⟨w.ret,buffer.load pos k ++ w.sent⟩ := by
  have hlen : (buffer.load pos k ++ w.sent).length = k+w.sent.length := by simp
  have hle := h.length
  refine ⟨?_,?_,?_⟩
  · rw [hlen,Memory.load_add,← h.sent]
  · rw [hlen]
    omega
  · intro r hr
    rcases h.ret r hr with hneg | ⟨hret,hall⟩
    · exact Or.inl hneg
    · right
      rw [hlen]
      omega

theorem writtenLoop_sentFrom (buffer : Memory UInt8) (size : ℤ) (answers : List WriteAnswer)
    (pos : ℕ) (left : ℤ) :
    SentFrom buffer pos size left (writtenLoop buffer size answers pos left) := by
  induction answers generalizing pos left with
  | nil =>
    simp only [writtenLoop]
    split_ifs with hleft
    · exact .finished buffer pos size hleft
    · exact .nothing buffer pos size left (by simp)
  | cons a rest ih =>
    unfold writtenLoop
    split_ifs with hleft
    · exact .finished buffer pos size hleft
    · cases ha : a.upTo left.toNat with
      | accepted k =>
        have hk := WriteAnswer.upTo_le ha
        simp only [ha]
        cases k with
        | zero => exact .nothing buffer pos size left (by simp)
        | succ k =>
          have hrest := ih (pos+(k+1)) (left-(k+1 : ℕ))
          simpa only [Nat.cast_add,Nat.cast_one] using hrest.cons hk
      | fail e =>
        simp only [ha]
        cases e with
        | eintr => exact ih pos left
        | ewouldblock | other => exact .nothing buffer pos size left (by simp)

/-- Whatever the answers, the bytes taken by the kernel are the first ones of the
buffer, and a return value other than -1 means that all of them were taken. -/
theorem written_sentFrom (buffer : Memory UInt8) (size : ℤ) (answers : List WriteAnswer) :
    SentFrom buffer 0 size size (written buffer size answers) :=
  writtenLoop_sentFrom buffer size answers 0 size

/-- The answers let the loop send `len` bytes: until then every call takes something or
is interrupted. -/
def takesAll : ℕ → List WriteAnswer → Bool
  | 0, _ => true
  | _+1, [] => false
  | len+1, .accepted k :: rest => k ≠ 0 && takesAll (len+1-k) rest
  | len+1, .fail .eintr :: rest => takesAll (len+1) rest
  | _+1, .fail _ :: _ => false

theorem writtenLoop_all_iff (buffer : Memory UInt8) (size : ℤ) (answers : List WriteAnswer)
    (pos : ℕ) (left : ℤ) :
    (writtenLoop buffer size answers pos left).sent.length = left.toNat ↔
      takesAll left.toNat answers = true := by
  induction answers generalizing pos left with
  | nil =>
    by_cases hleft : left ≤ 0
    · simp [writtenLoop,hleft,Int.toNat_of_nonpos hleft,takesAll]
    · obtain ⟨k,hk⟩ : ∃ k, left.toNat = k+1 := ⟨left.toNat-1,by omega⟩
      simp [writtenLoop,hleft,hk,takesAll]
  | cons a rest ih =>
    by_cases hleft : left ≤ 0
    · simp [writtenLoop,hleft,Int.toNat_of_nonpos hleft,takesAll]
    · obtain ⟨len,hlen⟩ : ∃ len, left.toNat = len+1 := ⟨left.toNat-1,by omega⟩
      rw [writtenLoop,if_neg hleft]
      cases a with
      | accepted j =>
        cases j with
        | zero => simp [WriteAnswer.upTo,hlen,takesAll]
        | succ j =>
          obtain ⟨k,hk⟩ : ∃ k, min (j+1) (len+1) = k+1 := ⟨min (j+1) (len+1)-1,by omega⟩
          have hrest := ih (pos+(k+1)) (left-(k+1))
          have hleft : (left-(k+1)).toNat = len+1-(j+1) := by omega
          rw [hleft] at hrest
          simp only [WriteAnswer.upTo,hlen,hk,takesAll,List.length_append,Memory.load_length]
          simp only [ne_eq,Nat.succ_ne_zero,not_false_eq_true,decide_true,Bool.true_and]
          rw [← hrest]
          omega
      | fail e =>
        cases e with
        | eintr => simpa [WriteAnswer.upTo,hlen,takesAll] using ih pos left
        | ewouldblock | other => simp [WriteAnswer.upTo,hlen,takesAll]

/-- All of the buffer is sent exactly if the answers take all of it. -/
theorem written_all_iff (buffer : Memory UInt8) (len : ℕ) (answers : List WriteAnswer) :
    (written buffer len answers).sent = buffer.load 0 len ↔ takesAll len answers = true := by
  have hall := writtenLoop_all_iff buffer len answers 0 len
  rw [Int.toNat_natCast] at hall
  rw [← hall]
  constructor
  · intro h
    have hlen := congrArg List.length h
    rwa [Memory.load_length] at hlen
  · intro h
    have hsent := (written_sentFrom buffer len answers).sent
    rw [hsent]
    exact congrArg (buffer.load 0) h

example : written (fun k => k.toUInt8) 4 [.accepted 1,.fail .eintr,.accepted 9] =
    ⟨some 4,[0,1,2,3]⟩ := by decide

/-- The variables of `written` in its loop, and its return value once there is one. -/
structure Writing where
  off : ℕ
  left : ℤ
  ret : Option ℤ
  deriving DecidableEq, Repr

/-- The test of the loop, with the `return` behind it. -/
def Writing.test (size : ℤ) (s : Writing) : Writing :=
  { s with ret := if 0 < s.left then none else some (size-s.left) }

def Writing.enter (size : ℤ) : Writing := Writing.test size ⟨0,size,none⟩

def Writing.body (size : ℤ) (s : Writing) (a : WriteAnswer) : Writing :=
  match a.upTo s.left.toNat with
  | .accepted 0 => { s with ret := some (-1) }
  | .accepted (k+1) => Writing.test size ⟨s.off+(k+1),s.left-(k+1),none⟩
  | .fail .eintr => s.test size
  | .fail _ => { s with ret := some (-1) }

def Writing.run (size : ℤ) : List WriteAnswer → Writing → Writing
  | [], s => s
  | a :: rest, s => if s.ret = none then run size rest (s.body size a) else s

@[simp] theorem Writing.run_returned (size : ℤ) (answers : List WriteAnswer) (off : ℕ)
    (left r : ℤ) : Writing.run size answers ⟨off,left,some r⟩ = ⟨off,left,some r⟩ := by
  cases answers with
  | nil => rfl
  | cons a rest => simp [run]

theorem writtenLoop_eq_run (buffer : Memory UInt8) (size : ℤ) (answers : List WriteAnswer)
    (pos : ℕ) (left : ℤ) :
    let w := Writing.run size answers (Writing.test size ⟨pos,left,none⟩)
    pos ≤ w.off ∧
      writtenLoop buffer size answers pos left = ⟨w.ret,buffer.load pos (w.off-pos)⟩ := by
  induction answers generalizing pos left with
  | nil =>
    by_cases hleft : left ≤ 0
    · simp [Writing.run,Writing.test,writtenLoop,hleft,not_lt.mpr hleft,Memory.load]
    · simp [Writing.run,Writing.test,writtenLoop,hleft,not_le.mp hleft,Memory.load]
  | cons a rest ih =>
    by_cases hleft : left ≤ 0
    · simp [Writing.test,writtenLoop,hleft,not_lt.mpr hleft,Memory.load]
    · have htest : Writing.test size ⟨pos,left,none⟩ = ⟨pos,left,none⟩ := by
        simp [Writing.test,not_le.mp hleft]
      rw [htest,Writing.run,if_pos rfl,writtenLoop,if_neg hleft,Writing.body]
      cases ha : a.upTo left.toNat with
      | accepted k =>
        cases k with
        | zero => simp [Memory.load]
        | succ k =>
          obtain ⟨hpos,hloop⟩ := ih (pos+(k+1)) (left-(k+1))
          simp only [hloop]
          refine ⟨by omega,?_⟩
          rw [← Memory.load_add]
          congr 2
          omega
      | fail e =>
        cases e with
        | eintr =>
          simp only [htest]
          have hloop := ih pos left
          rwa [htest] at hloop
        | ewouldblock | other => simp [Memory.load]

/-- The loop seen step by step is the function. -/
theorem written_eq_run (buffer : Memory UInt8) (size : ℤ) (answers : List WriteAnswer) :
    written buffer size answers =
      ⟨(Writing.run size answers (Writing.enter size)).ret,
        buffer.load 0 (Writing.run size answers (Writing.enter size)).off⟩ :=
  (writtenLoop_eq_run buffer size answers 0 size).2

/-- `written` when `k` of its `size` bytes are taken. -/
def Writing.after (size k : ℕ) : Writing :=
  ⟨k,size-k,if k < size then none else some (size : ℤ)⟩

theorem Writing.test_eq_after {size k : ℕ} {left : ℤ} (hleft : left = size-k) (h : k ≤ size) :
    Writing.test size ⟨k,left,none⟩ = Writing.after size k := by
  subst left
  by_cases hlt : k < size
  · have hpos : 0 < (size : ℤ)-k := by omega
    simp [test,after,hlt]
  · obtain rfl : k = size := by omega
    simp [test,after]

theorem Writing.enter_eq_after (size : ℕ) : Writing.enter size = Writing.after size 0 :=
  test_eq_after (by simp) (Nat.zero_le size)

theorem Writing.body_accepted {size k j : ℕ} (hj : 0 < j) (h : k+j ≤ size) :
    (Writing.after size k).body size (.accepted j) = Writing.after size (k+j) := by
  obtain ⟨j,rfl⟩ : ∃ i, j = i+1 := ⟨j-1,by omega⟩
  have hup : (WriteAnswer.accepted (j+1)).upTo (Writing.after size k).left.toNat =
      .accepted (j+1) := by
    simp only [WriteAnswer.upTo,after]
    congr 1
    omega
  rw [body,hup]
  exact test_eq_after (by simp only [after]; push_cast; omega) h

theorem Writing.body_interrupted {size k : ℕ} (h : k < size) :
    (Writing.after size k).body size (.fail .eintr) = Writing.after size k := by
  have hpos : 0 < (size : ℤ)-k := by omega
  simp [body,after,WriteAnswer.upTo,test,h]

theorem Writing.body_failed {size k : ℕ} {e : Errno} (he : e ≠ .eintr) :
    (Writing.after size k).body size (.fail e) = ⟨k,size-k,some (-1)⟩ := by
  cases e <;> simp [body,after,WriteAnswer.upTo] at he ⊢

/-- The variables of `readn` in its loop, and its return value once there is one. -/
structure Readn where
  off : ℕ
  left : ℕ
  dst : Memory UInt8
  ret : Option ℤ

def Readn.test (n : ℕ) (s : Readn) : Readn :=
  { s with ret := if 0 < s.left then none else some (n-s.left) }

def Readn.enter (n : ℕ) (dst : Memory UInt8) : Readn := Readn.test n ⟨0,n,dst,none⟩

def Readn.body (n : ℕ) (s : Readn) (a : ReadAnswer) : Readn :=
  match a.upTo s.left with
  | .fail .eintr => s.test n
  | .fail _ => { s with ret := some (-1) }
  | .data [] => { s with ret := some 0 }
  | .data bytes =>
    Readn.test n ⟨s.off+bytes.length,s.left-bytes.length,s.dst.store s.off bytes,none⟩

theorem Readn.body_failed_iff {n : ℕ} {s : Readn} {a : ReadAnswer} :
    (s.body n a).ret = some (-1) ↔ ∃ errno, errno ≠ .eintr ∧ a = .fail errno := by
  have htest (r : Readn) : (r.test n).ret ≠ some (-1) := by
    simp only [test]
    split_ifs
    · simp
    · simp only [ne_eq,Option.some.injEq]
      omega
  cases a with
  | data bytes =>
    simp only [body,ReadAnswer.upTo]
    cases bytes.take s.left <;> simp [htest]
  | fail errno => cases errno <;> simp [body,ReadAnswer.upTo,htest]

/-- `readn` has put `got` into its buffer and wants the rest of `n` bytes. -/
structure Readn.Holds (n : ℕ) (got : List UInt8) (s : Readn) : Prop where
  off : s.off = got.length
  left : s.left = n-got.length
  fits : got.length ≤ n
  dst : s.dst.load 0 got.length = got
  ret : s.ret = if got.length < n then none else some (n : ℤ)

theorem Readn.enter_holds (n : ℕ) (dst : Memory UInt8) : (Readn.enter n dst).Holds n [] := by
  refine ⟨rfl,rfl,Nat.zero_le n,rfl,?_⟩
  by_cases hn : 0 < n <;> simp [enter,test,hn]
  omega

theorem Readn.Holds.data {n : ℕ} {got bytes : List UInt8} {s : Readn} (h : s.Holds n got)
    (hne : bytes ≠ []) (hlen : got.length+bytes.length ≤ n) :
    (s.body n (.data bytes)).Holds n (got ++ bytes) := by
  have hup : (ReadAnswer.data bytes).upTo s.left = .data bytes := by
    rw [h.left,ReadAnswer.upTo,List.take_of_length_le (by omega)]
  have hbody : s.body n (.data bytes) =
      Readn.test n ⟨s.off+bytes.length,s.left-bytes.length,s.dst.store s.off bytes,none⟩ := by
    rw [body,hup]
    cases bytes with
    | nil => exact absurd rfl hne
    | cons b bytes => rfl
  rw [hbody]
  refine ⟨?_,?_,?_,?_,?_⟩
  · simp [test,h.off]
  · simp only [test,h.left,List.length_append]
    omega
  · simpa using hlen
  · simp only [test,h.off,List.length_append,Memory.load_add,Nat.zero_add]
    rw [Memory.load_store_before _ _ _ _ _ (by omega),h.dst,Memory.load_store]
  · simp only [test,h.left,List.length_append]
    split_ifs <;> first | rfl | omega | skip
    congr 1
    omega

theorem Readn.body_eof (n : ℕ) (s : Readn) :
    s.body n (.data []) = { s with ret := some 0 } := by
  simp [body,ReadAnswer.upTo]

theorem Readn.body_failed (n : ℕ) (s : Readn) {e : Errno} (he : e ≠ .eintr) :
    s.body n (.fail e) = { s with ret := some (-1) } := by
  cases e <;> simp [body,ReadAnswer.upTo] at he ⊢

theorem Readn.Holds.interrupted {n : ℕ} {got : List UInt8} {s : Readn} (h : s.Holds n got)
    (hlt : got.length < n) : s.body n (.fail .eintr) = s := by
  have hret : s.ret = none := by simp [h.ret,hlt]
  have hleft : 0 < s.left := by
    rw [h.left]
    omega
  simp [body,ReadAnswer.upTo,test,hleft,← hret]

end SocketFunc
end CPrograming
