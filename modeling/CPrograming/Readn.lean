import CPrograming.ReadStream
import CPrograming.SocketFunc

/-!
# `readn` gives everything or nothing

The loop of `readn` over the answers of the kernel: it returns the full count once that
many bytes have arrived, and otherwise says how the stream ended before that.
-/

namespace CPrograming
namespace SocketFunc

open ReadStream

/-- The loop over the answers to its calls of `read`, with what these calls returned. With
no answer left the next call is still waiting. -/
def Readn.run (n : ℕ) (s : Readn) : List ReadAnswer → Readn × List ReadAnswer
  | [] => (s,[])
  | a :: rest =>
    if s.ret = none then
      let after := Readn.run n (s.body n a) rest
      (after.1,a.upTo s.left :: after.2)
    else (s,[])

def readn (n : ℕ) (dst : Memory UInt8) (answers : List ReadAnswer) : Readn × List ReadAnswer :=
  Readn.run n (.enter n dst) answers

def taken (reads : List ReadAnswer) : List UInt8 := reads.flatMap ReadAnswer.bytes

section Loop

variable {n : ℕ} {got bytes : List UInt8} {s : Readn} {rest : List ReadAnswer} {a : ReadAnswer}

theorem Readn.run_returned {k : ℤ} (h : s.ret = some k) (answers : List ReadAnswer) :
    Readn.run n s answers = (s,[]) := by
  cases answers with
  | nil => rfl
  | cons a rest => simp [run,h]

theorem Readn.run_cons (h : s.ret = none) :
    Readn.run n s (a :: rest) =
      ((Readn.run n (s.body n a) rest).1,a.upTo s.left :: (Readn.run n (s.body n a) rest).2) := by
  simp [run,h]

theorem Readn.body_take (n : ℕ) (s : Readn) (bytes : List UInt8) :
    s.body n (.data bytes) = s.body n (.data (bytes.take s.left)) := by
  simp only [body,ReadAnswer.upTo,List.take_take,min_self]

theorem Readn.Holds.wants (h : s.Holds n got) (hlt : got.length < n) : s.ret = none := by
  simp [h.ret,hlt]

theorem Readn.Holds.full (h : s.Holds n got) (hlen : got.length = n) :
    s.ret = some (n : ℤ) := by
  simp [h.ret,hlen]

theorem Readn.run_full (h : s.Holds n got) (hlt : got.length < n) {answers : List ReadAnswer}
    (hall : n ≤ got.length+(arriving answers).length) :
    (Readn.run n s answers).1.Holds n (got ++ (arriving answers).take (n-got.length)) ∧
      taken (Readn.run n s answers).2 = (arriving answers).take (n-got.length) := by
  induction answers generalizing s got with
  | nil =>
    simp only [arriving,List.length_nil] at hall
    omega
  | cons a rest ih =>
    rw [run_cons (h.wants hlt)]
    cases a with
    | fail e =>
      by_cases he : e = .eintr
      · subst he
        rw [h.interrupted hlt]
        obtain ⟨hholds,htaken⟩ := ih h hlt hall
        exact ⟨hholds,by simpa [taken,ReadAnswer.upTo,ReadAnswer.bytes,arriving] using htaken⟩
      · rw [arriving_failed he,List.length_nil] at hall
        omega
    | data bytes =>
      by_cases hne : bytes = []
      · subst hne
        simp only [arriving,List.length_nil] at hall
        omega
      · rw [arriving_data hne,List.length_append] at hall
        rw [arriving_data hne,body_take,h.left,ReadAnswer.upTo]
        have hpos := List.length_pos_iff.mpr hne
        by_cases hmore : got.length+bytes.length < n
        · have hcut : bytes.take (n-got.length) = bytes := List.take_of_length_le (by omega)
          have hnext := h.data hne hmore.le
          rw [hcut]
          obtain ⟨hholds,htaken⟩ := ih hnext (by simpa using hmore)
            (by rw [List.length_append]; omega)
          rw [List.length_append,← Nat.sub_sub,List.append_assoc] at hholds
          rw [List.length_append,← Nat.sub_sub] at htaken
          rw [List.take_append,hcut]
          refine ⟨hholds,?_⟩
          rw [← htaken]
          rfl
        · have hlen : (bytes.take (n-got.length)).length = n-got.length := by
            rw [List.length_take]
            omega
          have hcut : bytes.take (n-got.length) ≠ [] := List.length_pos_iff.mp (by omega)
          have hnext := h.data hcut (by omega)
          rw [run_returned (hnext.full (by rw [List.length_append]; omega))]
          rw [List.take_append_of_le_length (by omega)]
          exact ⟨hnext,by simp [taken,ReadAnswer.bytes]⟩

/-- The value that `readn` returns when the stream ends too early. -/
def early : Closing → Option ℤ
  | .waiting => none
  | .eof => some 0
  | .error => some (-1)

theorem Readn.run_short (h : s.Holds n got) {answers : List ReadAnswer}
    (hless : got.length+(arriving answers).length < n) :
    (Readn.run n s answers).1.ret = early (closing answers) ∧
      taken (Readn.run n s answers).2 = arriving answers := by
  induction answers generalizing s got with
  | nil =>
    simp only [arriving,List.length_nil] at hless
    exact ⟨h.wants (by omega),rfl⟩
  | cons a rest ih =>
    have hlt : got.length < n := by omega
    rw [run_cons (h.wants hlt)]
    cases a with
    | fail e =>
      by_cases he : e = .eintr
      · subst he
        rw [h.interrupted hlt]
        obtain ⟨hret,htaken⟩ := ih h hless
        exact ⟨hret,by simpa [taken,ReadAnswer.upTo,ReadAnswer.bytes,arriving] using htaken⟩
      · rw [body_failed n s he,run_returned rfl,arriving_failed he,closing_failed he]
        exact ⟨rfl,by simp [taken,ReadAnswer.upTo,ReadAnswer.bytes]⟩
    | data bytes =>
      by_cases hne : bytes = []
      · subst hne
        rw [body_eof,run_returned rfl]
        exact ⟨rfl,by simp [taken,ReadAnswer.upTo,ReadAnswer.bytes,arriving]⟩
      · rw [arriving_data hne,List.length_append] at hless
        rw [arriving_data hne,closing_data hne,ReadAnswer.upTo,h.left,
          List.take_of_length_le (by omega)]
        obtain ⟨hret,htaken⟩ := ih (h.data hne (by omega))
          (by rw [List.length_append]; omega)
        refine ⟨hret,?_⟩
        rw [← htaken]
        rfl

theorem Readn.body_outside (hfits : s.off+s.left ≤ n) (a : ReadAnswer) :
    (s.body n a).off+(s.body n a).left ≤ n ∧ ∀ k, n ≤ k → (s.body n a).dst k = s.dst k := by
  cases ha : a.upTo s.left with
  | fail e => cases e <;> simp [body,ha,test,hfits]
  | data bytes =>
    have hlen := ReadAnswer.upTo_length ha
    cases bytes with
    | nil => simp [body,ha,hfits]
    | cons b bytes =>
      simp only [body,ha,test]
      refine ⟨by omega,?_⟩
      intro k hk
      exact Memory.store_outside s.dst (Or.inr (by omega))

theorem Readn.run_outside (hfits : s.off+s.left ≤ n) (answers : List ReadAnswer) (k : ℕ)
    (hk : n ≤ k) : (Readn.run n s answers).1.dst k = s.dst k := by
  induction answers generalizing s with
  | nil => rfl
  | cons a rest ih =>
    cases hret : s.ret with
    | some v => rw [run_returned hret]
    | none =>
      obtain ⟨hnext,hdst⟩ := body_outside hfits a
      rw [run_cons hret,ih hnext,hdst k hk]

end Loop

section Call

variable {n : ℕ} (dst : Memory UInt8) {answers : List ReadAnswer}

theorem readn_full (hn : 0 < n) (hall : n ≤ (arriving answers).length) :
    (readn n dst answers).1.ret = some (n : ℤ) ∧
      (readn n dst answers).1.dst.load 0 n = (arriving answers).take n ∧
      taken (readn n dst answers).2 = (arriving answers).take n := by
  obtain ⟨hholds,htaken⟩ := Readn.run_full (Readn.enter_holds n dst) hn (by simpa using hall)
  have hlen : ((arriving answers).take n).length = n := by
    rw [List.length_take]
    omega
  have hdst := hholds.dst
  simp only [List.nil_append,List.length_nil,Nat.sub_zero,hlen] at hholds hdst htaken
  exact ⟨hholds.full hlen,hdst,htaken⟩

theorem readn_short (hless : (arriving answers).length < n) :
    (readn n dst answers).1.ret = early (closing answers) ∧
      taken (readn n dst answers).2 = (arriving answers).take n := by
  rw [List.take_of_length_le hless.le]
  exact Readn.run_short (Readn.enter_holds n dst) (by simpa using hless)

theorem early_values {c : Closing} {k : ℤ} (h : early c = some k) : k = 0 ∨ k = -1 := by
  cases c with
  | waiting => simp [early] at h
  | eof => exact Or.inl (Option.some.inj h).symm
  | error => exact Or.inr (Option.some.inj h).symm

theorem early_eq_zero {c : Closing} : early c = some 0 ↔ c = .eof := by
  cases c <;> simp [early]

theorem early_eq_neg {c : Closing} : early c = some (-1) ↔ c = .error := by
  cases c <;> simp [early]

end Call

/-- `readn` returns `n` exactly if `n` bytes arrive before the stream ends, with these bytes
in its buffer; it returns 0 exactly if end of file and -1 exactly if an error comes first.
It leaves what lies behind the `n` bytes alone and takes no more than `n` bytes. -/
theorem readn_all_or_nothing (n : ℕ) (hn : 0 < n) (dst : Memory UInt8)
    (answers : List ReadAnswer) :
    ((readn n dst answers).1.ret = some (n : ℤ) ↔ n ≤ (arriving answers).length) ∧
    ((readn n dst answers).1.ret = some (n : ℤ) →
      (readn n dst answers).1.dst.load 0 n = (arriving answers).take n) ∧
    ((readn n dst answers).1.ret = some 0 ↔
      (arriving answers).length < n ∧ closing answers = .eof) ∧
    ((readn n dst answers).1.ret = some (-1) ↔
      (arriving answers).length < n ∧ closing answers = .error) ∧
    (∀ k, (readn n dst answers).1.ret = some k → k = n ∨ k = 0 ∨ k = -1) ∧
    (∀ k, n ≤ k → (readn n dst answers).1.dst k = dst k) ∧
    taken (readn n dst answers).2 = (arriving answers).take n := by
  have houtside (k : ℕ) (hk : n ≤ k) : (readn n dst answers).1.dst k = dst k :=
    Readn.run_outside (s := Readn.enter n dst) (by simp [Readn.enter,Readn.test]) answers k hk
  by_cases hall : n ≤ (arriving answers).length
  · obtain ⟨hret,hload,htaken⟩ := readn_full dst hn hall
    have hno : ¬ (arriving answers).length < n := by omega
    refine ⟨by simp [hret,hall],fun _ => hload,?_,?_,?_,houtside,htaken⟩
    · simp only [hret,Option.some.injEq,hno,false_and,iff_false]
      omega
    · simp only [hret,Option.some.injEq,hno,false_and,iff_false]
      omega
    · intro k hk
      rw [hret] at hk
      exact Or.inl (Option.some.inj hk).symm
  · obtain ⟨hret,htaken⟩ := readn_short dst (by omega : (arriving answers).length < n)
    have hno : early (closing answers) ≠ some (n : ℤ) := by
      intro h
      have hvalues := early_values h
      omega
    have hless : (arriving answers).length < n := by omega
    refine ⟨by simp [hret,hall,hno],?_,?_,?_,?_,houtside,htaken⟩
    · intro h
      exact absurd (hret.symm.trans h) hno
    · rw [hret,early_eq_zero]
      simp [hless]
    · rw [hret,early_eq_neg]
      simp [hless]
    · intro k hk
      rw [hret] at hk
      exact Or.inr (early_values hk)

/-- Three bytes are wanted: they come in two pieces, the second of which has more. -/
theorem readn_all_or_nothing_pieces :
    (readn 3 (fun _ => 0) [.data [1],.fail .eintr,.data [2,3,4],.data []]).1.ret = some 3 ∧
      (readn 3 (fun _ => 0) [.data [1],.fail .eintr,.data [2,3,4],.data []]).1.dst.load 0 3 =
        [1,2,3] := by
  obtain ⟨hfull,hload,-⟩ := readn_all_or_nothing 3 (by decide) (fun _ => 0)
    [.data [1],.fail .eintr,.data [2,3,4],.data []]
  have hret := hfull.mpr (by decide)
  exact ⟨hret,hload hret⟩

/-- Two of three bytes, then end of file: nothing. -/
example : (readn 3 (fun _ => 0) [.data [1,2],.data [],.data [3]]).1.ret = some 0 := by decide

end SocketFunc
end CPrograming
