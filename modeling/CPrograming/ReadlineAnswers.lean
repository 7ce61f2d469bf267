import CPrograming.ReadlineStream

/-!
# One more answer for `readline`

A call of `readline` that waits is given the next answer. It goes on waiting, or it returns
with a piece of what it has been given, and the rest of the last answer is thrown away.
-/

namespace CPrograming
namespace Readline

open ReadStream Libc

section Feeding

variable {fd : ℤ} {r r' : Reader} {a got : ReadAnswer} {f : Fetched} {as : List ReadAnswer}

theorem again_answers (fd : ℤ) (as later : List ReadAnswer) (r : Reader) :
    again fd as { r with answers := later } = again fd as r := by
  cases as <;> rfl

theorem again_feed (h : again fd as r = some (got,r')) (a : ReadAnswer) :
    again fd (as ++ [a]) r = some (got,r'.feed a) := by
  induction as generalizing r with
  | nil => cases h
  | cons b later ih =>
    rw [List.cons_append]
    cases hb : b.upTo maxLine with
    | data bytes =>
      rw [again_data fd later r hb] at h
      rw [again_data fd (later ++ [a]) r hb]
      cases h
      rfl
    | fail e =>
      by_cases he : e = .eintr
      · subst he
        rw [again_interrupted fd later r hb] at h
        rw [again_interrupted fd (later ++ [a]) r hb]
        exact (again_answers fd (later ++ [a]) (later ++ [a])
          (r.answered fd (.fail .eintr) later)).trans (ih h)
      · rw [again_failed fd later r hb he] at h
        rw [again_failed fd (later ++ [a]) r hb he]
        cases h
        rfl

theorem again_last {r₁ : Reader} (h : again fd as r = none)
    (hlast : again fd (as ++ [a]) r₁ = some (got,r')) : r'.answers = [] := by
  induction as generalizing r r₁ with
  | nil =>
    rw [List.nil_append] at hlast
    cases ha : a.upTo maxLine with
    | data bytes =>
      rw [again_data fd [] r₁ ha] at hlast
      cases hlast
      rfl
    | fail e =>
      by_cases he : e = .eintr
      · subst he
        rw [again_interrupted fd [] r₁ ha] at hlast
        cases hlast
      · rw [again_failed fd [] r₁ ha he] at hlast
        cases hlast
        rfl
  | cons b later ih =>
    rw [List.cons_append] at hlast
    cases hb : b.upTo maxLine with
    | data bytes =>
      rw [again_data fd later r hb] at h
      cases h
    | fail e =>
      by_cases he : e = .eintr
      · subst he
        rw [again_interrupted fd later r hb] at h
        rw [again_interrupted fd (later ++ [a]) r₁ hb] at hlast
        exact ih h hlast
      · rw [again_failed fd later r hb he] at h
        cases h

theorem myread_feed (h : myread fd r = some (f,r')) (a : ReadAnswer) :
    myread fd (r.feed a) = some (f,r'.feed a) := by
  simp only [myread] at h ⊢
  have hcnt : (r.feed a).cnt = r.cnt := rfl
  rw [hcnt]
  split_ifs at h ⊢
  · obtain ⟨⟨got,r₁⟩,hagain,hgot⟩ := Option.map_eq_some_iff.mp h
    have hmore : again fd (r.feed a).answers (r.feed a) = some (got,r₁.feed a) :=
      (again_answers fd _ _ r).trans (again_feed hagain a)
    rw [hmore]
    rcases got with ⟨_ | _⟩ | _ <;> cases hgot <;> rfl
  · cases h
    rfl

theorem myread_last (h : myread fd r = none) (hlast : myread fd (r.feed a) = some (f,r')) :
    r'.answers = [] := by
  simp only [myread] at h hlast
  have hcnt : (r.feed a).cnt = r.cnt := rfl
  rw [hcnt] at hlast
  split_ifs at h hlast
  obtain ⟨⟨got,r₁⟩,hagain,hgot⟩ := Option.map_eq_some_iff.mp hlast
  have hnil := again_last (Option.map_eq_none_iff.mp h) hagain
  rcases got with ⟨_ | _⟩ | _ <;> cases hgot <;> exact hnil

theorem readlineLoop_suffix (fd : ℤ) (left i : ℕ) (r : Reader) :
    (readlineLoop fd left i r).reader.answers <:+ r.answers := by
  induction left generalizing i r with
  | zero => exact List.suffix_refl _
  | succ left ih =>
    rw [readlineLoop]
    cases hm : myread fd r with
    | none => exact List.suffix_refl _
    | some p =>
      obtain ⟨f,r'⟩ := p
      have hsuffix := myread_suffix hm
      cases f with
      | byte c =>
        by_cases hc : c = newline
        · simp only [hc,if_true]
          exact hsuffix
        · simp only [hc,if_false]
          exact (ih (i+1) r').trans hsuffix
      | eof => exact hsuffix
      | error => exact hsuffix

/-- A call that waited and is given one more answer uses it up if it returns. -/
theorem readlineLoop_last {left i : ℕ} (h : (readlineLoop fd left i r).ret = none) {k : ℤ}
    (hret : (readlineLoop fd left i (r.feed a)).ret = some k) :
    (readlineLoop fd left i (r.feed a)).reader.answers = [] := by
  induction left generalizing i r with
  | zero => cases h
  | succ left ih =>
    rw [readlineLoop] at h hret ⊢
    cases hm : myread fd r with
    | none =>
      cases hm' : myread fd (r.feed a) with
      | none =>
        rw [hm'] at hret
        cases hret
      | some p =>
        obtain ⟨f,r'⟩ := p
        have hnil := myread_last hm hm'
        cases f with
        | byte c =>
          by_cases hc : c = newline
          · simp only [hc,if_true]
            exact hnil
          · simp only [hc,if_false]
            exact List.suffix_nil.mp (hnil ▸ readlineLoop_suffix fd left (i+1) r')
        | eof => exact hnil
        | error => exact hnil
    | some p =>
      obtain ⟨f,r'⟩ := p
      rw [myread_feed hm a] at hret ⊢
      rw [hm] at h
      cases f with
      | byte c =>
        by_cases hc : c = newline
        · simp [hc] at h
        · simp only [hc,if_false] at h hret ⊢
          exact ih h hret
      | eof => cases h
      | error => cases h

theorem readlineLoop_cnt {left i : ℕ} {k : ℤ} (hret : (readlineLoop fd left i r).ret = some k)
    (hpos : 0 < k) : (readlineLoop fd left i r).reader.cnt = 0 := by
  induction left generalizing i r with
  | zero => rfl
  | succ left ih =>
    rw [readlineLoop] at hret ⊢
    cases hm : myread fd r with
    | none =>
      rw [hm] at hret
      cases hret
    | some p =>
      obtain ⟨f,r'⟩ := p
      rw [hm] at hret
      cases f with
      | byte c =>
        by_cases hc : c = newline
        · simp only [hc,if_true]
          rfl
        · simp only [hc,if_false] at hret ⊢
          exact ih hret
      | eof =>
        cases hret
        omega
      | error =>
        cases hret
        omega

end Feeding

section Parts

variable {r : Reader} {half new : List UInt8}

theorem arriving_segments {as : List ReadAnswer} (h : ∀ a ∈ as, Segment a)
    (more : List ReadAnswer) :
    arriving ((as ++ more).map (ReadAnswer.upTo maxLine)) =
        as.flatMap ReadAnswer.bytes ++ arriving (more.map (ReadAnswer.upTo maxLine)) ∧
      closing ((as ++ more).map (ReadAnswer.upTo maxLine)) =
        closing (more.map (ReadAnswer.upTo maxLine)) := by
  induction as with
  | nil => exact ⟨rfl,rfl⟩
  | cons a as ih =>
    obtain ⟨harriving,hclosing⟩ := ih fun b hb => h b (List.mem_cons_of_mem a hb)
    have hup := (h a List.mem_cons_self).upTo
    rw [List.cons_append,List.map_cons,hup]
    rcases h a List.mem_cons_self with rfl | ⟨bs,rfl,hne,-⟩
    · exact ⟨harriving,hclosing⟩
    · rw [arriving_data hne,closing_data hne,harriving,List.flatMap_cons,List.append_assoc]
      exact ⟨rfl,hclosing⟩

theorem Reader.Got.incoming (h : r.Got half) : r.incoming = half ∧ r.closing = .waiting := by
  obtain ⟨harriving,hclosing⟩ := arriving_segments h.segments []
  rw [List.append_nil] at harriving hclosing
  refine ⟨?_,hclosing⟩
  rw [Reader.incoming,Reader.rest_of_cnt h.cnt,harriving,h.bytes]
  simp [arriving]

theorem Reader.Got.ended (h : r.Got half) (fd : ℤ) (hnone : newline ∉ half)
    (hlen : half.length < maxLine) : (readline fd maxLine (r.feed (.data []))).ret = some 0 := by
  obtain ⟨harriving,hclosing⟩ := arriving_segments h.segments [.data []]
  have hincoming : (r.feed (.data [])).incoming = half := by
    have hrest : (r.feed (.data [])).rest = [] := Reader.rest_of_cnt h.cnt
    rw [Reader.incoming,hrest]
    exact harriving.trans (by simp [arriving,ReadAnswer.upTo,h.bytes])
  have heof : (r.feed (.data [])).closing = .eof := hclosing
  have hret := (readlineLoop_piece fd maxLine 0 (r.feed (.data []))).1
  rcases copyLine_cases maxLine half with ⟨-,-,hcopy⟩ | hdone
  · have hopen : ¬ Ended half := fun hended => hnone (List.mem_of_getLast? hended)
    rw [hincoming,heof,hcopy,lineEnd.eq_def,if_neg hopen,if_neg hlen.ne] at hret
    exact hret
  · have happend := copyLine_append maxLine half
    rcases hdone with hended | hfull
    · exact absurd (happend ▸ List.mem_append_left _ (List.mem_of_getLast? hended)) hnone
    · have := congrArg List.length happend
      rw [List.length_append] at this
      omega

theorem piece_ne_nil {piece : List UInt8} (h : Whole (maxLine+1) piece) : piece ≠ [] :=
  h.ne_nil (by decide)

/-- What `readline` does with one more part of the stream: it waits for more, or it returns with
a piece from the start of what it has been given. The return value is the length of the piece,
or one more if the piece is as long as the buffer. -/
theorem Reader.Got.next (h : r.Got half) (fd : ℤ) (hnone : newline ∉ half)
    (hshort : half.length < maxLine) (hne : new ≠ []) (hlen : new.length ≤ maxLine) :
    (newline ∉ half ++ new ∧ (half ++ new).length < maxLine) ∨
      ∃ piece text r', readline fd maxLine (r.feed (.data new)) =
          ⟨some (text.length : ℤ),Memory.storesFrom 0 (piece ++ [0]),r'⟩ ∧ r'.Got [] ∧
        Whole (maxLine+1) piece ∧ piece <+: half ++ new ∧ piece <+: text ∧
        text <+: piece ++ [0] := by
  have hgot := h.data hne hlen
  obtain ⟨hincoming,hclosing⟩ := hgot.incoming
  obtain ⟨hret,hstores⟩ := readlineLoop_piece fd maxLine 0 (r.feed (.data new))
  rw [hincoming,hclosing] at hret hstores
  rcases copyLine_cases maxLine (half ++ new) with ⟨hnone',hshort',-⟩ | hdone
  · exact Or.inl ⟨hnone',hshort'⟩
  · right
    have hpre : (copyLine maxLine (half ++ new)).1 <+: half ++ new :=
      ⟨_,copyLine_append maxLine (half ++ new)⟩
    have hwhole : Whole (maxLine+1) (copyLine maxLine (half ++ new)).1 :=
      ⟨hdone,copyLine_newline maxLine (half ++ new),copyLine_length maxLine (half ++ new)⟩
    generalize (copyLine maxLine (half ++ new)).1 = piece at hret hstores hdone hpre hwhole
    obtain ⟨text,htext,htext',hend⟩ : ∃ text, piece <+: text ∧ text <+: piece ++ [0] ∧
        lineEnd 0 maxLine piece .waiting = (some (text.length : ℤ),[0]) := by
      by_cases hended : Ended piece
      · refine ⟨piece,List.prefix_refl _,List.prefix_append _ _,?_⟩
        rw [lineEnd_ended hended]
        simp
      · refine ⟨piece ++ [0],List.prefix_append _ _,List.prefix_refl _,?_⟩
        rw [lineEnd_full hended (hdone.resolve_left hended)]
        simp
    simp only [hend] at hret hstores
    have hwaits : (readline fd maxLine r).ret = none := h.waits fd hnone (by exact_mod_cast hshort)
    rw [readline,Int.toNat_natCast] at hwaits
    have hpos : (0 : ℤ) < text.length := by
      have hone := List.length_pos_iff.mpr (piece_ne_nil hwhole)
      have hle := htext.length_le
      omega
    have hnil := readlineLoop_last hwaits hret
    have hcnt := readlineLoop_cnt hret hpos
    refine ⟨piece,text,(readlineLoop fd maxLine 0 (r.feed (.data new))).reader,?_,
      ⟨hcnt.le,by simp [hnil],by simp [hnil]⟩,hwhole,hpre,htext,htext'⟩
    rw [readline,Int.toNat_natCast,← hret,← hstores]

end Parts

end Readline
end CPrograming
