import CPrograming.ThreadReadline

/-!
# Successive calls of `thread_readline` on one `Rline`

Each call delivers the next piece of the stream, and what was read beyond it waits in the
`Rline`. That holds for every stream and any number of calls exactly if no limit is
beyond the range of the loop variable.
-/

namespace CPrograming
namespace ThreadReadline

open Readline ReadStream Libc

/-- Calls with these limits, one after the other, into one buffer: the return value of each
and as many bytes of the buffer as it says. -/
def threadReadlines (fd : ℤ) : (maxlens : List ℕ) → (dst : Memory UInt8) → Reader →
    List (ℤ × List UInt8)
  | [], _, _ => []
  | m :: ms, dst, r =>
    let call := threadReadlineOn fd m r
    let dst := dst.storeAll call.stores
    match call.outcome with
    | .returned k => (k,dst.load 0 k.toNat) :: threadReadlines fd ms dst call.reader
    | _ => []

structure Delivered (maxlen : ℕ) (stream : List UInt8) (k : ℕ) (call : Call) : Prop where
  short : k ≤ maxlen-1
  there : k ≤ stream.length
  stores : call.stores = Memory.storesFrom 0 (stream.take k ++ [0])
  first : newline ∉ (stream.take k).dropLast
  stop : Ended (stream.take k) ∨ k = maxlen-1
  kept : call.reader.incoming = stream.drop k
  within : call.reader.Within

/-- What is expected of a call when `stream` has not been delivered yet. -/
structure Lawful (maxlen : ℕ) (stream : List UInt8) (r : Reader) (call : Call) : Prop where
  defined : call.outcome ≠ .undefined
  returns : newline ∈ r.incoming.take (maxlen-1) ∨ 1 < maxlen ∧ maxlen-1 ≤ r.incoming.length →
    ∃ k, 0 < k ∧ call.outcome = .returned k
  piece : ∀ k, call.outcome = .returned k → 0 < k → Delivered maxlen stream k.toNat call

def Delivers (fd : ℤ) : (maxlens : List ℕ) → (stream : List UInt8) → Reader → Prop
  | [], _, _ => True
  | m :: ms, stream, r =>
    Lawful m stream r (threadReadlineOn fd m r) ∧
      ∀ k, (threadReadlineOn fd m r).outcome = .returned k →
        Delivers fd ms (stream.drop k.toNat) (threadReadlineOn fd m r).reader

/-- Pieces of the stream and interrupts, and behind them only ends of file. -/
structure Steady (answers : List ReadAnswer) : Prop where
  pieces : ∀ a ∈ answers, Segment a ∨ a = .data []
  ended : answers.Pairwise fun a b => a = .data [] → b = .data []

section Answers

variable {fd : ℤ} {r r' : Reader} {answers later : List ReadAnswer}

theorem Steady.suffix (h : Steady answers) (hs : later <:+ answers) : Steady later :=
  ⟨fun a ha => h.pieces a (hs.subset ha),h.ended.sublist hs.sublist⟩

theorem steady_append {segments : List ReadAnswer} (h : ∀ a ∈ segments, Segment a) (n : ℕ) :
    Steady (segments ++ List.replicate n (.data [])) := by
  refine ⟨?_,List.pairwise_append.mpr ⟨?_,?_,?_⟩⟩
  · intro a ha
    rcases List.mem_append.mp ha with ha | ha
    · exact Or.inl (h a ha)
    · exact Or.inr (List.eq_of_mem_replicate ha)
  · apply List.pairwise_of_forall_mem_list
    rintro a ha b - rfl
    rcases h _ ha with he | ⟨bs,he,hne,-⟩
    · cases he
    · cases he
      exact absurd rfl hne
  · apply List.pairwise_of_forall_mem_list
    intro a _ b hb _
    exact List.eq_of_mem_replicate hb
  · intro a _ b hb _
    exact List.eq_of_mem_replicate hb

theorem arriving_segments {segments : List ReadAnswer} (h : ∀ a ∈ segments, Segment a) (n : ℕ) :
    arriving ((segments ++ List.replicate n (ReadAnswer.data [])).map (ReadAnswer.upTo maxLine)) =
      segments.flatMap ReadAnswer.bytes := by
  induction segments with
  | nil =>
    cases n with
    | zero => rfl
    | succ n => simp [List.replicate_succ,ReadAnswer.upTo,arriving]
  | cons a segments ih =>
    have hrest := ih fun b hb => h b (List.mem_cons_of_mem a hb)
    have ha := h a List.mem_cons_self
    rw [List.cons_append,List.map_cons,Segment.upTo ha,List.flatMap_cons]
    rcases ha with rfl | ⟨bs,rfl,hne,-⟩
    · rw [arriving,hrest]
      rfl
    · rw [arriving_data hne,hrest]
      rfl

theorem incoming_segments {segments : List ReadAnswer} {n : ℕ} (hcnt : r.cnt ≤ 0)
    (h : ∀ a ∈ segments, Segment a)
    (hanswers : r.answers = segments ++ List.replicate n (.data [])) :
    r.incoming = segments.flatMap ReadAnswer.bytes := by
  rw [Reader.incoming,Reader.rest_of_cnt hcnt,List.nil_append,hanswers,arriving_segments h]

theorem threadReadlineLoop_suffix (left cnt : ℕ) (r : Reader) :
    (threadReadlineLoop fd left cnt r).reader.answers <:+ r.answers := by
  induction left generalizing cnt r with
  | zero => exact List.suffix_refl _
  | succ left ih =>
    rw [threadReadlineLoop,threadReadOne]
    cases hread : myread fd r with
    | none => exact List.suffix_refl _
    | some fetched =>
      obtain ⟨f,r'⟩ := fetched
      have hsuffix := myread_suffix hread
      cases f with
      | eof | error => exact hsuffix
      | byte c =>
        dsimp only
        split_ifs
        · exact hsuffix
        · exact hsuffix
        · exact (ih (cnt+1) r').trans hsuffix

theorem Steady.closing (h : Steady r.answers) : r.closing ≠ .error := by
  rw [Reader.closing]
  generalize r.answers = answers at h
  induction answers with
  | nil => simp [ReadStream.closing]
  | cons a later ih =>
    have hrest := ih (h.suffix (List.suffix_cons a later))
    rw [List.map_cons]
    rcases h.pieces a List.mem_cons_self with hseg | rfl
    · rw [Segment.upTo hseg]
      rcases hseg with rfl | ⟨bs,rfl,hne,-⟩
      · exact hrest
      · rwa [closing_data hne]
    · simp [ReadAnswer.upTo,ReadStream.closing]

theorem again_quiet (h : Steady answers) (hagain : again fd answers r = some (.data [],r')) :
    r'.cnt = 0 ∧ ∀ a ∈ r'.answers, a = .data [] := by
  induction answers generalizing r with
  | nil => simp [again] at hagain
  | cons a later ih =>
    have hlater := h.suffix (List.suffix_cons a later)
    rcases h.pieces a List.mem_cons_self with hseg | rfl
    · have ha := Segment.upTo hseg
      rcases hseg with rfl | ⟨bs,rfl,hne,-⟩
      · rw [again_interrupted fd later r ha] at hagain
        exact ih hlater hagain
      · rw [again_data fd later r ha] at hagain
        cases hagain
        exact absurd rfl hne
    · have hnil : (ReadAnswer.data []).upTo maxLine = .data [] := by simp [ReadAnswer.upTo]
      rw [again_data fd later r hnil] at hagain
      cases hagain
      refine ⟨rfl,?_⟩
      intro b hb
      exact (List.pairwise_cons.mp h.ended).1 b hb rfl

theorem myread_quiet (h : Steady r.answers) (hread : myread fd r = some (.eof,r')) :
    r'.incoming = [] := by
  simp only [myread] at hread
  split_ifs at hread with hcnt
  · obtain ⟨⟨got,r₁⟩,hagain,hgot⟩ := Option.map_eq_some_iff.mp hread
    obtain ⟨rfl,rfl⟩ : got = .data [] ∧ r₁ = r' := by
      rcases got with ⟨_ | _⟩ | _ <;> cases hgot
      exact ⟨rfl,rfl⟩
    obtain ⟨hcnt',hquiet⟩ := again_quiet h hagain
    rw [Reader.incoming,Reader.rest_of_cnt hcnt'.le,List.nil_append]
    cases hanswers : r₁.answers with
    | nil => rfl
    | cons a later =>
      have ha := hquiet a (by simp [hanswers])
      simp [ha,ReadAnswer.upTo,arriving]
  · cases hread

theorem threadReadlineLoop_quiet {left cnt : ℕ} {k : ℤ} (h : Steady r.answers)
    (hopen : ¬ Done left (copyLine left r.incoming).1)
    (hret : (threadReadlineLoop fd left cnt r).outcome = .returned k) :
    (threadReadlineLoop fd left cnt r).reader.incoming = [] := by
  induction left generalizing cnt r with
  | zero => exact absurd (Or.inr rfl) hopen
  | succ left ih =>
    rw [threadReadlineLoop,threadReadOne] at hret ⊢
    cases hin : r.incoming with
    | nil =>
      have hend := myread_end fd hin
      cases hclosing : r.closing with
      | waiting =>
        rw [hclosing] at hend
        simp [hend] at hret
      | eof =>
        rw [hclosing] at hend
        obtain ⟨r',hread,-⟩ := hend
        rw [hread]
        exact myread_quiet h hread
      | error => exact absurd hclosing h.closing
    | cons c tail =>
      obtain ⟨r',hread,rfl,-,-⟩ := myread_next fd hin
      rw [hin,copyLine] at hopen
      by_cases hc : c = newline
      · simp [hc,Done] at hopen
      · rw [if_neg hc,done_cons hc] at hopen
        simp only [hread,hc,if_false] at hret ⊢
        split_ifs at hret ⊢
        exact ih (h.suffix (myread_suffix hread)) hopen hret

end Answers

section Calls

variable (fd : ℤ) {m : ℕ} {stream : List UInt8} {r : Reader}

/-- `r` is what a sequence of calls has left of the stream. At the end of file an unfinished
piece is dropped; then nothing is left. -/
structure Follows (stream : List UInt8) (r : Reader) : Prop where
  steady : Steady r.answers
  sound : r.Sound
  incoming : r.incoming = stream ∨ r.incoming = []

structure Continues (m : ℕ) (stream : List UInt8) (r : Reader) (call : Call) : Prop where
  lawful : Lawful m stream r call
  next : ∀ k, call.outcome = .returned k → Follows (stream.drop k.toNat) call.reader

theorem threadReadlineOn_one (hm : m ≤ 1) :
    threadReadlineOn fd m r = ⟨.returned 0,[(0,0)],r⟩ := by
  have hleft : m-1 = 0 := by omega
  rw [threadReadlineOn,hleft]
  rfl

theorem threadReadlineOn_takes (hm : m ≤ intMax) :
    Takes (m-1) 0 r (copyLine (m-1) r.incoming).1 (copyLine (m-1) r.incoming).2
      (threadReadlineOn fd m r) := by
  apply threadReadlineLoop_takes
  have hpos : 0 < intMax := by decide
  omega

theorem Takes.delivered {left : ℕ} {piece tail : List UInt8} {call : Call}
    (h : Takes left 0 r piece tail call) (hcut : copyLine left r.incoming = (piece,tail))
    (hsound : r.Sound) (hdone : Done left piece) (hne : piece ≠ []) :
    call.outcome = .returned piece.length ∧
      Delivered (left+1) r.incoming piece.length call := by
  have hpiece : piece = (copyLine left r.incoming).1 := by rw [hcut]
  have happend : piece ++ tail = r.incoming := by
    have happend := copyLine_append left r.incoming
    rwa [hcut] at happend
  have htake : r.incoming.take piece.length = piece := by rw [← happend,List.take_left]
  have hdrop : r.incoming.drop piece.length = tail := by rw [← happend,List.drop_left]
  have hend := pieceEnd_done 0 hdone r.closing
  have houtcome := h.outcome
  have hstores := h.stores
  rw [hend] at houtcome hstores
  refine ⟨by simpa using houtcome,?_,?_,?_,?_,?_,?_,?_⟩
  · rw [hpiece]
    exact copyLine_length left r.incoming
  · rw [← happend,List.length_append]
    omega
  · rw [htake,hstores]
  · rw [htake,hpiece]
    exact copyLine_newline left r.incoming
  · rw [htake]
    exact hdone
  · rw [h.rest hdone,hdrop]
  · exact h.within hsound (fun hnil => absurd hnil hne) hdone

theorem Follows.continues_one (h : Follows stream r) (hm : m ≤ 1) :
    Continues m stream r (threadReadlineOn fd m r) := by
  have hleft : m-1 = 0 := by omega
  rw [threadReadlineOn_one fd hm]
  refine ⟨⟨by simp,?_,?_⟩,?_⟩
  · rintro (hmem | ⟨hlt,-⟩)
    · simp [hleft] at hmem
    · omega
  · intro k hk hpos
    cases hk
    omega
  · intro k hk
    cases hk
    exact h

theorem Follows.continues_done (h : Follows stream r) (hm : m ≤ intMax) (hlt : 1 < m)
    (hdone : Done (m-1) (copyLine (m-1) r.incoming).1) :
    Continues m stream r (threadReadlineOn fd m r) := by
  have hne : (copyLine (m-1) r.incoming).1 ≠ [] := by
    intro hnil
    rw [hnil] at hdone
    rcases hdone with hended | hlen
    · exact not_ended_nil hended
    · rw [List.length_nil] at hlen
      omega
  have hstream : r.incoming = stream := by
    rcases h.incoming with heq | hnil
    · exact heq
    · rw [hnil] at hne
      have hempty : copyLine (m-1) [] = ([],[]) := by cases m-1 <;> rfl
      simp [hempty] at hne
  obtain ⟨houtcome,hdelivered⟩ :=
    (threadReadlineOn_takes fd hm).delivered rfl h.sound hdone hne
  have hpos : 0 < (copyLine (m-1) r.incoming).1.length := List.length_pos_iff.mpr hne
  rw [Nat.sub_add_cancel hlt.le,hstream] at hdelivered
  rw [hstream] at houtcome hpos
  refine ⟨⟨by simp [houtcome],fun _ => ⟨_,by exact_mod_cast hpos,houtcome⟩,?_⟩,?_⟩
  · intro k hk _
    rw [houtcome] at hk
    cases hk
    exact hdelivered
  · intro k hk
    rw [houtcome] at hk
    cases hk
    exact ⟨h.steady.suffix (threadReadlineLoop_suffix _ _ _),hdelivered.within.sound,
      Or.inl hdelivered.kept⟩

theorem Follows.continues_open (h : Follows stream r) (hm : m ≤ intMax)
    (hopen : ¬ Done (m-1) (copyLine (m-1) r.incoming).1) :
    Continues m stream r (threadReadlineOn fd m r) := by
  obtain ⟨hnone,hlen,-⟩ := (copyLine_cases (m-1) r.incoming).resolve_right hopen
  have hzero (k : ℤ) (hk : (threadReadlineOn fd m r).outcome = .returned k) : k = 0 := by
    rw [(threadReadlineOn_takes fd hm).outcome,pieceEnd.eq_def,if_neg hopen] at hk
    cases hclosing : r.closing with
    | waiting => simp [hclosing] at hk
    | eof => simpa [hclosing,eq_comm] using hk
    | error => exact absurd hclosing h.steady.closing
  refine ⟨⟨?_,?_,?_⟩,?_⟩
  · rw [(threadReadlineOn_takes fd hm).outcome,pieceEnd.eq_def,if_neg hopen]
    cases r.closing <;> simp
  · rintro (hmem | ⟨-,hle⟩)
    · exact absurd (List.mem_of_mem_take hmem) hnone
    · omega
  · intro k hk hpos
    have hk := hzero k hk
    omega
  · intro k hk
    have hquiet := threadReadlineLoop_quiet h.steady hopen hk
    rw [hzero k hk]
    refine ⟨h.steady.suffix (threadReadlineLoop_suffix _ _ _),?_,Or.inr hquiet⟩
    intro hpos
    have hcnt : (threadReadlineOn fd m r).reader.cnt ≤ 0 := Reader.cnt_of_incoming hquiet
    omega

theorem Follows.continues (h : Follows stream r) (hm : m ≤ intMax) :
    Continues m stream r (threadReadlineOn fd m r) := by
  by_cases hlt : 1 < m
  · by_cases hdone : Done (m-1) (copyLine (m-1) r.incoming).1
    · exact h.continues_done fd hm hlt hdone
    · exact h.continues_open fd hm hdone
  · exact h.continues_one fd (by omega)

theorem Follows.delivers {ms : List ℕ} (hms : ∀ m ∈ ms, m ≤ intMax) (h : Follows stream r) :
    Delivers fd ms stream r := by
  induction ms generalizing stream r with
  | nil => trivial
  | cons m ms ih =>
    obtain ⟨hlawful,hnext⟩ := h.continues fd (hms m List.mem_cons_self)
    refine ⟨hlawful,?_⟩
    intro k hk
    exact ih (fun l hl => hms l (List.mem_cons_of_mem m hl)) (hnext k hk)

/-- What the calls deliver is the beginning of the stream. -/
theorem Delivers.delivered {fd : ℤ} {ms : List ℕ} (h : Delivers fd ms stream r)
    (dst : Memory UInt8) :
    ((threadReadlines fd ms dst r).map Prod.snd).flatten <+: stream := by
  induction ms generalizing stream r dst with
  | nil => exact List.nil_prefix
  | cons m ms ih =>
    obtain ⟨hlawful,hnext⟩ := h
    rw [threadReadlines]
    cases hk : (threadReadlineOn fd m r).outcome with
    | waiting | undefined => exact List.nil_prefix
    | returned k =>
      have hrest := ih (hnext k hk) (dst.storeAll (threadReadlineOn fd m r).stores)
      rw [List.map_cons,List.flatten_cons]
      by_cases hpos : 0 < k
      · have hpiece := hlawful.piece k hk hpos
        have hlen : (stream.take k.toNat).length = k.toNat := by
          rw [List.length_take]
          exact Nat.min_eq_left hpiece.there
        have hload : (dst.storeAll (threadReadlineOn fd m r).stores).load 0 k.toNat =
            stream.take k.toNat := by
          have hprefix := Memory.load_storesFrom dst 0 (stream.take k.toNat) [0]
          rwa [hlen,← hpiece.stores] at hprefix
        rw [hload]
        nth_rewrite 2 [← List.take_append_drop k.toNat stream]
        exact List.prefix_append_right_inj _ |>.mpr hrest
      · have hzero : k.toNat = 0 := by omega
        simpa [hzero,Memory.load] using hrest

end Calls

section Overflow

variable {fd : ℤ} {r : Reader}

/-- A piece of `INT_MAX` bytes takes the loop variable beyond its range. -/
theorem threadReadlineLoop_overflow {left cnt : ℕ} (hleft : intMax ≤ cnt+left)
    (hcnt : cnt < intMax) (hlen : intMax ≤ cnt+r.incoming.length)
    (hnone : newline ∉ r.incoming) :
    (threadReadlineLoop fd left cnt r).outcome = .undefined := by
  induction left generalizing cnt r with
  | zero => omega
  | succ left ih =>
    rw [threadReadlineLoop,threadReadOne]
    cases hin : r.incoming with
    | nil =>
      rw [hin,List.length_nil] at hlen
      omega
    | cons c tail =>
      obtain ⟨r',hread,rfl,-,-⟩ := myread_next fd hin
      rw [hin] at hlen hnone
      rw [List.length_cons] at hlen
      obtain ⟨hc,hnone⟩ := not_or.mp (mt List.mem_cons.mpr hnone)
      simp only [hread,Ne.symm hc,if_false]
      by_cases hover : cnt+1 = intMax
      · simp [hover]
      · simp only [hover,if_false]
        exact ih (by omega) (by omega) (by omega) hnone

theorem copyLine_replicate {room n : ℕ} (h : room ≤ n) :
    copyLine room (List.replicate n 97) = (List.replicate room 97,List.replicate (n-room) 97) := by
  obtain ⟨k,rfl⟩ := Nat.exists_eq_add_of_le h
  rw [List.replicate_add,Nat.add_sub_cancel_left]
  apply copyLine_piece
  · intro hmem
    have heq := List.eq_of_mem_replicate (List.mem_of_mem_dropLast hmem)
    exact absurd heq (by decide)
  · simp
  · exact Or.inr List.length_replicate

theorem segment_letter {n : ℕ} : ∀ a ∈ List.replicate n (ReadAnswer.data [97]), Segment a := by
  intro a ha
  exact Or.inr ⟨[97],List.eq_of_mem_replicate ha,by decide,by decide⟩

theorem incoming_letters (n : ℕ) :
    (start (List.replicate n (.data [97]))).incoming = List.replicate n 97 := by
  have hanswers : (start (List.replicate n (.data [97]))).answers =
      List.replicate n (.data [97]) ++ List.replicate 0 (.data []) := by simp [start]
  rw [incoming_segments (le_refl 0) segment_letter hanswers]
  induction n with
  | zero => rfl
  | succ n ih => simpa [List.replicate_succ,ReadAnswer.bytes] using ih (by simp [start])

/-- A long enough run of one byte brings every call with too high a limit to this. -/
theorem not_delivers {ms : List ℕ} {m n : ℕ} (hm : m ∈ ms) (hlarge : intMax < m)
    (hn : ms.sum+intMax ≤ n) (hin : r.incoming = List.replicate n 97) (stream : List UInt8) :
    ¬ Delivers fd ms stream r := by
  induction ms generalizing r n stream with
  | nil => simp at hm
  | cons l ms ih =>
    rw [List.sum_cons] at hn
    rintro ⟨hlawful,hnext⟩
    by_cases hl : intMax < l
    · have hpos : 0 < intMax := by decide
      apply hlawful.defined
      apply threadReadlineLoop_overflow
      · omega
      · exact hpos
      · rw [hin,List.length_replicate]
        omega
      · rw [hin]
        intro hmem
        exact absurd (List.eq_of_mem_replicate hmem) (by decide)
    · have hmem : m ∈ ms := by
        rcases List.mem_cons.mp hm with rfl | hm
        · exact absurd hlarge hl
        · exact hm
      have htakes := threadReadlineOn_takes (r := r) fd (show l ≤ intMax by omega)
      rw [hin,copyLine_replicate (show l-1 ≤ n by omega)] at htakes
      have hdone : Done (l-1) (List.replicate (l-1) 97) := Or.inr List.length_replicate
      have houtcome := htakes.outcome
      rw [pieceEnd_done 0 hdone] at houtcome
      exact ih hmem (by omega) (htakes.rest hdone) _ (hnext _ houtcome)

end Overflow

/-- Calls on one `Rline` that starts with nothing in it. Each delivers the next bytes of the
stream, up to the first newline or one less than its limit, with the 0 behind them, and
keeps what it has read beyond; all of them deliver the beginning of the stream. This holds
for every stream exactly if every limit is within the range of an `int`. -/
theorem thread_lines_iff (fd : ℤ) (maxlens : List ℕ) :
    (∀ (r : Reader) (dst : Memory UInt8) (segments : List ReadAnswer) (n : ℕ), r.cnt = 0 →
      (∀ a ∈ segments, Segment a) → r.answers = segments ++ List.replicate n (.data []) →
      Delivers fd maxlens (segments.flatMap ReadAnswer.bytes) r ∧
        ((threadReadlines fd maxlens dst r).map Prod.snd).flatten <+:
          segments.flatMap ReadAnswer.bytes) ↔
      ∀ m ∈ maxlens, m ≤ intMax := by
  constructor
  · intro h m hm
    by_contra hlarge
    have hrun := h (start (List.replicate (maxlens.sum+intMax) (.data [97]))) (fun _ => 0)
      (List.replicate (maxlens.sum+intMax) (.data [97])) 0 rfl segment_letter (by simp [start])
    exact not_delivers hm (not_le.mp hlarge) (le_refl _) (incoming_letters _) _ hrun.1
  · intro hms r dst segments n hcnt hsegments hanswers
    have hincoming := incoming_segments hcnt.le hsegments hanswers
    have hfollows : Follows (segments.flatMap ReadAnswer.bytes) r := by
      refine ⟨by rw [hanswers]; exact steady_append hsegments n,?_,Or.inl hincoming⟩
      intro hpos
      omega
    have hdelivers := hfollows.delivers fd hms
    exact ⟨hdelivers,hdelivers.delivered dst⟩

/-- A limit of two more than `INT_MAX` and a line that is longer than `INT_MAX`. -/
theorem thread_line_overflows :
    (∀ a ∈ List.replicate 2147483648 (ReadAnswer.data [97]), Segment a) ∧
      (threadReadlineOn 3 2147483649
        (start (List.replicate 2147483648 (.data [97])))).outcome = .undefined := by
  refine ⟨segment_letter,threadReadlineLoop_overflow (by decide) (by decide) ?_ ?_⟩
  · rw [incoming_letters,List.length_replicate]
    decide
  · rw [incoming_letters]
    intro hmem
    exact absurd (List.eq_of_mem_replicate hmem) (by decide)

example : threadReadlines 3 [8,3,8] (fun _ => 7)
    (start [.data [97,10,98],.fail .eintr,.data [99,100,10],.data []]) =
      [(2,[97,10]),(2,[98,99]),(2,[100,10])] := by decide

end ThreadReadline
end CPrograming
