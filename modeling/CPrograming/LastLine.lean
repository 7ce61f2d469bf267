import CPrograming.ThreadReadlineCalls
import Mathlib.Data.List.DropRight

/-!
# The last line of a stream without a newline at its end

Both line readers return 0 at the end of file, whatever they have stored before. Their
callers echo a piece when a call returns a positive number, so what follows the last
newline is not echoed, unless it is as long as a full piece of `thread_readline`.
-/

namespace CPrograming
namespace LastLine

open Readline ThreadReadline ReadStream Libc

def lastRun (stream : List UInt8) : List UInt8 := stream.rtakeWhile (· ≠ newline)

/-- What the loop of `str_echo` writes back: it ends with the first call that does not
return a positive number. -/
def echoed (calls : List (ℤ × List UInt8)) : List (List UInt8) :=
  (calls.takeWhile (0 < ·.1)).map Prod.snd

section Runs

variable {xs ys : List UInt8}

theorem newline_not_mem_lastRun (stream : List UInt8) : newline ∉ lastRun stream := by
  intro hmem
  simpa using List.mem_rtakeWhile_imp hmem

theorem lastRun_ended (xs : List UInt8) (h : Ended ys) : lastRun (xs ++ ys) = [] := by
  obtain ⟨init,rfl⟩ := List.getLast?_eq_some_iff.mp h
  rw [lastRun,← List.append_assoc]
  exact List.rtakeWhile_concat_neg _ _ _ (by simp)

theorem lastRun_open (xs : List UInt8) (h : newline ∉ ys) :
    lastRun (xs ++ ys) = lastRun xs ++ ys := by
  induction ys using List.reverseRecOn with
  | nil => simp
  | append_singleton ys c ih =>
    rw [List.mem_append,not_or,List.mem_singleton] at h
    rw [← List.append_assoc,lastRun,List.rtakeWhile_concat_pos _ _ _ (by simpa using Ne.symm h.2)]
    rw [← lastRun,ih h.1,List.append_assoc]

theorem lastRun_self (h : newline ∉ ys) : lastRun ys = ys := lastRun_open [] h

theorem lastRun_of_mem (h : newline ∈ ys) : lastRun (xs ++ ys) = lastRun ys := by
  induction ys using List.reverseRecOn with
  | nil => simp at h
  | append_singleton ys c ih =>
    by_cases hc : c = newline
    · subst hc
      have hended : Ended (ys ++ [newline]) := by simp [Ended]
      rw [lastRun_ended _ hended]
      exact (lastRun_ended [] hended).symm
    · have hys : newline ∈ ys := by simpa [Ne.symm hc] using h
      have hone : newline ∉ [c] := by simpa using Ne.symm hc
      rw [← List.append_assoc,lastRun_open _ hone,lastRun_open _ hone,ih hys]

theorem newline_not_mem (hbody : newline ∉ xs.dropLast) (hopen : ¬ Ended xs) : newline ∉ xs := by
  induction xs using List.reverseRecOn with
  | nil => simp
  | append_singleton xs c =>
    have hc : c ≠ newline := by simpa [Ended] using hopen
    simpa [Ne.symm hc] using hbody

/-- Behind a complete piece the last run is the same, unless the piece is that run itself. -/
theorem lastRun_next (ys : List UInt8) {left : ℕ} (hbody : newline ∉ xs.dropLast)
    (hdone : Done left xs) (hne : xs ≠ [])
    (h : lastRun (xs ++ ys) = [] ∨ (lastRun (xs ++ ys)).length = left) :
    lastRun (xs ++ ys) = lastRun ys ∨ ys = [] ∧ lastRun (xs ++ ys) = xs := by
  by_cases hys : newline ∈ ys
  · exact Or.inl (lastRun_of_mem hys)
  · rw [lastRun_open _ hys] at h ⊢
    by_cases hended : Ended xs
    · left
      rw [← List.nil_append xs,lastRun_ended [] hended,lastRun_self hys,List.nil_append]
    · right
      rw [lastRun_self (newline_not_mem hbody hended)] at h ⊢
      have hlen := hdone.resolve_left hended
      have hnil : ys = [] := by
        rcases h with h | h
        · exact absurd (List.append_eq_nil_iff.mp h).1 hne
        · rw [List.length_append,hlen] at h
          exact List.length_eq_zero_iff.mp (by omega)
      exact ⟨hnil,by rw [hnil,List.append_nil]⟩

theorem mem_echoed {calls : List (ℤ × List UInt8)} {piece : List UInt8}
    (h : piece ∈ echoed calls) : ∃ e ∈ calls, 0 < e.1 ∧ e.2 = piece := by
  obtain ⟨e,he,rfl⟩ := List.mem_map.mp h
  exact ⟨e,(List.takeWhile_sublist _).subset he,by simpa using List.mem_takeWhile_imp he,rfl⟩

theorem echoed_cons {k : ℤ} (hpos : 0 < k) (piece : List UInt8) (calls : List (ℤ × List UInt8)) :
    echoed ((k,piece) :: calls) = piece :: echoed calls := by
  simp [echoed,hpos]

end Runs

section Pieces

variable {fd max : ℤ} {dst : Memory UInt8} {r : Reader} {e : ℤ × List UInt8}

/-- A piece that `readline` counts ends with a newline or is too long. -/
theorem readlines_positive {count : ℕ} (he : e ∈ readlines fd max count dst r) (hpos : 0 < e.1) :
    Ended e.2 ∨ max < e.2.length := by
  induction count generalizing dst r with
  | zero => simp [readlines] at he
  | succ count ih =>
    obtain ⟨hret,hstores⟩ := readlineLoop_piece fd max.toNat 0 r
    rw [readlines] at he
    cases hk : (readline fd max r).ret with
    | none => simp [hk] at he
    | some k =>
      simp only [hk,List.mem_cons] at he
      rcases he with rfl | he
      · rw [readline,hret] at hk
        by_cases hended : Ended (copyLine max.toNat r.incoming).1
        · left
          rw [lineEnd_ended hended] at hk hstores
          obtain rfl := Option.some.inj hk
          rw [readline,hstores]
          have hnat (n : ℕ) : ((0 : ℕ) : ℤ)+n = (n : ℤ) := by omega
          rw [hnat,Int.toNat_natCast,Memory.load_storesFrom]
          exact hended
        · right
          by_cases hfull : (copyLine max.toNat r.incoming).1.length = max.toNat
          · rw [lineEnd_full hended hfull] at hk
            have hcount := Option.some.inj hk
            rw [Memory.load_length]
            omega
          · have hle := (lineEnd_short hended hfull r.closing).1 k hk
            omega
      · exact ih he

theorem threadReadlineLoop_positive {left cnt : ℕ} {k : ℤ}
    (hk : (threadReadlineLoop fd left cnt r).outcome = .returned k) (hpos : 0 < k) : ∃ piece,
      Done left piece ∧ newline ∉ piece.dropLast ∧ k = (cnt : ℤ)+piece.length ∧
      (threadReadlineLoop fd left cnt r).stores = Memory.storesFrom cnt (piece ++ [0]) ∧
      (cnt < intMax → newline ∉ piece → cnt+piece.length < intMax) := by
  induction left generalizing cnt r with
  | zero =>
    obtain rfl := Outcome.returned.inj hk
    exact ⟨[],Or.inr rfl,by simp,by simp,rfl,fun hcnt _ => hcnt⟩
  | succ left ih =>
    rw [threadReadlineLoop] at hk ⊢
    cases hread : threadReadOne fd r with
    | none => simp [hread] at hk
    | some fetched =>
      obtain ⟨f,r'⟩ := fetched
      simp only [hread] at hk ⊢
      cases f with
      | eof | error =>
        have hk := Outcome.returned.inj hk
        omega
      | byte c =>
        by_cases hc : c = newline
        · simp only [hc,if_true] at hk ⊢
          have hk := Outcome.returned.inj hk
          exact ⟨[newline],Or.inl rfl,by simp,by simp [← hk],rfl,fun _ h => absurd h (by simp)⟩
        · simp only [hc,if_false] at hk ⊢
          split_ifs at hk ⊢ with hover
          obtain ⟨piece,hdone,hbody,hcount,hstores,hrange⟩ := ih hk
          refine ⟨c :: piece,(done_cons hc left piece).mpr hdone,?_,?_,?_,?_⟩
          · exact mem_dropLast_cons.mpr ⟨fun h => absurd h hc,hbody⟩
          · rw [hcount]
            push_cast [List.length_cons]
            omega
          · rw [hstores]
            rfl
          · intro hcnt hnone
            have hlen := hrange (by omega) (fun h => hnone (List.mem_cons_of_mem c h))
            rw [List.length_cons]
            omega

theorem threadReadlines_positive {ms : List ℕ} (he : e ∈ threadReadlines fd ms dst r)
    (hpos : 0 < e.1) : newline ∉ e.2.dropLast ∧ (newline ∉ e.2 → e.2.length < intMax) ∧
      ∃ m ∈ ms, Done (m-1) e.2 := by
  induction ms generalizing dst r with
  | nil => simp [threadReadlines] at he
  | cons m ms ih =>
    rw [threadReadlines] at he
    cases hk : (threadReadlineOn fd m r).outcome with
    | waiting | undefined => simp [hk] at he
    | returned k =>
      simp only [hk,List.mem_cons] at he
      rcases he with rfl | he
      · obtain ⟨piece,hdone,hbody,hcount,hstores,hrange⟩ := threadReadlineLoop_positive hk hpos
        have hload : (dst.storeAll (threadReadlineOn fd m r).stores).load 0 k.toNat = piece := by
          have hnat : k.toNat = piece.length := by omega
          rw [threadReadlineOn,hstores,hnat,Memory.load_storesFrom]
        dsimp only
        rw [hload]
        refine ⟨hbody,?_,m,List.mem_cons_self,hdone⟩
        intro hnone
        have hlen := hrange (by decide) hnone
        omega
      · obtain ⟨hbody,hrange,l,hl,hdone⟩ := ih he
        exact ⟨hbody,hrange,l,List.mem_cons_of_mem m hl,hdone⟩

end Pieces

section Echo

variable (fd : ℤ) {max : ℤ} {maxlen count : ℕ} {dst : Memory UInt8} {r : Reader}
  {stream piece : List UInt8}

theorem readlines_no_run (hlen : piece.length < max) (hnone : newline ∉ piece) :
    piece ∉ echoed (readlines fd max count dst r) := by
  intro hmem
  obtain ⟨e,he,hpos,rfl⟩ := mem_echoed hmem
  rcases readlines_positive he hpos with hended | hlong
  · exact hnone (List.mem_of_getLast? hended)
  · omega

theorem threadReadlines_done (hmem : piece ∈
    echoed (threadReadlines fd (List.replicate count maxlen) dst r)) :
    newline ∉ piece.dropLast ∧ Done (maxlen-1) piece := by
  obtain ⟨e,he,hpos,rfl⟩ := mem_echoed hmem
  obtain ⟨hbody,-,m,hm,hdone⟩ := threadReadlines_positive he hpos
  rw [List.eq_of_mem_replicate hm] at hdone
  exact ⟨hbody,hdone⟩

theorem threadReadlines_run (hnone : newline ∉ piece) (hmem : piece ∈
    echoed (threadReadlines fd (List.replicate count maxlen) dst r)) :
    piece.length = maxlen-1 ∧ piece.length < intMax := by
  obtain ⟨e,he,hpos,rfl⟩ := mem_echoed hmem
  refine ⟨?_,(threadReadlines_positive he hpos).2.1 hnone⟩
  rcases (threadReadlines_done fd hmem).2 with hended | hfull
  · exact absurd (List.mem_of_getLast? hended) hnone
  · exact hfull

theorem lastRun_flatten {pieces : List (List UInt8)} {left : ℕ}
    (h : ∀ piece ∈ pieces, newline ∉ piece.dropLast ∧ Done left piece)
    (hshort : (lastRun pieces.flatten).length < left) : lastRun pieces.flatten = [] := by
  induction pieces using List.reverseRecOn with
  | nil => rfl
  | append_singleton pieces piece =>
    obtain ⟨hbody,hdone⟩ := h piece (by simp)
    rw [List.flatten_append,List.flatten_singleton] at hshort ⊢
    by_cases hended : Ended piece
    · exact lastRun_ended _ hended
    · rw [lastRun_open _ (newline_not_mem hbody hended),List.length_append,
        hdone.resolve_left hended] at hshort
      omega

theorem threadReadlines_cons (hmax : maxlen ≤ intMax) (dst : Memory UInt8)
    (hdone : Done (maxlen-1) (copyLine (maxlen-1) r.incoming).1) :
    ∃ (dst' : Memory UInt8) (r' : Reader), r'.incoming = (copyLine (maxlen-1) r.incoming).2 ∧
      ∀ ms, threadReadlines fd (maxlen :: ms) dst r =
        (((copyLine (maxlen-1) r.incoming).1.length : ℤ),(copyLine (maxlen-1) r.incoming).1) ::
          threadReadlines fd ms dst' r' := by
  have htakes := threadReadlineOn_takes (r := r) fd hmax
  have houtcome := htakes.outcome
  have hstores := htakes.stores
  rw [pieceEnd_done 0 hdone] at houtcome hstores
  refine ⟨dst.storeAll (threadReadlineOn fd maxlen r).stores,(threadReadlineOn fd maxlen r).reader,
    htakes.rest hdone,?_⟩
  intro ms
  have hload : (dst.storeAll (threadReadlineOn fd maxlen r).stores).load 0
      (copyLine (maxlen-1) r.incoming).1.length = (copyLine (maxlen-1) r.incoming).1 := by
    rw [hstores,Memory.load_storesFrom]
  rw [threadReadlines,houtcome]
  simp [hload]

theorem threadReadlines_all (hmax : maxlen ≤ intMax) (hlt : 1 < maxlen) (dst : Memory UInt8)
    (r : Reader) (h : lastRun r.incoming = [] ∨ (lastRun r.incoming).length = maxlen-1) :
    ∃ count,
      (echoed (threadReadlines fd (List.replicate count maxlen) dst r)).flatten = r.incoming ∧
      (lastRun r.incoming ≠ [] → lastRun r.incoming ∈
        echoed (threadReadlines fd (List.replicate count maxlen) dst r)) := by
  induction hn : r.incoming.length using Nat.strong_induction_on generalizing r dst with
  | _ n ih =>
    by_cases hnil : r.incoming = []
    · exact ⟨0,by rw [hnil]; rfl,fun hne => absurd (by rw [hnil]; rfl) hne⟩
    · have hdone : Done (maxlen-1) (copyLine (maxlen-1) r.incoming).1 := by
        refine (copyLine_cases (maxlen-1) r.incoming).resolve_left ?_
        rintro ⟨hnone,hshort,-⟩
        rw [lastRun_self hnone] at h
        rcases h with h | h
        · exact hnil h
        · omega
      obtain ⟨dst',r',hrest,hcons⟩ := threadReadlines_cons fd hmax dst hdone
      have happend := copyLine_append (maxlen-1) r.incoming
      have hne := copyLine_ne_nil (show 0 < maxlen-1 by omega) hnil
      have hpos := List.length_pos_iff.mpr hne
      rw [← hrest] at happend
      have hnext := lastRun_next r'.incoming (copyLine_newline (maxlen-1) r.incoming) hdone hne
        (by rwa [happend])
      rw [happend] at hnext
      have hlater : lastRun r'.incoming = [] ∨ (lastRun r'.incoming).length = maxlen-1 := by
        rcases hnext with hsame | ⟨hend,-⟩
        · rwa [← hsame]
        · left
          rw [hend]
          rfl
      have hless : r'.incoming.length < n := by
        have hlen := congrArg List.length happend
        rw [List.length_append] at hlen
        omega
      obtain ⟨count,hcount,hmem⟩ := ih _ hless dst' r' hlater rfl
      refine ⟨count+1,?_,?_⟩ <;>
        rw [List.replicate_succ,hcons,echoed_cons (by exact_mod_cast hpos)]
      · rw [List.flatten_cons,hcount,happend]
      · intro hrun
        rcases hnext with hsame | ⟨-,hpiece⟩
        · rw [hsame] at hrun ⊢
          exact List.mem_cons_of_mem _ (hmem hrun)
        · rw [hpiece]
          exact List.mem_cons_self

end Echo

/-- The bytes behind the last newline, fewer than either limit. `readline` never delivers them
unless there are none. `thread_readline` does if they fill its buffer to the last byte, with a
limit in the range of an `int`, and otherwise only if there are none; and then the echo loop
over it processes every byte. -/
theorem last_line_iff (fd max : ℤ) (maxlen : ℕ) (dst : Memory UInt8) (r : Reader)
    (hmax : (lastRun r.incoming).length < max)
    (hmaxlen : (lastRun r.incoming).length < maxlen) :
    ((lastRun r.incoming ≠ [] →
      ∃ count, lastRun r.incoming ∈ echoed (readlines fd max count dst r)) ↔
        lastRun r.incoming = []) ∧
    ((lastRun r.incoming ≠ [] → ∃ count, lastRun r.incoming ∈
      echoed (threadReadlines fd (List.replicate count maxlen) dst r)) ↔
        lastRun r.incoming = [] ∨
          (lastRun r.incoming).length = maxlen-1 ∧ maxlen ≤ intMax) ∧
    (1 < maxlen → maxlen ≤ intMax → ((∃ count,
      (echoed (threadReadlines fd (List.replicate count maxlen) dst r)).flatten = r.incoming) ↔
        lastRun r.incoming = [] ∨ (lastRun r.incoming).length = maxlen-1)) := by
  have hnone := newline_not_mem_lastRun r.incoming
  refine ⟨⟨?_,fun h hne => absurd h hne⟩,⟨?_,?_⟩,?_⟩
  · intro h
    by_contra hne
    obtain ⟨count,hmem⟩ := h hne
    exact readlines_no_run fd hmax hnone hmem
  · intro h
    by_cases hne : lastRun r.incoming = []
    · exact Or.inl hne
    · obtain ⟨count,hmem⟩ := h hne
      obtain ⟨hfull,hrange⟩ := threadReadlines_run fd hnone hmem
      exact Or.inr ⟨hfull,by omega⟩
  · rintro (hnil | ⟨hfull,hint⟩) hne
    · exact absurd hnil hne
    · have hpos := List.length_pos_iff.mpr hne
      obtain ⟨count,-,hmem⟩ := threadReadlines_all fd hint (by omega) dst r (Or.inr hfull)
      exact ⟨count,hmem hne⟩
  · intro hlt hint
    constructor
    · rintro ⟨count,hall⟩
      by_cases hfull : (lastRun r.incoming).length = maxlen-1
      · exact Or.inr hfull
      · left
        have hless : (lastRun r.incoming).length < maxlen-1 := by omega
        rw [← hall] at hless ⊢
        exact lastRun_flatten (fun piece hp => threadReadlines_done fd hp) hless
    · intro h
      obtain ⟨count,hall,-⟩ := threadReadlines_all fd hint hlt dst r h
      exact ⟨count,hall⟩

/-- A stream that ends with a newline, and one whose last two bytes fill a limit of three. -/
theorem last_line_sample :
    (∃ count, (echoed (threadReadlines 3 (List.replicate count 8) (fun _ => 7)
      (start [.data [97],.data [10],.data []]))).flatten = [97,10]) ∧
    (∃ count, [97,98] ∈ echoed (threadReadlines 3 (List.replicate count 3) (fun _ => 7)
      (start [.data [97,98],.data []]))) ∧
    ¬ ∃ count, [97,98] ∈ echoed (readlines 3 8 count (fun _ => 7)
      (start [.data [97,98],.data []])) := by
  obtain ⟨hnever,hfull,-⟩ := last_line_iff 3 8 3 (fun _ => 7) (start [.data [97,98],.data []])
    (by decide) (by decide)
  refine ⟨?_,hfull.mpr (Or.inr (by decide)) (by decide),?_⟩
  · exact ((last_line_iff 3 8 8 (fun _ => 7) (start [.data [97],.data [10],.data []])
      (by decide) (by decide)).2.2 (by decide) (by decide)).mpr (by decide)
  · intro hread
    exact absurd (hnever.mp fun _ => hread) (by decide)

/-- The stream is a line and one more byte. Both readers report 0 before the byte is
delivered, and so it is not echoed. -/
theorem last_byte_lost :
    lastRun (start [.data [97,10],.data [98],.data []]).incoming = [98] ∧
      readlines 3 8 2 (fun _ => 7) (start [.data [97,10],.data [98],.data []]) =
        [(2,[97,10]),(0,[])] ∧
      threadReadlines 3 [8,8] (fun _ => 7) (start [.data [97,10],.data [98],.data []]) =
        [(2,[97,10]),(0,[])] := by
  decide

end LastLine
end CPrograming
