import CPrograming.Readline
import CPrograming.Runs

/-!
# The line reader on several descriptors

One buffer and one counter serve every descriptor. Whichever way a call of `readline`
ends, the counter is used up, so the next call starts with a `read` of its own
descriptor.
-/

namespace CPrograming
namespace Readline

open Runs

/-- One call after the other, on any descriptor and with any size. A call that waits has
no successor. -/
def nextCall (r : Reader) (ask : ℤ × ℤ) : Option Reader :=
  let call := readline ask.1 ask.2 r
  call.ret.map fun _ => call.reader

/-- How a loop that starts at `i` with `left` rounds ends after it has stored `bytes`, and
what it stores behind them. -/
inductive Ending (i left : ℕ) (bytes : List UInt8) : Option ℤ → List UInt8 → Prop
  | waiting : Ending i left bytes none []
  | line (h : bytes.getLast? = some newline) : Ending i left bytes (some (i+bytes.length)) [0]
  | full (h : bytes.length = left) : Ending i left bytes (some (i+bytes.length+1)) [0]
  | eof : Ending i left bytes (some 0) [0]
  | error : Ending i left bytes (some (-1)) []

/-- The bytes that the call delivers are the first ones that it has read itself, all of
them from its own descriptor; behind them it stores at most the terminating 0. -/
structure Own (fd max : ℤ) (r : Reader) (call : Call) (reads : List (ℤ × ReadAnswer))
    (bytes tail : List UInt8) : Prop where
  log : call.reader.log = r.log ++ reads
  own : ∀ e ∈ reads, e.1 = fd
  delivered : bytes <+: reads.flatMap fun e => e.2.bytes
  stores : call.stores = Memory.storesFrom 0 (bytes ++ tail)
  ending : Ending 0 max.toNat bytes call.ret tail

theorem Ending.cons {i left : ℕ} {bytes tail : List UInt8} {ret : Option ℤ} (c : UInt8)
    (h : Ending (i+1) left bytes ret tail) : Ending i (left+1) (c :: bytes) ret tail := by
  have hlen : ((i+1 : ℕ) : ℤ)+bytes.length = i+(c :: bytes).length := by
    push_cast [List.length_cons]
    omega
  cases h with
  | waiting => exact .waiting
  | line h =>
    rw [hlen]
    exact .line (by simp [List.getLast?_cons,h])
  | full h =>
    rw [hlen]
    exact .full (by simp [h])
  | eof => exact .eof
  | error => exact .error

section Step

variable {fd : ℤ} {r r' : Reader}

def Reads (fd : ℤ) (r r' : Reader) (bytes : List UInt8) : Prop :=
  ∃ reads : List (ℤ × ReadAnswer), r'.log = r.log ++ reads ∧ (∀ e ∈ reads, e.1 = fd) ∧
    (reads.flatMap fun e => e.2.bytes) = bytes

theorem Reads.none (h : r'.log = r.log) : Reads fd r r' [] := ⟨[],by simp [h],by simp,rfl⟩

theorem Reads.trans {r₁ : Reader} {xs ys : List UInt8} (h : Reads fd r r₁ xs)
    (h' : Reads fd r₁ r' ys) : Reads fd r r' (xs ++ ys) := by
  obtain ⟨reads,hlog,hfd,rfl⟩ := h
  obtain ⟨reads',hlog',hfd',rfl⟩ := h'
  refine ⟨reads ++ reads',by rw [hlog',hlog,List.append_assoc],?_,List.flatMap_append⟩
  intro e he
  rcases List.mem_append.mp he with he | he
  · exact hfd e he
  · exact hfd' e he

theorem again_reads {answers : List ReadAnswer} {got : ReadAnswer}
    (h : again fd answers r = some (got,r')) :
    Reads fd r r' got.bytes ∧ r'.cnt = got.ret ∧
      r'.buffer.load 0 got.bytes.length = got.bytes := by
  induction answers generalizing r with
  | nil => simp [again] at h
  | cons a rest ih =>
    have hone (next : Reader) (hnext : next.log = r.log ++ [(fd,a.upTo maxLine)]) :
        Reads fd r next (a.upTo maxLine).bytes :=
      ⟨[(fd,a.upTo maxLine)],hnext,by simp,by simp⟩
    cases ha : a.upTo maxLine with
    | data bytes =>
      simp only [again,ha,Option.some.injEq,Prod.mk.injEq] at h
      obtain ⟨rfl,rfl⟩ := h
      rw [← ha]
      refine ⟨hone _ (by rw [ha]),by rw [ha],?_⟩
      rw [ha]
      exact Memory.load_store r.buffer 0 bytes
    | fail e =>
      cases e with
      | eintr =>
        simp only [again,ha] at h
        obtain ⟨hreads,hrest⟩ := ih h
        have hfirst := hone ⟨-1,r.point,r.buffer,rest,r.log ++ [(fd,.fail .eintr)]⟩ (by rw [ha])
        rw [ha] at hfirst
        exact ⟨hfirst.trans hreads,hrest⟩
      | ewouldblock | other =>
        simp only [again,ha,Option.some.injEq,Prod.mk.injEq] at h
        obtain ⟨rfl,rfl⟩ := h
        rw [← ha]
        exact ⟨hone _ (by rw [ha]),by rw [ha],by rw [ha]; rfl⟩

theorem myread_reads {f : Fetched} (h : myread fd r = some (f,r')) :
    ∃ bytes, Reads fd r r' bytes ∧
      match f with
      | .byte c => r.rest ++ bytes = c :: r'.rest
      | .eof | .error => r'.cnt ≤ 0 := by
  by_cases hcnt : r.cnt ≤ 0
  · simp only [myread,hcnt,if_true] at h
    obtain ⟨⟨got,r₁⟩,hagain,hgot⟩ := Option.map_eq_some_iff.mp h
    obtain ⟨hreads,hret,hload⟩ := again_reads hagain
    refine ⟨got.bytes,?_⟩
    cases got with
    | fail e =>
      simp only [Prod.mk.injEq] at hgot
      obtain ⟨rfl,rfl⟩ := hgot
      exact ⟨hreads,by simp [hret,ReadAnswer.ret]⟩
    | data bytes =>
      cases bytes with
      | nil =>
        simp only [Prod.mk.injEq] at hgot
        obtain ⟨rfl,rfl⟩ := hgot
        exact ⟨hreads,by simp [hret,ReadAnswer.ret]⟩
      | cons c z =>
        obtain ⟨hc,hz⟩ := Reader.fetch_first (by rw [hret]; simp [ReadAnswer.ret]) hload
        dsimp only at hgot
        rw [hc] at hgot
        obtain ⟨rfl,rfl⟩ := Prod.mk.inj hgot
        refine ⟨hreads,?_⟩
        rw [Reader.rest_of_cnt hcnt,hz]
        rfl
  · simp only [myread,hcnt,if_false,Reader.fetch,Option.some.injEq,Prod.mk.injEq] at h
    obtain ⟨rfl,rfl⟩ := h
    refine ⟨[],.none rfl,?_⟩
    rw [List.append_nil,Reader.rest_fetch (not_le.mp hcnt)]
    rfl

/-- The loop delivers the bytes at hand and then those it reads, in their order, and it
leaves the counter used up. -/
theorem readlineLoop_reads (fd : ℤ) (left i : ℕ) (r : Reader) :
    ∃ read bytes tail, Reads fd r (readlineLoop fd left i r).reader read ∧
      bytes <+: r.rest ++ read ∧
      (readlineLoop fd left i r).stores = Memory.storesFrom i (bytes ++ tail) ∧
      Ending i left bytes (readlineLoop fd left i r).ret tail ∧
      ((readlineLoop fd left i r).ret ≠ none → (readlineLoop fd left i r).reader.cnt ≤ 0) := by
  induction left generalizing i r with
  | zero =>
    refine ⟨[],[],[0],.none rfl,by simp,by simp [readlineLoop,Memory.storesFrom],?_,?_⟩
    · have hfull : Ending i 0 [] (some (i+([] : List UInt8).length+1)) [0] := .full rfl
      exact hfull
    · intro _
      exact le_refl 0
  | succ left ih =>
    rw [readlineLoop]
    cases hread : myread fd r with
    | none =>
      refine ⟨[],[],[],.none rfl,by simp,rfl,.waiting,?_⟩
      intro h
      exact absurd rfl h
    | some fetched =>
      obtain ⟨f,r₁⟩ := fetched
      obtain ⟨first,hfirst,hfetched⟩ := myread_reads hread
      cases f with
      | eof => exact ⟨first,[],[0],hfirst,by simp,rfl,.eof,fun _ => hfetched⟩
      | error => exact ⟨first,[],[],hfirst,by simp,rfl,.error,fun _ => hfetched⟩
      | byte c =>
        by_cases hc : c = newline
        · simp only [hc,if_true] at hfetched ⊢
          refine ⟨first,[newline],[0],hfirst,by simp [hfetched],rfl,?_,fun _ => le_refl 0⟩
          exact Ending.line rfl
        · simp only [hc,if_false]
          obtain ⟨read,bytes,tail,hreads,hpre,hstores,hend,hcnt⟩ := ih (i+1) r₁
          refine ⟨first ++ read,c :: bytes,tail,hfirst.trans hreads,?_,?_,?_,hcnt⟩
          · rw [← List.append_assoc,hfetched]
            simpa using hpre
          · rw [hstores]
            rfl
          · exact hend.cons c

/-- A call that finds the counter used up delivers its own bytes and uses the counter up. -/
theorem readline_own (hcnt : r.cnt ≤ 0) (fd max : ℤ) :
    (∃ reads bytes tail, Own fd max r (readline fd max r) reads bytes tail) ∧
      ((readline fd max r).ret ≠ none → (readline fd max r).reader.cnt ≤ 0) := by
  obtain ⟨read,bytes,tail,⟨reads,hlog,hfd,rfl⟩,hpre,hstores,hend,hused⟩ :=
    readlineLoop_reads fd max.toNat 0 r
  rw [Reader.rest_of_cnt hcnt,List.nil_append] at hpre
  exact ⟨⟨reads,bytes,tail,hlog,hfd,hpre,hstores,hend⟩,hused⟩

theorem nextCall_cnt {ask : ℤ × ℤ} (hcnt : r.cnt ≤ 0) (h : nextCall r ask = some r') :
    r'.cnt ≤ 0 := by
  simp only [nextCall] at h
  obtain ⟨k,hret,rfl⟩ := Option.map_eq_some_iff.mp h
  exact (readline_own hcnt ask.1 ask.2).2 (by simp [hret])

end Step

/-- Between calls the counter is used up, whatever descriptors and sizes were asked for and
whatever `read` answered, and so the next call delivers bytes of its own reads only. -/
theorem readline_isolated (answers : List ReadAnswer) (r : Reader)
    (hreach : Reachable nextCall (start answers) r) :
    r.cnt ≤ 0 ∧
      ∀ fd max, ∃ reads bytes tail, Own fd max r (readline fd max r) reads bytes tail := by
  have hcnt : r.cnt ≤ 0 := hreach.invariant (I := fun r => r.cnt ≤ 0) (le_refl 0)
    fun _ _ _ hx hxy => nextCall_cnt hx hxy
  exact ⟨hcnt,fun fd max => (readline_own hcnt fd max).1⟩

/-- A line on descriptor 3 arrives together with two more bytes; the next call is on
descriptor 4. -/
theorem readline_isolated_mixed :
    ∃ r, nextCall (start [.data [97,10,98,99],.fail .eintr,.data [100,10]]) (3,8) = some r ∧
      (readline 4 8 r).stores = [(0,100),(1,10),(2,0)] ∧
      ∃ reads bytes tail, Own 4 8 r (readline 4 8 r) reads bytes tail := by
  refine ⟨_,rfl,by decide,?_⟩
  refine (readline_isolated [.data [97,10,98,99],.fail .eintr,.data [100,10]] _ ?_).2 4 8
  exact (Reachable.refl _).tail (a := (3,8)) rfl

end Readline
end CPrograming
