import CPrograming.ReadlineStream

/-!
# The line reader of `thread_readline.c`

`thread_read_one` is `myread` on a buffer that belongs to the thread: an `Rline` on the
heap, registered under `rl_key`. `thread_readline` looks the `Rline` up and stores the
bytes up to the first newline, at most `maxlen - 1` of them. What is left stays in the
`Rline` for the next call.
-/

namespace CPrograming
namespace ThreadReadline

open Readline ReadStream Libc

def intMax : ℕ := 2147483647

/-- `thread_read_one(tsd, fd, &c)`: what `myread` does to its static variables is done to
the fields of `*tsd`. -/
def threadReadOne (fd : ℤ) (tsd : Reader) : Option (Fetched × Reader) := myread fd tsd

inductive Outcome
  | waiting
  | returned (k : ℤ)
  | undefined
  deriving DecidableEq, Repr

/-- What a call does, with its stores into the caller's buffer in their order. -/
structure Call where
  outcome : Outcome
  stores : List (ℕ × UInt8)
  reader : Reader

/-- The loop of `thread_readline` with `left` rounds left. At its head `cnt` is `i - 1` and
`pstr` is `buffer + cnt`. The variable `i` is an `int`, and it is not defined what happens
when it is incremented beyond its range. -/
def threadReadlineLoop (fd : ℤ) : (left cnt : ℕ) → Reader → Call
  | 0, cnt, r => ⟨.returned cnt,[(cnt,0)],r⟩
  | left+1, cnt, r =>
    match threadReadOne fd r with
    | none => ⟨.waiting,[],r⟩
    | some (.byte c,r) =>
      if c = newline then ⟨.returned (cnt+1),[(cnt,c),(cnt+1,0)],r⟩
      else if cnt+1 = intMax then ⟨.undefined,[(cnt,c)],r⟩
      else
        let call := threadReadlineLoop fd left (cnt+1) r
        { call with stores := (cnt,c) :: call.stores }
    | some (.eof,r) => ⟨.returned 0,[(cnt,0)],r⟩
    | some (.error,r) => ⟨.returned (-1),[],r⟩

def threadReadlineOn (fd : ℤ) (maxlen : ℕ) (tsd : Reader) : Call :=
  threadReadlineLoop fd (maxlen-1) 0 tsd

section Lookup

abbrev Addr := ℕ

structure Rline where
  cnt : ℤ
  bufptr : ℕ
  buffer : Memory UInt8

/-- A thread with the `Rline`s on the heap, those of other threads among them, its value
of `rl_key`, and the answers to its calls of `read`. -/
structure Thread where
  heap : Addr → Option Rline
  key : Option Addr
  answers : List ReadAnswer
  log : List (ℤ × ReadAnswer)

def Thread.reader (t : Thread) (line : Rline) : Reader :=
  ⟨line.cnt,line.bufptr,line.buffer,t.answers,t.log⟩

def Thread.put (t : Thread) (a : Addr) (r : Reader) : Thread :=
  ⟨Function.update t.heap a (some ⟨r.cnt,r.point,r.buffer⟩),t.key,r.answers,r.log⟩

/-- What a call finds that nobody has initialised: its local variable `tsd`, and the block
that `malloc` returns. -/
structure Leftover where
  tsd : Option Addr
  block : Option Addr
  contents : Rline

def Thread.malloc (t : Thread) (g : Leftover) : Option Addr :=
  g.block.filter fun a => (t.heap a).isNone

/-- The value of `tsd` behind the test of `pthread_getspecific`. -/
def Thread.lookup (t : Thread) (g : Leftover) : Option Addr × Thread :=
  match t.key with
  | some _ => (g.tsd,t)
  | none =>
    match t.malloc g with
    | none => (none,t)
    | some a => (some a,⟨Function.update t.heap a (some g.contents),some a,t.answers,t.log⟩)

/-- With `maxlen` at most 1 the loop makes no round, and `tsd` is not followed. -/
def threadReadline (fd : ℤ) (maxlen : ℕ) (g : Leftover) (t : Thread) :
    Outcome × List (ℕ × UInt8) × Thread :=
  let (tsd,t) := t.lookup g
  if maxlen ≤ 1 then (.returned 0,[(0,0)],t)
  else
    match tsd with
    | none => (.undefined,[],t)
    | some a =>
      match t.heap a with
      | none => (.undefined,[],t)
      | some line =>
        let call := threadReadlineOn fd maxlen (t.reader line)
        (call.outcome,call.stores,t.put a call.reader)

end Lookup

section Pieces

variable (fd : ℤ)

abbrev Done (left : ℕ) (piece : List UInt8) : Prop := Ended piece ∨ piece.length = left

theorem done_cons {c : UInt8} (hc : c ≠ newline) (left : ℕ) (piece : List UInt8) :
    Done (left+1) (c :: piece) ↔ Done left piece := by
  simp [Done,ended_cons hc]

/-- What a loop that starts at `cnt` with `left` rounds comes to after it has stored
`piece`, and what it stores behind. -/
def pieceEnd (cnt left : ℕ) (piece : List UInt8) (closing : Closing) : Outcome × List UInt8 :=
  if Done left piece then (.returned (cnt+piece.length),[0])
  else
    match closing with
    | .waiting => (.waiting,[])
    | .eof => (.returned 0,[0])
    | .error => (.returned (-1),[])

theorem pieceEnd_done (cnt : ℕ) {left : ℕ} {piece : List UInt8} (h : Done left piece)
    (closing : Closing) :
    pieceEnd cnt left piece closing = (.returned ((cnt : ℤ)+piece.length),[0]) := if_pos h

theorem pieceEnd_nil (cnt left : ℕ) (closing : Closing) :
    pieceEnd cnt (left+1) [] closing =
      match closing with
      | .waiting => (.waiting,[])
      | .eof => (.returned 0,[0])
      | .error => (.returned (-1),[]) := if_neg (by simp [Done])

theorem pieceEnd_cons {c : UInt8} (hc : c ≠ newline) (cnt left : ℕ) (piece : List UInt8)
    (closing : Closing) :
    pieceEnd cnt (left+1) (c :: piece) closing = pieceEnd (cnt+1) left piece closing := by
  have hlen : (cnt : ℤ)+((piece.length+1 : ℕ) : ℤ) = (cnt+1 : ℕ)+piece.length := by
    push_cast
    omega
  simp only [pieceEnd,done_cons hc,List.length_cons,hlen]

structure Takes (left cnt : ℕ) (r : Reader) (piece tail : List UInt8) (call : Call) : Prop where
  outcome : call.outcome = (pieceEnd cnt left piece r.closing).1
  stores : call.stores = Memory.storesFrom cnt (piece ++ (pieceEnd cnt left piece r.closing).2)
  rest : Done left piece → call.reader.incoming = tail
  within : r.Sound → (piece = [] → r.Within) → Done left piece → call.reader.Within

theorem threadReadlineLoop_takes (left cnt : ℕ) (r : Reader) (h : cnt+left < intMax) :
    Takes left cnt r (copyLine left r.incoming).1 (copyLine left r.incoming).2
      (threadReadlineLoop fd left cnt r) := by
  induction left generalizing cnt r with
  | zero =>
    have hend := pieceEnd_done cnt (Or.inr rfl : Done 0 []) r.closing
    refine ⟨?_,?_,fun _ => rfl,fun _ hstay _ => hstay rfl⟩
    · simp [threadReadlineLoop,copyLine,hend]
    · simp [threadReadlineLoop,copyLine,hend,Memory.storesFrom]
  | succ left ih =>
    rw [threadReadlineLoop,threadReadOne]
    cases hin : r.incoming with
    | nil =>
      have hopen : ¬ Done (left+1) [] := by simp [Done]
      have hend := myread_end fd hin
      rw [copyLine]
      cases hclosing : r.closing with
      | waiting =>
        rw [hclosing] at hend
        refine ⟨?_,?_,fun hdone => absurd hdone hopen,fun _ _ hdone => absurd hdone hopen⟩ <;>
          simp [hend,hclosing,pieceEnd_nil,Memory.storesFrom]
      | eof =>
        rw [hclosing] at hend
        obtain ⟨r',hread,-⟩ := hend
        refine ⟨?_,?_,fun hdone => absurd hdone hopen,fun _ _ hdone => absurd hdone hopen⟩ <;>
          simp [hread,hclosing,pieceEnd_nil,Memory.storesFrom]
      | error =>
        rw [hclosing] at hend
        obtain ⟨r',hread⟩ := hend
        refine ⟨?_,?_,fun hdone => absurd hdone hopen,fun _ _ hdone => absurd hdone hopen⟩ <;>
          simp [hread,hclosing,pieceEnd_nil,Memory.storesFrom]
    | cons c tail =>
      obtain ⟨r',hread,rfl,hclosing,hwithin⟩ := myread_next fd hin
      by_cases hc : c = newline
      · subst hc
        have hend := pieceEnd_done cnt (Or.inl ended_newline : Done (left+1) _) r.closing
        simp only [hread,copyLine,if_true]
        refine ⟨?_,?_,fun _ => rfl,fun hsound _ _ => hwithin hsound⟩
        · simp [hend]
        · simp [hend,Memory.storesFrom]
      · have hover : cnt+1 ≠ intMax := by omega
        obtain ⟨houtcome,hstores,hrest,hstay⟩ := ih (cnt+1) r' (by omega)
        simp only [hread,hc,hover,copyLine,if_false]
        rw [hclosing] at houtcome hstores
        refine ⟨?_,?_,?_,?_⟩
        · rw [pieceEnd_cons hc,houtcome]
        · rw [pieceEnd_cons hc,hstores]
          rfl
        · rw [done_cons hc]
          exact hrest
        · rw [done_cons hc]
          intro hsound _ hdone
          exact hstay (hwithin hsound).sound (fun _ => hwithin hsound) hdone

end Pieces

end ThreadReadline
end CPrograming
