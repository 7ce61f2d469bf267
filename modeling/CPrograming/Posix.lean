import Mathlib.Data.Finset.Basic
import Mathlib.Tactic

/-!
# Answers of the kernel

The system calls of the programs are answered by the environment. An answer
here is what the kernel would like to give; the call itself truncates it to the
length or the descriptor sets that the program asked for, so quantifying over
all answers is quantifying over all results of the call.
-/

namespace CPrograming

/-- An `fd_set`: `FD_ZERO` is `∅`, `FD_SET` inserts, `FD_CLR` erases, `FD_ISSET` is membership. -/
abbrev FdSet := Finset ℤ

/-- `EWOULDBLOCK` and `EAGAIN` are one value. -/
inductive Errno
  | eintr | ewouldblock | other
  deriving DecidableEq, Repr

/-- No data is end of file. -/
inductive ReadAnswer
  | data (bytes : List UInt8)
  | fail (errno : Errno)
  deriving DecidableEq, Repr

/-- `read` stores at most the requested number of bytes. In particular a request
for nothing returns 0, as end of file does. -/
def ReadAnswer.upTo (len : ℕ) : ReadAnswer → ReadAnswer
  | .data bytes => .data (bytes.take len)
  | .fail errno => .fail errno

theorem ReadAnswer.upTo_length {len : ℕ} {a : ReadAnswer} {bytes : List UInt8}
    (h : a.upTo len = .data bytes) : bytes.length ≤ len := by
  cases a with
  | data all =>
    obtain rfl : all.take len = bytes := ReadAnswer.data.inj h
    exact List.length_take_le len all
  | fail errno => simp [upTo] at h

def ReadAnswer.ret : ReadAnswer → ℤ
  | .data bytes => bytes.length
  | .fail _ => -1

def ReadAnswer.bytes : ReadAnswer → List UInt8
  | .data bytes => bytes
  | .fail _ => []

inductive WriteAnswer
  | accepted (count : ℕ)
  | fail (errno : Errno)
  deriving DecidableEq, Repr

def WriteAnswer.upTo (len : ℕ) : WriteAnswer → WriteAnswer
  | .accepted count => .accepted (min count len)
  | .fail errno => .fail errno

theorem WriteAnswer.upTo_le {len k : ℕ} {a : WriteAnswer} (h : a.upTo len = .accepted k) :
    k ≤ len := by
  cases a with
  | accepted count =>
    obtain rfl : min count len = k := WriteAnswer.accepted.inj h
    exact Nat.min_le_right count len
  | fail errno => simp [upTo] at h

/-- A failing `select` leaves the sets as they were passed. -/
inductive SelectAnswer
  | ready (readable writable : FdSet)
  | fail
  deriving DecidableEq

/-- Descriptors from `nfds` on are not looked at. -/
def SelectAnswer.below (nfds : ℤ) : SelectAnswer → SelectAnswer
  | .ready readable writable => .ready (readable.filter (· < nfds)) (writable.filter (· < nfds))
  | .fail => .fail

def SelectAnswer.rset (rset : FdSet) : SelectAnswer → FdSet
  | .ready readable _ => rset ∩ readable
  | .fail => rset

def SelectAnswer.wset (wset : FdSet) : SelectAnswer → FdSet
  | .ready _ writable => wset ∩ writable
  | .fail => wset

/-- The return value: the number of ready descriptors, or -1. -/
def SelectAnswer.nready (rset wset : FdSet) : SelectAnswer → ℤ
  | .ready readable writable => (rset ∩ readable).card + (wset ∩ writable).card
  | .fail => -1

theorem SelectAnswer.rset_subset (rset : FdSet) (a : SelectAnswer) : a.rset rset ⊆ rset := by
  cases a with
  | ready readable writable => exact Finset.inter_subset_left
  | fail => exact Finset.Subset.refl rset

theorem SelectAnswer.wset_subset (wset : FdSet) (a : SelectAnswer) : a.wset wset ⊆ wset := by
  cases a with
  | ready readable writable => exact Finset.inter_subset_left
  | fail => exact Finset.Subset.refl wset

inductive ConnectAnswer
  | connected
  | inProgress
  | fail
  deriving DecidableEq, Repr

def fdSetsize : ℤ := 1024

inductive PrintArg
  | str (bytes : List UInt8)
  | int (value : ℤ)
  deriving DecidableEq, Repr

def ascii (text : String) : List UInt8 := text.toList.map fun c => c.toNat.toUInt8

def stdinFileno : ℤ := 0
def stdoutFileno : ℤ := 1

/-- `MAXLINE` of `common.c`. -/
def maxLine : ℕ := 1024

theorem maxLine_pos : 0 < maxLine := by decide

end CPrograming
