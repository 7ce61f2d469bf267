import CPrograming.Runs
import CPrograming.LinearBuffer
import CPrograming.Posix

/-!
# The non-blocking relay of `select_client_unlock.c`

`unlock_str_cli` copies standard input to a socket and the socket to standard
output through two linear buffers, with all three descriptors non-blocking. One
pass of its loop is one step here; the environment answers `select`, the two
reads and the two writes of the pass. The log holds every call in order.
-/

namespace CPrograming
namespace UnlockStrCli

open Runs

/-- The calls of the relay, with the answer each one got. -/
inductive Call
  | select (nfds : ℤ) (rset wset : FdSet)
  | read (fd : ℤ) (ptr len : ℕ) (got : ReadAnswer)
  | write (fd : ℤ) (bytes : List UInt8) (got : WriteAnswer)
  | shutdownWr (fd : ℤ)
  | print (text : String) (args : List ℤ)
  deriving DecidableEq

def Call.input (fd : ℤ) : Call → List UInt8
  | .read fd' _ _ (.data bytes) => if fd' = fd then bytes else []
  | _ => []

def Call.output (fd : ℤ) : Call → List UInt8
  | .write fd' bytes (.accepted k) => if fd' = fd then bytes.take k else []
  | _ => []

def bytesRead (fd : ℤ) (log : List Call) : List UInt8 := log.flatMap (Call.input fd)

def bytesWritten (fd : ℤ) (log : List Call) : List UInt8 := log.flatMap (Call.output fd)

@[simp] theorem bytesRead_snoc (fd : ℤ) (log : List Call) (c : Call) :
    bytesRead fd (log ++ [c]) = bytesRead fd log ++ c.input fd := by
  simp [bytesRead]

@[simp] theorem bytesWritten_snoc (fd : ℤ) (log : List Call) (c : Call) :
    bytesWritten fd (log ++ [c]) = bytesWritten fd log ++ c.output fd := by
  simp [bytesWritten]

def eofSeen (fd : ℤ) (log : List Call) : Prop := ∃ ptr len, Call.read fd ptr len (.data []) ∈ log

inductive Status
  | running
  | returned
  | exited
  deriving DecidableEq, Repr

/-- The variables of the function; `toiptr` and `tooptr` are the offsets of `toBuf`,
`friptr` and `froptr` those of `frBuf`. -/
structure State where
  toBuf : LinearBuffer UInt8
  frBuf : LinearBuffer UInt8
  stdineof : Bool
  rset : FdSet
  wset : FdSet
  status : Status
  log : List Call

/-- The arrays and the sets are uninitialised; the offsets and `stdineof` are not. -/
def init (toMem frMem : Memory UInt8) : State where
  toBuf := ⟨toMem,0,0⟩
  frBuf := ⟨frMem,0,0⟩
  stdineof := false
  rset := ∅
  wset := ∅
  status := .running
  log := []

def State.record (s : State) (c : Call) : State := { s with log := s.log ++ [c] }

def State.exit (s : State) : State := { s with status := .exited }

/-- Continue unless the function has returned or the process has exited. -/
def State.andThen (s : State) (f : State → State) : State :=
  if s.status = .running then f s else s

def maxfd (sockfd : ℤ) : ℤ := max (max stdinFileno stdoutFileno) sockfd + 1

/-- The sets to watch: room in a buffer for reading, data in it for writing. -/
def interest (sockfd : ℤ) (s : State) : State :=
  let rset : FdSet := ∅
  let wset : FdSet := ∅
  let rset := if s.stdineof = false ∧ s.toBuf.iptr < maxLine then insert stdinFileno rset else rset
  let rset := if s.frBuf.iptr < maxLine then insert sockfd rset else rset
  let wset := if s.toBuf.optr ≠ s.toBuf.iptr then insert sockfd wset else wset
  let wset := if s.frBuf.iptr ≠ s.frBuf.optr then insert stdoutFileno wset else wset
  { s with rset := rset, wset := wset }

def select (sockfd : ℤ) (a : SelectAnswer) (s : State) : State :=
  let t := s.record (.select (maxfd sockfd) s.rset s.wset)
  let t := { t with rset := a.rset s.rset, wset := a.wset s.wset }
  t.record (.print "nready = %d\n" [a.nready s.rset s.wset])

def readStdin (sockfd : ℤ) (a : ReadAnswer) (s : State) : State :=
  if stdinFileno ∈ s.rset then
    let len := maxLine-s.toBuf.iptr
    let got := a.upTo len
    let t := s.record (.read stdinFileno s.toBuf.iptr len got)
    match got with
    | .fail e =>
      if e ≠ .ewouldblock then (t.record (.print "read error on stdin\n" [])).exit else t
    | .data [] =>
      let t := { t.record (.print "EOF on stdin\n" []) with stdineof := true }
      if t.toBuf.optr = t.toBuf.iptr then t.record (.shutdownWr sockfd) else t
    | .data (b :: bs) =>
      let t := t.record (.print "read %ld bytes from stdin\n" [(b :: bs).length])
      { t with toBuf := t.toBuf.fill (b :: bs), wset := insert sockfd t.wset }
  else s

def readSocket (sockfd : ℤ) (a : ReadAnswer) (s : State) : State :=
  if sockfd ∈ s.rset then
    let len := maxLine-s.frBuf.iptr
    let got := a.upTo len
    let t := s.record (.read sockfd s.frBuf.iptr len got)
    match got with
    | .fail e =>
      if e ≠ .ewouldblock then (t.record (.print "read error on sockfd\n" [])).exit else t
    | .data [] =>
      let t := t.record (.print "EOF on socket\n" [])
      if t.stdineof = true then { t with status := .returned }
      else (t.record (.print "str_cli: server terminated prematurely\n" [])).exit
    | .data (b :: bs) =>
      let t := t.record (.print "read %ld bytes from socket\n" [(b :: bs).length])
      { t with frBuf := t.frBuf.fill (b :: bs), wset := insert stdoutFileno t.wset }
  else s

def writeStdout (a : WriteAnswer) (s : State) : State :=
  let n := s.frBuf.iptr-s.frBuf.optr
  if stdoutFileno ∈ s.wset ∧ 0 < n then
    let got := a.upTo n
    let t := s.record (.write stdoutFileno (s.frBuf.mem.load s.frBuf.optr n) got)
    match got with
    | .fail e =>
      if e ≠ .ewouldblock then (t.record (.print "write error to stdout\n" [])).exit else t
    | .accepted k =>
      let t := t.record (.print "wrote %ld bytes to stdout\n" [k])
      { t with frBuf := t.frBuf.drain k }
  else s

def writeSocket (sockfd : ℤ) (a : WriteAnswer) (s : State) : State :=
  let n := s.toBuf.iptr-s.toBuf.optr
  if sockfd ∈ s.wset ∧ 0 < n then
    let got := a.upTo n
    let t := s.record (.write sockfd (s.toBuf.mem.load s.toBuf.optr n) got)
    match got with
    | .fail e =>
      if e ≠ .ewouldblock then (t.record (.print "write error to sockfd\n" [])).exit else t
    | .accepted k =>
      let t := t.record (.print "wrote %ld bytes to sockfd\n" [k])
      let t := { t with toBuf := s.toBuf.drain k }
      if s.toBuf.optr+k = s.toBuf.iptr ∧ s.stdineof = true then t.record (.shutdownWr sockfd) else t
  else s

structure Answers where
  sel : SelectAnswer
  stdin : ReadAnswer
  sock : ReadAnswer
  stdout : WriteAnswer
  sockOut : WriteAnswer

def iteration (sockfd : ℤ) (a : Answers) (s : State) : State :=
  ((((select sockfd a.sel (interest sockfd s)).andThen (readStdin sockfd a.stdin)).andThen
    (readSocket sockfd a.sock)).andThen (writeStdout a.stdout)).andThen
    (writeSocket sockfd a.sockOut)

def step (sockfd : ℤ) (s : State) (a : Answers) : Option State :=
  if s.status = .running then some (iteration sockfd a s) else none

/-- The descriptor that `main` hands over. `socket` returned it while standard
input and standard output were open, so it is neither of them. -/
structure Socket where
  fd : ℤ
  ne_stdin : fd ≠ stdinFileno
  ne_stdout : fd ≠ stdoutFileno

end UnlockStrCli
end CPrograming
