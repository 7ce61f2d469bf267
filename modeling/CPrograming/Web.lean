import CPrograming.Runs
import CPrograming.Counting
import CPrograming.Keys
import CPrograming.WebRequest

/-!
# The non-blocking web client of `web.c`

`main` keeps at most `maxnconn` connections open at a time, watches them with one
`select` and moves each file from connecting to reading to done. The model starts
after the arguments and the home page have been dealt with. One step is one round
of one of the loops; the environment answers the calls that the step makes.
-/

namespace CPrograming
namespace Web

open Runs WebRequest

/-- The values of `f_flags`: 0, `F_CONNECTION`, `F_READING`, `F_DONE`. -/
inductive Flags
  | zero | connection | reading | done
  deriving DecidableEq, Repr

/-- `struct file`, without the host. -/
structure File where
  name : List UInt8
  fd : ℤ
  flags : Flags
  deriving DecidableEq

/-- Where `main` is. The arguments are values of its loop variable. -/
inductive Main (n : ℕ)
  | outer
  | spawn
  | find (i : ℕ)
  | start (i : Fin n)
  | select
  | scan (i : ℕ)
  | returned
  | exited
  | nothingFound
  deriving DecidableEq

inductive Event (n : ℕ)
  | startConnect (i : Fin n) (fd : ℤ)
  | writeGetCmd (i : Fin n) (fd : ℤ) (sent : List UInt8)
  | select (nfds : ℤ) (rset wset : FdSet)
  | read (i : Fin n) (fd : ℤ) (got : ReadAnswer)
  | close (i : Fin n) (fd : ℤ)
  | print (text : String) (args : List PrintArg)
  deriving DecidableEq

/-- The variables of the program, and `opened`, the descriptors the kernel has open
for the process. -/
structure State (n : ℕ) where
  file : Fin n → File
  main : Main n
  nconn : ℤ
  nlefttoconn : ℤ
  nlefttoread : ℤ
  maxfd : ℤ
  rset : FdSet
  wset : FdSet
  rs : FdSet
  ws : FdSet
  opened : Finset ℤ
  log : List (Event n)

/-- What the environment answers to the calls of a step, should they be made. `line`
is what the stack holds where `write_get_cmd` puts its line, and `sockopt` says that
`getsockopt` succeeds and reports no error. -/
structure Answers where
  socket : ℤ
  connect : ConnectAnswer
  write : List WriteAnswer
  line : Memory UInt8
  select : SelectAnswer
  sockopt : Bool
  read : ReadAnswer

/-- The outer loop is about to start. The descriptors of the files and the copies of
the sets are still unset. -/
def init {n : ℕ} (name : Fin n → List UInt8) (opened : Finset ℤ) : State n where
  file := fun i => ⟨name i,0,.zero⟩
  main := .outer
  nconn := 0
  nlefttoconn := n
  nlefttoread := n
  maxfd := -1
  rset := ∅
  wset := ∅
  rs := ∅
  ws := ∅
  opened := opened
  log := []

variable {n : ℕ}

def State.goto (s : State n) (m : Main n) : State n := { s with main := m }

def State.put (s : State n) (i : Fin n) (f : File) : State n :=
  { s with file := Function.update s.file i f }

def State.record (s : State n) (e : Event n) : State n := { s with log := s.log ++ [e] }

def State.print (s : State n) (text : String) (args : List PrintArg) : State n :=
  s.record (.print text args)

def State.andThen (s : State n) (f : State n → State n) : State n :=
  if s.main = .exited then s else f s

/-- `if (fd > maxfd) maxfd = fd;` -/
def raised (maxfd fd : ℤ) : ℤ := if maxfd < fd then fd else maxfd

/-- Nothing comes back while `written` is still in its loop. -/
def writeGetCmd (s : State n) (i : Fin n) (a : Answers) : Option (State n) :=
  let f := s.file i
  let (k,w) := sendRequest f.name a.line a.write
  w.ret.map fun _ =>
    let t := s.record (.writeGetCmd i f.fd w.sent)
    let t := t.print "wrote %d bytes for %s\n" [.int k,.str f.name]
    let t := t.put i { f with flags := .reading }
    { t with rset := insert f.fd t.rset, maxfd := raised t.maxfd f.fd }

/-- `socket` gives a descriptor that is not open and fits into the sets. -/
def startConnect (s : State n) (i : Fin n) (a : Answers) : Option (State n) :=
  let fd := a.socket
  if 0 ≤ fd ∧ fd < fdSetsize ∧ fd ∉ s.opened then
    let s := { s with opened := insert fd s.opened }
    let f := { s.file i with fd := fd }
    let s := (s.put i f).record (.startConnect i fd)
    let s := s.print "start_connect for %s, fd %d\n" [.str f.name,.int fd]
    match a.connect with
    | .fail => some ((s.print "nonblocking connect error\n" []).goto .exited)
    | .inProgress =>
      let t := s.put i { f with flags := .connection }
      some { t with
        rset := insert fd t.rset, wset := insert fd t.wset, maxfd := raised t.maxfd fd }
    | .connected => writeGetCmd s i a
  else none

def handle (s : State n) (i : Fin n) (a : Answers) : Option (State n) :=
  let f := s.file i
  if f.flags = .zero ∨ f.flags = .done then some s
  else if f.flags = .connection ∧ (f.fd ∈ s.rs ∨ f.fd ∈ s.ws) then
    if a.sockopt then
      let t := s.print "connection established for %s\n" [.str f.name]
      writeGetCmd { t with wset := t.wset.erase f.fd } i a
    else
      some ((s.print "nonblocking connect failed for %s" [.str f.name]).goto .exited)
  else if f.flags = .reading ∧ f.fd ∈ s.rs then
    let got := a.read.upTo maxLine
    let t := s.record (.read i f.fd got)
    if got.ret = 0 then
      let t := t.print "end-of-file on %s\n\n" [.str f.name]
      let t := { t with opened := t.opened.erase f.fd }.record (.close i f.fd)
      let t := t.put i { f with flags := .done }
      some { t with
        rset := t.rset.erase f.fd, nconn := t.nconn-1, nlefttoread := t.nlefttoread-1 }
    else some (t.print "read %d bytes from %s\n" [.int got.ret,.str f.name])
  else some s

def step (maxnconn : ℤ) (s : State n) (a : Answers) : Option (State n) :=
  match s.main with
  | .outer => some (s.goto (if 0 < s.nlefttoread then .spawn else .returned))
  | .spawn => some (s.goto (if s.nconn < maxnconn ∧ 0 < s.nlefttoconn then .find 0 else .select))
  | .find i =>
    if h : i < n then
      some (s.goto (if (s.file ⟨i,h⟩).flags = .zero then .start ⟨i,h⟩ else .find (i+1)))
    else
      some ((s.print "nlefttoconn = %d but nothing found\n" [.int s.nlefttoconn]).goto
        .nothingFound)
  | .start i =>
    (startConnect s i a).map fun t => t.andThen fun t =>
      { t.goto .spawn with nconn := t.nconn+1, nlefttoconn := t.nlefttoconn-1 }
  | .select =>
    let t := s.record (.select (s.maxfd+1) s.rset s.wset)
    some { t.goto (.scan 0) with rs := a.select.rset s.rset, ws := a.select.wset s.wset }
  | .scan i =>
    if h : i < n then
      (handle s ⟨i,h⟩ a).map fun t => t.andThen fun t => t.goto (.scan (i+1))
    else some (s.goto .outer)
  | .returned => none
  | .exited => none
  | .nothingFound => none

inductive Step (maxnconn : ℤ) (s : State n) (a : Answers) : State n → Prop
  | outer (hm : s.main = .outer) :
      Step maxnconn s a (s.goto (if 0 < s.nlefttoread then .spawn else .returned))
  | spawn (hm : s.main = .spawn) :
      Step maxnconn s a
        (s.goto (if s.nconn < maxnconn ∧ 0 < s.nlefttoconn then .find 0 else .select))
  | find (i : Fin n) (hm : s.main = .find i) :
      Step maxnconn s a (s.goto (if (s.file i).flags = .zero then .start i else .find (i+1)))
  | missing (i : ℕ) (hm : s.main = .find i) (hn : n ≤ i) :
      Step maxnconn s a ((s.print "nlefttoconn = %d but nothing found\n" [.int s.nlefttoconn]).goto
        .nothingFound)
  | start {u : State n} (i : Fin n) (hm : s.main = .start i) (hu : startConnect s i a = some u) :
      Step maxnconn s a (u.andThen fun t =>
        { t.goto .spawn with nconn := t.nconn+1, nlefttoconn := t.nlefttoconn-1 })
  | select (hm : s.main = .select) :
      Step maxnconn s a { (s.record (.select (s.maxfd+1) s.rset s.wset)).goto (.scan 0) with
        rs := a.select.rset s.rset, ws := a.select.wset s.wset }
  | scan {u : State n} (i : Fin n) (hm : s.main = .scan i) (hu : handle s i a = some u) :
      Step maxnconn s a (u.andThen fun t => t.goto (.scan (i+1)))
  | pass (i : ℕ) (hm : s.main = .scan i) (hn : n ≤ i) : Step maxnconn s a (s.goto .outer)

theorem step_cases {maxnconn : ℤ} {s t : State n} {a : Answers}
    (h : step maxnconn s a = some t) : Step maxnconn s a t := by
  simp only [step] at h
  cases hm : s.main <;> simp only [hm,reduceCtorEq,Option.some.injEq] at h
  case outer => exact h ▸ .outer hm
  case spawn => exact h ▸ .spawn hm
  case find i =>
    by_cases hn : i < n <;> simp only [hn,dite_true,dite_false,Option.some.injEq] at h
    · exact h ▸ .find ⟨i,hn⟩ hm
    · exact h ▸ .missing i hm (not_lt.mp hn)
  case start i =>
    obtain ⟨u,hu,rfl⟩ := Option.map_eq_some_iff.mp h
    exact .start i hm hu
  case select => exact h ▸ .select hm
  case scan i =>
    by_cases hn : i < n <;> simp only [hn,dite_true,dite_false,Option.some.injEq] at h
    · obtain ⟨u,hu,rfl⟩ := Option.map_eq_some_iff.mp h
      exact .scan ⟨i,hn⟩ hm hu
    · exact h ▸ .pass i hm (not_lt.mp hn)

end Web
end CPrograming
