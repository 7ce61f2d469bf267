import CPrograming.Runs
import CPrograming.Counting
import CPrograming.Monitor
import CPrograming.Posix

/-!
# The threaded web client of `web_thread.c`

`main` starts one `do_get_read` thread for each file, at most `maxnconn` at a
time, and joins them as they finish. The threads meet in the flags of the files,
the counter `ndone`, its mutex and its condition variable. One step here is one
operation on these of one thread; the environment picks the thread and answers
the calls in between. `pthread_create` is taken to succeed.
-/

namespace CPrograming
namespace WebThread

open Runs Monitor

/-- The values of `f_flags`: 0, `F_CONNECTION`, `F_READING`, `F_DONE`, `F_JOINED`. -/
inductive Flags
  | zero | connection | reading | done | joined
  deriving DecidableEq, Repr

inductive Worker
  | idle
  | connect
  | request
  | setReading
  | read
  | close
  | setDone
  | lock
  | signal
  | unlock
  | exited
  deriving DecidableEq, Repr

/-- `struct file`, with the thread that works on it. Threads are named by the file
they were created for. -/
structure File (n : ℕ) where
  flags : Flags
  fd : ℤ
  tid : Option (Fin n)
  worker : Worker
  deriving DecidableEq

inductive Main (n : ℕ)
  | outer
  | spawn
  | find (i : ℕ)
  | setConnection (i : Fin n)
  | create (i : Fin n)
  | storeTid (i : Fin n)
  | lock
  | test
  | waiting
  | woken
  | reap (i : ℕ)
  | join (i : Fin n)
  | setJoined (i : Fin n)
  | tally (i : Fin n)
  | unlock
  | report
  | returned
  | nothingFound
  deriving DecidableEq

inductive Event (n : ℕ)
  | create (i : Fin n)
  | join (i : Fin n)
  | lock
  | unlock
  | print (nlefttoread ndone : ℤ)
  deriving DecidableEq

structure State (n : ℕ) where
  file : Fin n → File n
  main : Main n
  mutex : Option (Owner n)
  ndone : ℤ
  nconn : ℤ
  nlefttoconn : ℤ
  nlefttoread : ℤ
  log : List (Event n)

/-- The outer loop is about to start; the descriptor of a file is still unset. -/
def init (n : ℕ) : State n where
  file := fun _ => ⟨.zero,0,none,.idle⟩
  main := .outer
  mutex := none
  ndone := 0
  nconn := 0
  nlefttoconn := n
  nlefttoread := n
  log := []

variable {n : ℕ}

def State.goto (s : State n) (m : Main n) : State n := { s with main := m }

def State.put (s : State n) (i : Fin n) (f : File n) : State n :=
  { s with file := Function.update s.file i f }

def State.record (s : State n) (e : Event n) : State n := { s with log := s.log ++ [e] }

def State.acquire (s : State n) (o : Owner n) : Option (State n) :=
  Monitor.acquire s.mutex (fun m => { s with mutex := m }) o

def State.release (s : State n) : State n := { s with mutex := none }

def State.signal (s : State n) : State n :=
  Monitor.signal (s.main = .waiting) (s.goto .woken) s

def mainStep (maxnconn : ℤ) (s : State n) : Option (State n) :=
  match s.main with
  | .outer => some (s.goto (if 0 < s.nlefttoread then .spawn else .returned))
  | .spawn => some (s.goto (if s.nconn < maxnconn ∧ 0 < s.nlefttoconn then .find 0 else .lock))
  | .find i =>
    if h : i < n then
      some (s.goto (if (s.file ⟨i,h⟩).flags = .zero then .setConnection ⟨i,h⟩ else .find (i+1)))
    else some (s.goto .nothingFound)
  | .setConnection i => some ((s.put i { s.file i with flags := .connection }).goto (.create i))
  | .create i =>
    some (((s.put i { s.file i with worker := .connect }).record (.create i)).goto (.storeTid i))
  | .storeTid i =>
    some { (s.put i { s.file i with tid := some i }).goto .spawn with
      nconn := s.nconn+1, nlefttoconn := s.nlefttoconn-1 }
  | .lock => (s.acquire .main).map fun t => (t.record .lock).goto .test
  | .test => some (if s.ndone = 0 then s.release.goto .waiting else s.goto (.reap 0))
  | .waiting => none
  | .woken => (s.acquire .main).map fun t => t.goto .test
  | .reap i =>
    if h : i < n then
      some (s.goto (if (s.file ⟨i,h⟩).flags = .done then .join ⟨i,h⟩ else .reap (i+1)))
    else some (s.goto .unlock)
  | .join i =>
    match (s.file i).tid with
    | none => none
    | some j =>
      if (s.file j).worker = .exited then some ((s.record (.join j)).goto (.setJoined i)) else none
  | .setJoined i => some ((s.put i { s.file i with flags := .joined }).goto (.tally i))
  | .tally i =>
    some { s.goto (.reap (i+1)) with
      nconn := s.nconn-1, nlefttoread := s.nlefttoread-1, ndone := s.ndone-1 }
  | .unlock => some ((s.release.record .unlock).goto .report)
  | .report => some ((s.record (.print s.nlefttoread s.ndone)).goto .outer)
  | .returned => none
  | .nothingFound => none

/-- The next step of the thread of file `i`, if it is not blocked: `fd` is what
`tcp_connect` returns and `got` the answer to `read`, where these are called. The
thread increments `ndone` and signals in one step; it holds the mutex for both. -/
def workerStep (s : State n) (i : Fin n) (fd : ℤ) (got : ReadAnswer) : Option (State n) :=
  let f := s.file i
  match f.worker with
  | .idle => none
  | .connect => some (s.put i { f with fd := fd, worker := .request })
  | .request => some (s.put i { f with worker := .setReading })
  | .setReading => some (s.put i { f with flags := .reading, worker := .read })
  | .read => some (s.put i { f with worker := if got = .data [] then .close else .read })
  | .close => some (s.put i { f with worker := .setDone })
  | .setDone => some (s.put i { f with flags := .done, worker := .lock })
  | .lock => (s.acquire (.worker i)).map fun t => t.put i { f with worker := .signal }
  | .signal => some { (s.put i { f with worker := .unlock }).signal with ndone := s.ndone+1 }
  | .unlock => some (s.release.put i { f with worker := .exited })
  | .exited => none

/-- Whose turn it is. A thread in `pthread_cond_wait` may also wake up by itself. -/
inductive Action (n : ℕ)
  | main
  | spurious
  | worker (i : Fin n) (fd : ℤ) (got : ReadAnswer)

def step (maxnconn : ℤ) (s : State n) : Action n → Option (State n)
  | .main => mainStep maxnconn s
  | .spurious => if s.main = .waiting then some (s.goto .woken) else none
  | .worker i fd got => workerStep s i fd got

end WebThread
end CPrograming
