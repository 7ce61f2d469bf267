import CPrograming.Runs

/-!
# The threads of `thread_server.c`

In each pass of its loop `main` allocates a cell, stores a descriptor from `accept` there and
creates a thread with the cell as its argument. The thread reads the cell, frees it, serves
the descriptor and closes it. `malloc` may give a cell again that has been freed, and `accept`
a descriptor that has been closed. `malloc` and `pthread_create` are taken to succeed.
-/

namespace CPrograming
namespace ThreadServer

open Runs

/-- The next statement of the loop of `main`, with its variable `connfd`. -/
inductive Main
  | malloc
  | accept (connfd : ℕ)
  | create (connfd : ℕ)
  deriving DecidableEq, Repr

/-- The next statement of `doit`; at `echo` it is in `str_echo`. -/
inductive Place
  | load
  | free
  | serve
  | echo
  | close
  | returned
  deriving DecidableEq, Repr

structure Worker where
  arg : ℕ
  place : Place
  socket : ℤ
  deriving DecidableEq, Repr

/-- What the threads do to cells and descriptors, with the number of the pass that it belongs
to. A `load` has the contents of the cell, or nothing if the cell is not allocated. -/
inductive Event
  | malloc (pass cell : ℕ)
  | accept (pass cell : ℕ) (fd : ℤ)
  | create (pass cell : ℕ)
  | load (pass cell : ℕ) (contents : Option ℤ)
  | free (pass cell : ℕ)
  | serve (pass : ℕ) (fd : ℤ)
  | close (pass : ℕ) (fd : ℤ)
  deriving DecidableEq, Repr

def Event.pass : Event → ℕ
  | .malloc k _ | .accept k _ _ | .create k _ | .load k _ _ | .free k _ => k
  | .serve k _ | .close k _ => k

/-- The allocated cells with their contents, the open descriptors, and the threads in the order
of their creation. -/
structure State where
  main : Main
  heap : ℕ → Option ℤ
  opened : Finset ℤ
  threads : ℕ
  worker : ℕ → Worker
  log : List Event

def start (opened : Finset ℤ) : State :=
  ⟨.malloc,fun _ => none,opened,0,fun _ => ⟨0,.load,0⟩,[]⟩

inductive Action
  | malloc (cell : ℕ) (contents : ℤ)
  | accept (fd : ℕ)
  | acceptFail
  | create
  | worker (k : ℕ)
  deriving DecidableEq, Repr

def State.record (s : State) (e : Event) : State := { s with log := s.log ++ [e] }

def State.store (s : State) (cell : ℕ) (fd : ℤ) : State :=
  { s with main := .create cell, heap := Function.update s.heap cell (some fd) }.record
    (.accept s.threads cell fd)

def State.become (s : State) (k : ℕ) (w : Worker) : State :=
  { s with worker := Function.update s.worker k w }

def doit (s : State) (k : ℕ) : Option State :=
  let w := s.worker k
  match w.place with
  | .load =>
    some ((s.become k ⟨w.arg,.free,(s.heap w.arg).getD 0⟩).record
      (.load k w.arg (s.heap w.arg)))
  | .free =>
    some ({ s.become k { w with place := .serve } with
      heap := Function.update s.heap w.arg none }.record (.free k w.arg))
  | .serve => some ((s.become k { w with place := .echo }).record (.serve k w.socket))
  | .echo => some (s.become k { w with place := .close })
  | .close =>
    some ({ s.become k { w with place := .returned } with
      opened := s.opened.erase w.socket }.record (.close k w.socket))
  | .returned => none

def step (s : State) : Action → Option State
  | .malloc cell contents =>
    if s.main = .malloc ∧ s.heap cell = none then
      some ({ s with
        main := .accept cell
        heap := Function.update s.heap cell (some contents) }.record (.malloc s.threads cell))
    else none
  | .accept fd =>
    match s.main with
    | .accept cell =>
      if (fd : ℤ) ∉ s.opened then some ({ s with opened := insert (fd : ℤ) s.opened }.store cell fd)
      else none
    | _ => none
  | .acceptFail =>
    match s.main with
    | .accept cell => some (s.store cell (-1))
    | _ => none
  | .create =>
    match s.main with
    | .create cell =>
      some ({ s with
        main := .malloc
        threads := s.threads+1
        worker := Function.update s.worker s.threads ⟨cell,.load,0⟩ }.record
          (.create s.threads cell))
    | _ => none
  | .worker k => if k < s.threads then doit s k else none

section Specification

def Event.touches (cell : ℕ) : Event → Bool
  | .malloc _ p | .accept _ p _ | .free _ p => p = cell
  | _ => false

def Event.moves (fd : ℤ) : Event → Bool
  | .accept _ _ v | .close _ v => v = fd
  | _ => false

def lastCell (cell : ℕ) (log : List Event) : Option Event := lastOf (Event.touches cell) log

def lastFd (fd : ℤ) (log : List Event) : Option Event := lastOf (Event.moves fd) log

/-- What must have happened before an event: a cell that is read or freed was last assigned in
the same pass, and the value read is the one assigned; a descriptor that is served or closed
was last opened in the same pass. A cell is allocated and a descriptor opened only while no
pass has it. -/
def Legal (pre : List Event) : Event → Prop
  | .malloc _ p => ∀ e, lastCell p pre = some e → ∃ j, e = .free j p
  | .accept k p v => lastCell p pre = some (.malloc k p) ∧
      (0 ≤ v → ∀ e, lastFd v pre = some e → ∃ j, e = .close j v)
  | .create k p => ∃ v, lastCell p pre = some (.accept k p v)
  | .load k p x => ∃ v, lastCell p pre = some (.accept k p v) ∧ x = some v
  | .free k p => ∃ v, lastCell p pre = some (.accept k p v)
  | .serve k v | .close k v => 0 ≤ v → ∃ p, lastFd v pre = some (.accept k p v)

/-- Everything that happens to the cell and the descriptor of a pass, each once. -/
def script (k p : ℕ) (v : ℤ) : List Event :=
  [.malloc k p,.accept k p v,.create k p,.load k p (some v),.free k p,.serve k v,.close k v]

def eventsOf (k : ℕ) (log : List Event) : List Event := log.filter fun e => e.pass = k

def Main.stage : Main → ℕ
  | .malloc => 0
  | .accept _ => 1
  | .create _ => 2

def Place.stage : Place → ℕ
  | .load => 3
  | .free => 4
  | .serve => 5
  | .echo | .close => 6
  | .returned => 7

def State.stage (s : State) (k : ℕ) : ℕ :=
  if k < s.threads then (s.worker k).place.stage
  else if k = s.threads then s.main.stage
  else 0

def Place.steps : Place → ℕ
  | .load => 0
  | .free => 1
  | .serve => 2
  | .echo => 3
  | .close => 4
  | .returned => 5

end Specification

section Steps

inductive Step (s : State) : Action → State → Prop
  | malloc (p : ℕ) (x : ℤ) (hmain : s.main = .malloc) (hfree : s.heap p = none) :
      Step s (.malloc p x) ⟨.accept p,Function.update s.heap p (some x),s.opened,s.threads,s.worker,
        s.log ++ [.malloc s.threads p]⟩
  | accept (p fd : ℕ) (hmain : s.main = .accept p) (hfd : (fd : ℤ) ∉ s.opened) :
      Step s (.accept fd) ⟨.create p,Function.update s.heap p (some fd),insert (fd : ℤ) s.opened,
        s.threads,s.worker,s.log ++ [.accept s.threads p fd]⟩
  | acceptFail (p : ℕ) (hmain : s.main = .accept p) :
      Step s .acceptFail ⟨.create p,Function.update s.heap p (some (-1)),s.opened,s.threads,
        s.worker,
        s.log ++ [.accept s.threads p (-1)]⟩
  | create (p : ℕ) (hmain : s.main = .create p) :
      Step s .create ⟨.malloc,s.heap,s.opened,s.threads+1,
        Function.update s.worker s.threads ⟨p,.load,0⟩,s.log ++ [.create s.threads p]⟩
  | load (k p : ℕ) (socket : ℤ) (hk : k < s.threads) (hw : s.worker k = ⟨p,.load,socket⟩) :
      Step s (.worker k) ⟨s.main,s.heap,s.opened,s.threads,
        Function.update s.worker k ⟨p,.free,(s.heap p).getD 0⟩,s.log ++ [.load k p (s.heap p)]⟩
  | free (k p : ℕ) (v : ℤ) (hk : k < s.threads) (hw : s.worker k = ⟨p,.free,v⟩) :
      Step s (.worker k) ⟨s.main,Function.update s.heap p none,s.opened,s.threads,
        Function.update s.worker k ⟨p,.serve,v⟩,s.log ++ [.free k p]⟩
  | serve (k p : ℕ) (v : ℤ) (hk : k < s.threads) (hw : s.worker k = ⟨p,.serve,v⟩) :
      Step s (.worker k) ⟨s.main,s.heap,s.opened,s.threads,
        Function.update s.worker k ⟨p,.echo,v⟩,s.log ++ [.serve k v]⟩
  | echo (k p : ℕ) (v : ℤ) (hk : k < s.threads) (hw : s.worker k = ⟨p,.echo,v⟩) :
      Step s (.worker k) ⟨s.main,s.heap,s.opened,s.threads,
        Function.update s.worker k ⟨p,.close,v⟩,s.log⟩
  | close (k p : ℕ) (v : ℤ) (hk : k < s.threads) (hw : s.worker k = ⟨p,.close,v⟩) :
      Step s (.worker k) ⟨s.main,s.heap,s.opened.erase v,s.threads,
        Function.update s.worker k ⟨p,.returned,v⟩,s.log ++ [.close k v]⟩

variable {s t : State}

theorem doit_cases {k : ℕ} (hk : k < s.threads) (h : doit s k = some t) :
    Step s (.worker k) t := by
  rcases hw : s.worker k with ⟨p,place,v⟩
  simp only [doit,hw] at h
  cases place with
  | load =>
    obtain rfl := Option.some.inj h
    exact .load k p v hk hw
  | free =>
    obtain rfl := Option.some.inj h
    exact .free k p v hk hw
  | serve =>
    obtain rfl := Option.some.inj h
    exact .serve k p v hk hw
  | echo =>
    obtain rfl := Option.some.inj h
    exact .echo k p v hk hw
  | close =>
    obtain rfl := Option.some.inj h
    exact .close k p v hk hw
  | returned => cases h

theorem step_cases {a : Action} (h : step s a = some t) : Step s a t := by
  cases a with
  | malloc p x =>
    simp only [step] at h
    split_ifs at h with hguard
    obtain rfl := Option.some.inj h
    exact .malloc p x hguard.1 hguard.2
  | accept fd =>
    simp only [step] at h
    split at h
    next p hmain =>
      split_ifs at h with hfd
      obtain rfl := Option.some.inj h
      exact .accept p fd hmain hfd
    next => cases h
  | acceptFail =>
    simp only [step] at h
    split at h
    next p hmain =>
      obtain rfl := Option.some.inj h
      exact .acceptFail p hmain
    next => cases h
  | create =>
    simp only [step] at h
    split at h
    next p hmain =>
      obtain rfl := Option.some.inj h
      exact .create p hmain
    next => cases h
  | worker k =>
    simp only [step] at h
    split_ifs at h with hk
    exact doit_cases hk h

end Steps

end ThreadServer
end CPrograming
