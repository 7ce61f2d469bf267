import CPrograming.EchoServer

/-!
# The echo server of `poll_server.c`

The same service over `poll`: entry 0 of `client` is the listening socket, a new
connection gets the first other entry whose descriptor is negative, and the entries up
to `maxi` are scanned for what `poll` left in `revents`. The array has `m+1` entries
(`OPEN_MAX`); only the descriptors, and the events of entry 0, are set before the loop.
-/

namespace CPrograming
namespace PollServer

open Runs SocketFunc EchoServer

@[ext] structure PollFd where
  fd : ℤ
  events : BitVec 16
  revents : BitVec 16
  deriving DecidableEq

def pollrdnorm : BitVec 16 := 0x40
def pollerr : BitVec 16 := 0x8
def pollhup : BitVec 16 := 0x10
def pollnval : BitVec 16 := 0x20

/-- The bits of `revents` for which the scan reads. -/
def readable : BitVec 16 := pollrdnorm ||| pollerr

/-- A failing `poll` leaves the array as it was passed. -/
inductive PollAnswer
  | ready (revents : ℕ → BitVec 16)
  | fail

/-- `poll` reports requested events and errors, and nothing for a negative descriptor. -/
def PollFd.answered (p : PollFd) (revents : BitVec 16) : PollFd :=
  { p with
    revents := if p.fd < 0 then 0 else revents &&& (p.events ||| pollerr ||| pollhup ||| pollnval) }

/-- Where `main` is; the argument is the loop variable of the scan. -/
inductive Main
  | head
  | accepting
  | scan (i : ℕ)
  | undefined
  deriving DecidableEq

structure Polled where
  nready : ℤ
  entries : List (ℤ × BitVec 16)
  deriving DecidableEq

/-- The variables of `main`; `base` are the descriptors that were open before the loop. -/
structure State (m : ℕ) where
  listenfd : ℤ
  client : Fin (m+1) → PollFd
  maxi : ℕ
  nready : ℤ
  buffer : Memory UInt8
  main : Main
  base : FdSet
  log : List (Event Polled)

/-- What the environment answers to the calls of a step, should they be made. `reset`
says that `errno` is `ECONNRESET` when `read` fails. -/
structure Answers where
  poll : PollAnswer
  accept : ℤ
  read : ReadAnswer
  reset : Bool
  write : List WriteAnswer

variable {m : ℕ}

def start (base : FdSet) (listenfd : ℤ) (garbage : Fin (m+1) → PollFd) (buffer : Memory UInt8) :
    State m where
  listenfd := listenfd
  client := fun i =>
    if i = 0 then { garbage i with fd := listenfd, events := pollrdnorm }
    else { garbage i with fd := -1 }
  maxi := 0
  nready := 0
  buffer := buffer
  main := .head
  base := base
  log := []

def State.opened (s : State m) : FdSet := openAfter s.base s.log

def polled (m maxi : ℕ) : List (Fin (m+1)) := (List.finRange (m+1)).take (maxi+1)

def State.answered (s : State m) : PollAnswer → Fin (m+1) → PollFd
  | .ready revents => fun i => if i ≤ s.maxi then (s.client i).answered (revents i) else s.client i
  | .fail => s.client

@[simp] theorem State.answered_fd (s : State m) (a : PollAnswer) (i : Fin (m+1)) :
    (s.answered a i).fd = (s.client i).fd := by
  cases a with
  | ready revents =>
    simp only [State.answered]
    split_ifs <;> rfl
  | fail => rfl

def State.wait (s : State m) (a : PollAnswer) : State m :=
  let client := s.answered a
  let nready : ℤ :=
    match a with
    | .ready _ => (polled m s.maxi).countP fun i => (client i).revents ≠ 0
    | .fail => -1
  let entries := (polled m s.maxi).map fun i => ((client i).fd,(client i).revents)
  { s with
    client := client
    nready := nready
    main := if (client 0).revents &&& pollrdnorm ≠ 0 then .accepting else .scan 1
    log := s.log ++ [.wait ⟨nready,entries⟩,.print "nready = %d\n" [.int nready]] }

def freeSlot (client : Fin (m+1) → PollFd) : Option (Fin (m+1)) :=
  Fin.find? fun i => i ≠ 0 ∧ (client i).fd < 0

theorem freeSlot_free {client : Fin (m+1) → PollFd} {i : Fin (m+1)}
    (h : freeSlot client = some i) : i ≠ 0 ∧ (client i).fd < 0 := by
  simpa using Fin.eq_true_of_find?_eq_some h

theorem freeSlot_le {client : Fin (m+1) → PollFd} {i j : Fin (m+1)}
    (h : freeSlot client = some i) (hj : j ≠ 0) (hfree : (client j).fd < 0) : i ≤ j := by
  by_contra hlt
  have hbefore := Fin.eq_false_of_find?_eq_some_of_lt h j (not_le.mp hlt)
  simp [hj,hfree] at hbefore

def State.accept (s : State m) (fd : ℤ) : State m :=
  match freeSlot s.client with
  | none =>
    { s with
      main := .head
      log := s.log ++ [.accept fd,.print "too many connections\n" [],.close fd] }
  | some i =>
    { s with
      client := Function.update s.client i { s.client i with fd := fd, events := pollrdnorm }
      maxi := max s.maxi i
      nready := s.nready-1
      main := if s.nready-1 ≤ 0 then .head else .scan 1
      log := s.log ++ [.accept fd] }

def release (client : Fin (m+1) → PollFd) (i : Fin (m+1)) : Fin (m+1) → PollFd :=
  Function.update client i { client i with fd := -1 }

/-- The `read` from a ready entry and what follows it. At end of file the entry is
released before `close` looks at it. Nothing comes back while `written` is still in its
loop. -/
def State.readClient (s : State m) (i : Fin (m+1)) (a : Answers) : Option (State m) :=
  let fd := (s.client i).fd
  match readOpen s.opened fd a.read with
  | .fail e =>
    if e = .other ∧ fd ∈ s.opened ∧ a.reset then
      some { s with
        client := release s.client i
        log := s.log ++ [.read fd (.fail e),.close fd] }
    else
      some { s with log := s.log ++ [.read fd (.fail e),.print "read error\n" []] }
  | .data [] =>
    some { s with
      client := release s.client i
      log := s.log ++ [.read fd (.data []),.close (release s.client i i).fd] }
  | .data (b :: bytes) =>
    let buffer := s.buffer.store 0 (b :: bytes)
    let w := written buffer (b :: bytes).length a.write
    w.ret.map fun ret =>
      { s with
        buffer := buffer
        log := s.log ++ [.read fd (.data (b :: bytes)),.write fd w.sent ret] }

def State.report (s : State m) (i : Fin (m+1)) : Event Polled :=
  let revents := (s.client i).revents
  .print "client[%d].revents = %d; result = %d; val = %d\n"
    [.int i,.int revents.toInt,.int (revents &&& readable).toNat,.int readable.toNat]

def State.printed (s : State m) (i : Fin (m+1)) : State m :=
  { s with main := .scan (i+1), log := s.log ++ [s.report i] }

/-- The body of the scan. -/
def State.visit (s : State m) (i : Fin (m+1)) (a : Answers) : Option (State m) :=
  if (s.client i).revents &&& readable ≠ 0 then (s.printed i).readClient i a
  else some (s.printed i)

def step (s : State m) (a : Answers) : Option (State m) :=
  match s.main with
  | .head => some (s.wait a.poll)
  | .accepting => if acceptable s.opened a.accept then some (s.accept a.accept) else none
  | .scan i =>
    if i ≤ s.maxi then
      if h : i < m+1 then s.visit ⟨i,h⟩ a else some { s with main := .undefined }
    else some { s with main := .head }
  | .undefined => none

def Answers.ready (ready : List ℕ) (accept : ℤ) (read : ReadAnswer) (reset : Bool) : Answers where
  poll := .ready fun i => if i ∈ ready then pollrdnorm else 0
  accept := accept
  read := read
  reset := reset
  write := [.accepted maxLine]

inductive Visit (s : State m) (i : Fin (m+1)) (a : Answers) : State m → Prop
  | idle (hidle : (s.client i).revents &&& readable = 0) :
      Visit s i a { s with main := .scan (i+1), log := s.log ++ [s.report i] }
  | reset (e : Errno) (hready : (s.client i).revents &&& readable ≠ 0)
      (hopen : (s.client i).fd ∈ s.opened) :
      Visit s i a { s with
        client := release s.client i
        main := .scan (i+1)
        log := s.log ++
          [s.report i,.read (s.client i).fd (.fail e),.close (s.client i).fd] }
  | failed (e : Errno) (hready : (s.client i).revents &&& readable ≠ 0) :
      Visit s i a { s with
        main := .scan (i+1)
        log := s.log ++
          [s.report i,.read (s.client i).fd (.fail e),.print "read error\n" []] }
  | eof (hready : (s.client i).revents &&& readable ≠ 0) (hopen : (s.client i).fd ∈ s.opened) :
      Visit s i a { s with
        client := release s.client i
        main := .scan (i+1)
        log := s.log ++ [s.report i,.read (s.client i).fd (.data []),.close (-1)] }
  | echoed (bytes sent : List UInt8) (ret : ℤ) (buffer : Memory UInt8)
      (hready : (s.client i).revents &&& readable ≠ 0) (hne : bytes ≠ [])
      (hsent : ret ≠ -1 → sent = bytes) :
      Visit s i a { s with
        buffer := buffer
        main := .scan (i+1)
        log := s.log ++
          [s.report i,.read (s.client i).fd (.data bytes),.write (s.client i).fd sent ret] }

theorem mem_of_readOpen_data {opened : FdSet} {fd : ℤ} {a : ReadAnswer} {bytes : List UInt8}
    (h : readOpen opened fd a = .data bytes) : fd ∈ opened := by
  by_contra hmem
  simp [readOpen,hmem] at h

theorem visit_cases {s t : State m} {i : Fin (m+1)} {a : Answers} (h : s.visit i a = some t) :
    Visit s i a t := by
  have hopened : (s.printed i).opened = s.opened := openAfter_append s.log [s.report i] s.base
  simp only [State.visit,State.readClient,hopened] at h
  simp only [State.printed,List.append_assoc,List.cons_append,List.nil_append] at h
  split_ifs at h with hready
  · split at h
    · rename_i e hgot
      split_ifs at h with hreset
      · cases h
        exact .reset e hready hreset.2.1
      · cases h
        exact .failed e hready
    · rename_i hgot
      simp only [release,Function.update_self] at h
      cases h
      exact .eof hready (mem_of_readOpen_data hgot)
    · rename_i b bytes hgot
      obtain ⟨ret,hret,rfl⟩ := Option.map_eq_some_iff.mp h
      have hsent := @written_store s.buffer (.data (b :: bytes)) a.write ret hret
      exact .echoed (b :: bytes) _ ret _ hready (List.cons_ne_nil b bytes) hsent
  · cases h
    exact .idle (not_not.mp hready)

/-- What every visit leaves alone: the other entries and `maxi`, and it calls `read` for a
ready entry only, once. -/
structure Visited (s : State m) (i : Fin (m+1)) (t : State m) : Prop where
  maxi : t.maxi = s.maxi
  main : t.main = .scan (i+1)
  client : ∀ j, j ≠ i → t.client j = s.client j
  log : t.log = s.log ++ [s.report i] ∨ (s.client i).revents &&& readable ≠ 0 ∧
    ∃ got e, (∀ fd got, e ≠ .read fd got) ∧ e.waited = none ∧
      t.log = s.log ++ [s.report i,.read (s.client i).fd got,e]

theorem Visit.visited {s t : State m} {i : Fin (m+1)} {a : Answers} (h : Visit s i a t) :
    Visited s i t := by
  have hrelease : ∀ j, j ≠ i → release s.client i j = s.client j := fun j hj =>
    Function.update_of_ne hj _ _
  cases h with
  | idle => exact ⟨rfl,rfl,fun _ _ => rfl,.inl rfl⟩
  | reset e hready => exact ⟨rfl,rfl,hrelease,.inr ⟨hready,_,_,by simp,rfl,rfl⟩⟩
  | failed e hready => exact ⟨rfl,rfl,fun _ _ => rfl,.inr ⟨hready,_,_,by simp,rfl,rfl⟩⟩
  | eof hready => exact ⟨rfl,rfl,hrelease,.inr ⟨hready,_,_,by simp,rfl,rfl⟩⟩
  | echoed bytes sent ret buffer hready =>
    exact ⟨rfl,rfl,fun _ _ => rfl,.inr ⟨hready,_,_,by simp,rfl,rfl⟩⟩

inductive Step (s : State m) (a : Answers) : State m → Prop
  | wait (hmain : s.main = .head) : Step s a (s.wait a.poll)
  | accept (hmain : s.main = .accepting) (hok : acceptable s.opened a.accept) :
      Step s a (s.accept a.accept)
  | visit {t : State m} (i : Fin (m+1)) (hmain : s.main = .scan i) (hle : i ≤ s.maxi)
      (hvisit : s.visit i a = some t) : Step s a t
  | beyond (i : ℕ) (hmain : s.main = .scan i) (hle : i ≤ s.maxi) (hout : m < i) :
      Step s a { s with main := .undefined }
  | finish (i : ℕ) (hmain : s.main = .scan i) (hpast : s.maxi < i) :
      Step s a { s with main := .head }

theorem step_cases {s t : State m} {a : Answers} (h : step s a = some t) : Step s a t := by
  simp only [step] at h
  split at h
  · cases h
    exact .wait ‹_›
  · split_ifs at h with hok
    cases h
    exact .accept ‹_› hok
  · rename_i i hmain
    split_ifs at h with hle hlt
    · exact .visit ⟨i,hlt⟩ hmain hle h
    · cases h
      exact .beyond i hmain hle (not_lt.mp hlt)
    · cases h
      exact .finish i hmain (not_le.mp hle)
  · cases h

end PollServer
end CPrograming
