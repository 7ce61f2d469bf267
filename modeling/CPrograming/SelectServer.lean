import CPrograming.EchoServer
import CPrograming.Keys

/-!
# The echo server of `select_server.c`

One process serves every client: `select` reports the descriptors with something to
read, a new connection gets the first free entry of `client`, and the entries up to
`maxi` are scanned for the ready ones. `size` is `FD_SETSIZE`. One step is one call of
`select`, one `accept` or one entry of the scan. Where C leaves the behaviour open, at
an `fd_set` or an array used outside its bounds, the model stops as `undefined`.
-/

namespace CPrograming
namespace SelectServer

open Runs Keys SocketFunc EchoServer

/-- Where `main` is; the argument is the loop variable of the scan. -/
inductive Main
  | head
  | accepting
  | scan (i : ℕ)
  | undefined
  deriving DecidableEq

structure Selected where
  rset : FdSet
  nready : ℤ
  deriving DecidableEq

/-- The variables of `main`; `base` are the descriptors that were open before the loop. -/
structure State (size : ℕ) where
  serve : ℤ
  client : Fin size → ℤ
  allset : FdSet
  rset : FdSet
  maxi : ℕ
  maxfd : ℤ
  nready : ℤ
  buffer : Memory UInt8
  main : Main
  base : FdSet
  log : List (Event Selected)

/-- What the environment answers to the calls of a step, should they be made. -/
structure Answers where
  select : SelectAnswer
  accept : ℤ
  read : ReadAnswer
  write : List WriteAnswer

variable {size : ℕ}

/-- An `fd_set` has a bit for each of these descriptors. -/
def inSet (size : ℕ) (fd : ℤ) : Prop := 0 ≤ fd ∧ fd < size

instance inSetDecidable (size : ℕ) (fd : ℤ) : Decidable (inSet size fd) :=
  inferInstanceAs (Decidable (_ ∧ _))

def start (size : ℕ) (base : FdSet) (serve : ℤ) (buffer : Memory UInt8) : State size where
  serve := serve
  client := fun _ => -1
  allset := {serve}
  rset := ∅
  maxi := 0
  maxfd := serve
  nready := 0
  buffer := buffer
  main := if inSet size serve then .head else .undefined
  base := base
  log := []

def State.opened (s : State size) : FdSet := openAfter s.base s.log

def State.wait (s : State size) (a : SelectAnswer) : State size :=
  let answer := a.below (s.maxfd+1)
  let rset := answer.rset s.allset
  let nready := answer.nready s.allset ∅
  { s with
    rset := rset
    nready := nready
    main := if s.serve ∈ rset then .accepting else .scan 0
    log := s.log ++
      [.print "select waitting...\n" [],.wait ⟨rset,nready⟩,.print "nready = %d\n" [.int nready]] }

def freeSlot (client : Fin size → ℤ) : Option (Fin size) := Fin.find? fun i => client i = -1

/-- The new connection `fd`. When no entry is free the search ends at `size`. -/
def State.accept (s : State size) (fd : ℤ) : State size :=
  let slot := freeSlot s.client
  let i := slot.elim size Fin.val
  let client := slot.elim s.client fun j => Function.update s.client j fd
  if inSet size fd then
    let maxi := max s.maxi i
    let maxfd := max s.maxfd fd
    { s with
      client := client
      allset := insert fd s.allset
      maxi := maxi
      maxfd := maxfd
      nready := s.nready-1
      main := if s.nready-1 ≤ 0 then .head else .scan 0
      log := s.log ++ [.print "connection process\n" [],.accept fd,
        .print "maxi = %d; maxfd = %d\n" [.int maxi,.int maxfd]] }
  else
    { s with
      client := client
      main := .undefined
      log := s.log ++ [.print "connection process\n" [],.accept fd] }

/-- The `read` from a ready client, and `close` or `written`. Nothing comes back while
`written` is still in its loop. -/
def State.serveClient (s : State size) (i : Fin size) (a : Answers) : Option (State size) :=
  let fd := s.client i
  let got := readOpen s.opened fd a.read
  if got.ret = 0 then
    some { s with
      client := Function.update s.client i (-1)
      allset := s.allset.erase fd
      log := s.log ++ [.read fd got,.close fd,.print "close clnt_sock = %d\n" [.int fd]] }
  else
    let buffer := s.buffer.store 0 got.bytes
    let w := written buffer got.ret a.write
    w.ret.map fun ret =>
      { s with
        buffer := buffer
        log := s.log ++
          [.read fd got,.print "read %d bytes from client\n" [.int got.ret],.write fd w.sent ret] }

def State.visit (s : State size) (i : Fin size) (a : Answers) : Option (State size) :=
  let fd := s.client i
  if fd = -1 then some { s with main := .scan (i+1) }
  else
    let s : State size := { s with log := s.log ++ [.print "clnt_sock %d process\n" [.int fd]] }
    if inSet size fd then
      if fd ∈ s.rset then
        (s.serveClient i a).map fun t =>
          { t with
            nready := t.nready-1
            main := if t.nready-1 ≤ 0 then .head else .scan (i+1) }
      else some { s with main := .scan (i+1) }
    else some { s with main := .undefined }

def step (s : State size) (a : Answers) : Option (State size) :=
  match s.main with
  | .head => some (s.wait a.select)
  | .accepting => if acceptable s.opened a.accept then some (s.accept a.accept) else none
  | .scan i =>
    if i ≤ s.maxi then
      if h : i < size then s.visit ⟨i,h⟩ a else some { s with main := .undefined }
    else some { s with main := .head }
  | .undefined => none

def Answers.ready (fds : FdSet) (accept : ℤ) (read : ReadAnswer) : Answers where
  select := .ready fds ∅
  accept := accept
  read := read
  write := [.accepted maxLine]

inductive Visit (s : State size) (i : Fin size) (a : Answers) : State size → Prop
  | free (hfree : s.client i = -1) : Visit s i a { s with main := .scan (i+1) }
  | outside (hfd : s.client i ≠ -1) (hout : ¬ inSet size (s.client i)) :
      Visit s i a { s with
        main := .undefined
        log := s.log ++ [.print "clnt_sock %d process\n" [.int (s.client i)]] }
  | idle (hfd : s.client i ≠ -1) (hidle : s.client i ∉ s.rset) :
      Visit s i a { s with
        main := .scan (i+1)
        log := s.log ++ [.print "clnt_sock %d process\n" [.int (s.client i)]] }
  | closed (got : ReadAnswer) (hfd : s.client i ≠ -1) (hready : s.client i ∈ s.rset)
      (heof : got.bytes = []) :
      Visit s i a { s with
        client := Function.update s.client i (-1)
        allset := s.allset.erase (s.client i)
        nready := s.nready-1
        main := if s.nready-1 ≤ 0 then .head else .scan (i+1)
        log := s.log ++ [.print "clnt_sock %d process\n" [.int (s.client i)],
          .read (s.client i) got,.close (s.client i),
          .print "close clnt_sock = %d\n" [.int (s.client i)]] }
  | echoed (got : ReadAnswer) (sent : List UInt8) (ret : ℤ) (buffer : Memory UInt8)
      (hfd : s.client i ≠ -1) (hready : s.client i ∈ s.rset)
      (hsent : ret ≠ -1 → sent = got.bytes) :
      Visit s i a { s with
        buffer := buffer
        nready := s.nready-1
        main := if s.nready-1 ≤ 0 then .head else .scan (i+1)
        log := s.log ++ [.print "clnt_sock %d process\n" [.int (s.client i)],
          .read (s.client i) got,.print "read %d bytes from client\n" [.int got.ret],
          .write (s.client i) sent ret] }

theorem visit_cases {s t : State size} {i : Fin size} {a : Answers}
    (h : s.visit i a = some t) : Visit s i a t := by
  simp only [State.visit,State.serveClient] at h
  split_ifs at h with hfree hin hready heof
  · cases h
    exact .free hfree
  · generalize hgot : readOpen (State.opened _) _ _ = got at h heof
    simp only [Option.map_some,Option.some.injEq,List.append_assoc] at h
    subst t
    refine .closed got hfree hready ?_
    cases got with
    | data bytes => simpa [ReadAnswer.ret,ReadAnswer.bytes] using heof
    | fail e => rfl
  · generalize hgot : readOpen (State.opened _) _ _ = got at h heof
    rw [Option.map_map,Option.map_eq_some_iff] at h
    obtain ⟨ret,hret,rfl⟩ := h
    simp only [Function.comp_apply,List.append_assoc]
    exact .echoed got _ ret _ hfree hready (written_store hret)
  · cases h
    exact .idle hfree hready
  · cases h
    exact .outside hfree hin

inductive Step (s : State size) (a : Answers) : State size → Prop
  | wait (hmain : s.main = .head) : Step s a (s.wait a.select)
  | accept (hmain : s.main = .accepting) (hok : acceptable s.opened a.accept) :
      Step s a (s.accept a.accept)
  | visit {t : State size} (i : Fin size) (hmain : s.main = .scan i) (hvisit : Visit s i a t) :
      Step s a t
  | beyond (i : ℕ) (hmain : s.main = .scan i) (hle : i ≤ s.maxi) (hout : size ≤ i) :
      Step s a { s with main := .undefined }
  | finish (i : ℕ) (hmain : s.main = .scan i) (hpast : s.maxi < i) :
      Step s a { s with main := .head }

theorem step_cases {s t : State size} {a : Answers} (h : step s a = some t) : Step s a t := by
  simp only [step] at h
  split at h
  · cases h
    exact .wait ‹_›
  · split_ifs at h with hok
    cases h
    exact .accept ‹_› hok
  · rename_i i hmain
    split_ifs at h with hle hlt
    · exact .visit ⟨i,hlt⟩ hmain (visit_cases h)
    · cases h
      exact .beyond i hmain hle (not_lt.mp hlt)
    · cases h
      exact .finish i hmain (not_le.mp hle)
  · cases h

end SelectServer
end CPrograming
