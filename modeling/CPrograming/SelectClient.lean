import CPrograming.SocketFunc
import CPrograming.Connection
import CPrograming.Libc

/-!
# The client of `select_client.c`

`str_cli` waits in `select` for its socket and for the descriptor of its standard input. It
reads the socket with `readline` and the standard input with `fgets`, which has a buffer of
its own: one `read` of the descriptor fills the buffer, and each call takes one piece out
of it. `select` knows nothing of that buffer. At the other end of the connection is any
process.
-/

namespace CPrograming
namespace SelectClient

open Connection Libc SocketFunc Readline Runs

/-- What one `read` of the standard input gives: at least one byte. -/
abbrev Segment := { bytes : List UInt8 // bytes ≠ [] }

section Client

inductive Place
  | select
  | readline
  | fgets (got : List UInt8)
  | writing (call : Writing)
  | returned (eof : Bool)
  deriving DecidableEq

structure Rset where
  file : Bool
  sock : Bool
  deriving DecidableEq

/-- The state of `str_cli`: its variables, the unread part of the buffer of `file`, the static
variables of `readline`, what it has printed, and what the socket has taken. -/
structure Client where
  place : Place
  sock : ℤ
  rset : Rset
  stdio : List UInt8
  sendline : List UInt8
  recvline : Memory UInt8
  reader : Reader
  stdout : List UInt8
  sent : List UInt8

def Client.text (s : Client) : List UInt8 := cString s.sendline

def Client.head (s : Client) : Client := { s with place := .select, rset := ⟨true,true⟩ }

/-- Where `written` waits or has returned. Its return value is not looked at. -/
def Client.send (s : Client) (call : Writing) : Client :=
  match call.ret with
  | none => { s with place := .writing call }
  | some _ => s.head

def Client.sendLine (s : Client) (line : List UInt8) : Client :=
  let s := { s with sendline := line }
  s.send (Writing.enter s.text.length)

/-- `fgets` with `got` so far takes what it can out of the buffer of `file`. -/
def Client.fill (s : Client) (got : List UInt8) : Client :=
  let taken := takeLine maxLine got s.stdio
  let s := { s with stdio := taken.2 }
  if Finished maxLine taken.1 then s.sendLine taken.1 else { s with place := .fgets taken.1 }

def Client.atEof (s : Client) (got : List UInt8) : Client :=
  if got = [] then { s with place := .returned true } else s.sendLine got

/-- The second half of a pass, from the test of the bit of `file`. -/
def Client.input (s : Client) : Client := if s.rset.file then s.fill [] else s.head

def Client.receive (s : Client) : Client :=
  let call := readline s.sock maxLine s.reader
  match call.ret with
  | none => { s with place := .readline }
  | some n =>
    let s := { s with recvline := s.recvline.storeAll call.stores, reader := call.reader }
    let text := if n = 0 then ascii "str_cli: server is prematurely terminated\n"
      else cString (s.recvline.load 0 (maxLine+1))
    { s with stdout := s.stdout ++ text }.input

def Client.selected (s : Client) (rset : Rset) : Client :=
  let s := { s with rset := rset }
  if rset.sock then s.receive else s.input

def Client.start (sock : ℤ) (recvline : Memory UInt8) : Client :=
  Client.head ⟨.select,sock,⟨false,false⟩,[],[],recvline,Readline.start [],[],[]⟩

/-- The client at its socket. In `select` and in `fgets` it does nothing there. -/
def strCli : Process Client where
  pending s :=
    match s.place with
    | .readline => .read maxLine
    | .writing call => .write (s.text.drop call.off)
    | .returned _ => .exited
    | .select | .fgets _ => .compute
  onRead s a :=
    match s.place with
    | .readline => { s with reader := s.reader.feed a }.receive
    | _ => s
  onWrite s a :=
    match s.place with
    | .writing call =>
      let next := call.body s.text.length a
      let taken := (s.text.drop call.off).take (next.off-call.off)
      { s with sent := s.sent ++ taken }.send next
    | _ => s
  compute s := s

end Client

section System

/-- The client and its peer, and the standard input: the segments still to come, those that
wait to be read, and whether the end of the input has come. -/
structure State (T : Type*) where
  conn : Session Client T
  incoming : List Segment
  queue : List Segment
  ended : Bool

inductive Action
  | io (a : Act)
  | arrive
  | hangUp
  | select
  | selectFail
  | stdin
  | stdinFail
  deriving DecidableEq

variable {T : Type*}

def State.client (s : State T) : Client := s.conn.left

def State.put (s : State T) (c : Client) : State T := { s with conn := { s.conn with left := c } }

def State.fileReady (s : State T) : Bool := !s.queue.isEmpty || s.ended

def State.sockReady (s : State T) : Bool := !s.conn.toLeft.bytes.isEmpty || s.conn.toLeft.closed

/-- `select` returns when a descriptor is ready and reports the ready ones; when it is
interrupted it leaves its set as it was. -/
def step (Q : Process T) (s : State T) : Action → Option (State T)
  | .io a => (session strCli Q s.conn a).map fun conn => { s with conn := conn }
  | .arrive =>
    match s.incoming with
    | [] => none
    | seg :: rest => some { s with incoming := rest, queue := s.queue ++ [seg] }
  | .hangUp => if s.incoming = [] then some { s with ended := true } else none
  | .select =>
    if s.client.place = .select ∧ (s.fileReady || s.sockReady) then
      some (s.put (s.client.selected ⟨s.fileReady,s.sockReady⟩))
    else none
  | .selectFail =>
    if s.client.place = .select then some (s.put (s.client.selected s.client.rset)) else none
  | .stdin =>
    match s.client.place, s.queue with
    | .fgets got, seg :: rest =>
      some { s.put ({ s.client with stdio := seg.1 }.fill got) with queue := rest }
    | .fgets got, [] => if s.ended then some (s.put (s.client.atEof got)) else none
    | _, _ => none
  | .stdinFail =>
    match s.client.place with
    | .fgets _ => some (s.put { s.client with place := .returned false })
    | _ => none

def start (sock : ℤ) (recvline : Memory UInt8) (segs : List Segment) (peer : T) : State T :=
  ⟨⟨Client.start sock recvline,peer,⟨[],false⟩,⟨[],false⟩⟩,segs,[],false⟩

def Blocked (s : State T) : Prop :=
  s.client.place = .select ∧ s.fileReady = false ∧ s.sockReady = false

/-- The client waits in `select` with a line in the buffer of `file`. -/
def Stranded (s : State T) : Prop := Blocked s ∧ newline ∈ s.client.stdio

def Action.smooth : Action → Bool
  | .io a => a.smooth
  | _ => true

inductive Step (Q : Process T) (s : State T) : Action → State T → Prop
  | io {a : Act} {conn : Session Client T} (h : session strCli Q s.conn a = some conn) :
      Step Q s (.io a) { s with conn := conn }
  | arrive {seg : Segment} {rest : List Segment} (h : s.incoming = seg :: rest) :
      Step Q s .arrive { s with incoming := rest, queue := s.queue ++ [seg] }
  | hangUp (h : s.incoming = []) : Step Q s .hangUp { s with ended := true }
  | select (hplace : s.client.place = .select) :
      Step Q s .select (s.put (s.client.selected ⟨s.fileReady,s.sockReady⟩))
  | selectFail (hplace : s.client.place = .select) :
      Step Q s .selectFail (s.put (s.client.selected s.client.rset))
  | refill {got : List UInt8} {seg : Segment} {rest : List Segment}
      (hplace : s.client.place = .fgets got) (hqueue : s.queue = seg :: rest) :
      Step Q s .stdin { s.put ({ s.client with stdio := seg.1 }.fill got) with queue := rest }
  | eof {got : List UInt8} (hplace : s.client.place = .fgets got) (hended : s.ended = true)
      (hqueue : s.queue = []) :
      Step Q s .stdin (s.put (s.client.atEof got))
  | stdinFail {got : List UInt8} (hplace : s.client.place = .fgets got) :
      Step Q s .stdinFail (s.put { s.client with place := .returned false })

theorem step_cases {Q : Process T} {s t : State T} {a : Action} (h : step Q s a = some t) :
    Step Q s a t := by
  cases a with
  | io a =>
    obtain ⟨conn,hconn,rfl⟩ := Option.map_eq_some_iff.mp h
    exact .io hconn
  | arrive =>
    cases hin : s.incoming with
    | nil => simp [step,hin] at h
    | cons seg rest =>
      simp only [step,hin,Option.some.injEq] at h
      subst t
      exact .arrive hin
  | hangUp =>
    simp only [step] at h
    split_ifs at h with hin
    obtain rfl := Option.some.inj h
    exact .hangUp hin
  | select =>
    simp only [step] at h
    split_ifs at h with hready
    obtain rfl := Option.some.inj h
    exact .select hready.1
  | selectFail =>
    simp only [step] at h
    split_ifs at h with hplace
    obtain rfl := Option.some.inj h
    exact .selectFail hplace
  | stdin =>
    simp only [step] at h
    split at h
    · rename_i hplace hqueue
      obtain rfl := Option.some.inj h
      exact .refill hplace hqueue
    · rename_i hplace hqueue
      split_ifs at h with hended
      obtain rfl := Option.some.inj h
      exact .eof hplace hended hqueue
    · cases h
  | stdinFail =>
    simp only [step] at h
    split at h
    · rename_i hplace
      obtain rfl := Option.some.inj h
      exact .stdinFail hplace
    · cases h

inductive ClientMove (c : Client) : Client → Prop
  | none : ClientMove c c
  | read (a : ReadAnswer) (hplace : c.place = .readline) :
      ClientMove c { c with reader := c.reader.feed a }.receive
  | write {call : Writing} (next : Writing) (taken : List UInt8)
      (hplace : c.place = .writing call) :
      ClientMove c ({ c with sent := c.sent ++ taken }.send next)

theorem client_move {Q : Process T} {conn conn' : Session Client T} {a : Act}
    (h : session strCli Q conn a = some conn') : ClientMove conn.left conn'.left := by
  cases a with
  | left b =>
    obtain ⟨e,he,rfl⟩ := Option.map_eq_some_iff.mp h
    have hread (got : ReadAnswer) : ClientMove conn.left (strCli.onRead conn.left got) := by
      cases hplace : conn.left.place with
      | readline =>
        simp only [strCli,hplace]
        exact .read got hplace
      | select | fgets got | writing call | returned eof =>
        simp only [strCli,hplace]
        exact .none
    have hwrite (took : WriteAnswer) : ClientMove conn.left (strCli.onWrite conn.left took) := by
      cases hplace : conn.left.place with
      | writing call =>
        simp only [strCli,hplace]
        exact .write _ _ hplace
      | select | fgets got | readline | returned eof =>
        simp only [strCli,hplace]
        exact .none
    cases io_moved he with
    | data | eof | readFail => exact hread _
    | sent | writeFail => exact hwrite _
    | compute | close => exact .none
  | right b =>
    obtain ⟨e,he,rfl⟩ := Option.map_eq_some_iff.mp h
    exact .none
  | cutRight k | cutLeft k =>
    obtain rfl := Option.some.inj h
    exact .none

end System

section Runs

variable {T : Type*} {Q : Process T} {s : State T} {c : Client} {got : List UInt8}
  {queue : List Segment}

def bytes (segs : List Segment) : List UInt8 := segs.flatMap Subtype.val

@[simp] theorem bytes_nil : bytes [] = [] := rfl

@[simp] theorem bytes_cons (seg : Segment) (segs : List Segment) :
    bytes (seg :: segs) = seg.1 ++ bytes segs := List.flatMap_cons

@[simp] theorem bytes_append (xs ys : List Segment) : bytes (xs ++ ys) = bytes xs ++ bytes ys :=
  List.flatMap_append

def State.goto (s : State T) (c : Client) (out : List UInt8) (queue : List Segment) : State T :=
  ⟨⟨c,s.conn.right,⟨out,false⟩,s.conn.toLeft⟩,s.incoming,queue,s.ended⟩

theorem sendLine_place (c : Client) (place : Place) (line : List UInt8) :
    { c with place := place }.sendLine line = c.sendLine line := by
  simp only [Client.sendLine,Client.send,Client.text,Client.head]

theorem fill_place (c : Client) (place : Place) (got : List UInt8) :
    { c with place := place }.fill got = c.fill got := by
  simp only [Client.fill,Client.sendLine,Client.send,Client.text,Client.head]

theorem fill_whole (h : Whole maxLine (takeLine maxLine got c.stdio).1) :
    c.fill got = { c with stdio := (takeLine maxLine got c.stdio).2 }.sendLine
      (takeLine maxLine got c.stdio).1 := by
  simp only [Client.fill,if_pos h.finished]

theorem fill_open (h : Open maxLine (got ++ c.stdio))
    (htake : takeLine maxLine got c.stdio = (got ++ c.stdio,[])) :
    c.fill got = { c with stdio := [], place := .fgets (got ++ c.stdio) } := by
  simp only [Client.fill,htake,if_neg h.not_finished]

theorem sendLine_run (s : State T) (c : Client) (line out : List UInt8) (queue : List Segment) :
    ∃ out', Reachable (restrict (fun _ a => Action.smooth a = true) (step Q))
      (s.goto (c.sendLine line) out queue)
      (s.goto { c with sendline := line, sent := c.sent ++ cString line }.head out' queue) := by
  have henter : Writing.enter (cString line).length = Writing.after (cString line).length 0 :=
    Writing.enter_eq_after _
  by_cases hpos : 0 < (cString line).length
  · have hret : (Writing.after (cString line).length 0).ret = none := if_pos hpos
    set c' : Client :=
      { c with sendline := line, place := .writing (Writing.after (cString line).length 0) }
    have hsend : c.sendLine line = c' := by
      simp only [c',Client.sendLine,Client.text,Client.send,henter,hret]
    have hpending : strCli.pending c' = .write (cString line) := by
      simp [c',strCli,Writing.after,Client.text]
    have hbody := Writing.body_accepted (k := 0) hpos (Nat.zero_add _).le
    have hwrite : strCli.onWrite c' (.accepted (cString line).length) =
        { c with sendline := line, sent := c.sent ++ cString line }.head := by
      have hdone : (Writing.after (cString line).length (0+(cString line).length)).ret =
          some ((cString line).length : ℤ) := if_neg (by omega)
      simp only [c',strCli,Client.text,hbody,Client.send,hdone]
      simp [Writing.after,Client.head]
    have hio := io_write_all (e := (s.goto c' out queue).conn.leftEnd) hpending rfl
    rw [hsend]
    refine ⟨out ++ cString line,(Reachable.refl _).tail
      (a := .io (.left (.write (cString line).length))) (restrict_eq_some.mpr ⟨rfl,?_⟩)⟩
    rw [step,session_left hio,Option.map_some]
    exact congrArg (fun x => some (s.goto x (out ++ cString line) queue)) hwrite
  · have hnil : cString line = [] := List.length_eq_zero_iff.mp (by omega)
    have hsend : c.sendLine line =
        { c with sendline := line, sent := c.sent ++ cString line }.head := by
      simp [Client.sendLine,Client.text,Client.send,hnil,Writing.enter,Writing.test,Client.head]
    rw [hsend]
    exact ⟨out,.refl _⟩

theorem arrive_run (segs rest queue : List Segment) :
    Reachable (restrict (fun _ a => Action.smooth a = true) (step Q))
      { s with incoming := segs ++ rest, queue := queue }
      { s with incoming := rest, queue := queue ++ segs } := by
  induction segs generalizing queue with
  | nil =>
    rw [List.append_nil]
    exact .refl _
  | cons seg segs ih =>
    have hone : Reachable (restrict (fun _ a => Action.smooth a = true) (step Q))
        { s with incoming := seg :: segs ++ rest, queue := queue }
        { s with incoming := segs ++ rest, queue := queue ++ [seg] } :=
      (Reachable.refl _).tail (a := .arrive) (restrict_eq_some.mpr ⟨rfl,rfl⟩)
    have hmore := ih (queue ++ [seg])
    rw [List.append_assoc,List.singleton_append] at hmore
    exact hone.trans hmore

theorem select_run (out : List UInt8) (queue : List Segment) (hplace : c.place = .select)
    (hquiet : s.conn.toLeft = ⟨[],false⟩) (hready : queue ≠ [] ∨ s.ended = true) :
    Reachable (restrict (fun _ a => Action.smooth a = true) (step Q)) (s.goto c out queue)
      (s.goto ({ c with rset := ⟨true,false⟩ }.fill []) out queue) := by
  have hfile : (s.goto c out queue).fileReady = true := by
    simpa [State.goto,State.fileReady] using hready
  have hsock : (s.goto c out queue).sockReady = false := by
    simp [State.goto,State.sockReady,hquiet]
  refine (Reachable.refl _).tail (a := .select) (restrict_eq_some.mpr ⟨rfl,?_⟩)
  rw [step,if_pos ⟨hplace,by simp [hfile]⟩,hfile,hsock]
  rfl

/-- A call of `fgets` that has `got` either comes to the end of a piece or uses up what is
there. -/
theorem fgets_run (s : State T) (c : Client) (out : List UInt8) (queue : List Segment)
    (h : Open maxLine got) :
    (∃ line rest queue', Whole maxLine line ∧
      line ++ rest ++ bytes queue' = got ++ c.stdio ++ bytes queue ∧
      (queue' = queue ∧ rest = (takeLine maxLine got c.stdio).2 ∨
        ∃ before seg, queue = before ++ seg :: queue' ∧
          Open maxLine (got ++ c.stdio ++ bytes before) ∧
          rest = (takeLine maxLine (got ++ c.stdio ++ bytes before) seg.1).2) ∧
      Reachable (restrict (fun _ a => Action.smooth a = true) (step Q))
        (s.goto (c.fill got) out queue)
        (s.goto ({ c with stdio := rest }.sendLine line) out queue')) ∨
    Open maxLine (got ++ c.stdio ++ bytes queue) ∧
      Reachable (restrict (fun _ a => Action.smooth a = true) (step Q))
        (s.goto (c.fill got) out queue)
        (s.goto { c with stdio := [], place := .fgets (got ++ c.stdio ++ bytes queue) } out
          []) := by
  induction queue generalizing got c with
  | nil =>
    rcases takeLine_cases h c.stdio with ⟨hopen,htake⟩ | hwhole
    · right
      rw [fill_open hopen htake]
      simpa using ⟨hopen,Reachable.refl _⟩
    · left
      refine ⟨_,_,[],hwhole,?_,Or.inl ⟨rfl,rfl⟩,?_⟩
      · rw [takeLine_append]
      · rw [fill_whole hwhole]
        exact .refl _
  | cons seg queue ih =>
    rcases takeLine_cases h c.stdio with ⟨hopen,htake⟩ | hwhole
    · have hstep : Reachable (restrict (fun _ a => Action.smooth a = true) (step Q))
          (s.goto (c.fill got) out (seg :: queue))
          (s.goto ({ c with stdio := seg.1 }.fill (got ++ c.stdio)) out queue) := by
        rw [fill_open hopen htake,
          ← fill_place { c with stdio := seg.1 } (.fgets (got ++ c.stdio)) (got ++ c.stdio)]
        exact (Reachable.refl _).tail (a := .stdin) (restrict_eq_some.mpr ⟨rfl,rfl⟩)
      rcases ih { c with stdio := seg.1 } hopen with
        ⟨line,rest,queue',hwhole,happend,hrest,hreach⟩ | ⟨hopen',hreach⟩
      · left
        refine ⟨line,rest,queue',hwhole,by simpa using happend,Or.inr ?_,hstep.trans hreach⟩
        rcases hrest with ⟨rfl,hrest⟩ | ⟨before,seg',hqueue,hbefore,hrest⟩
        · exact ⟨[],seg,rfl,by simpa using hopen,by simpa using hrest⟩
        · exact ⟨seg :: before,seg',by simp [hqueue],by simpa using hbefore,by simpa using hrest⟩
      · right
        refine ⟨by simpa using hopen',hstep.trans ?_⟩
        simpa using hreach
    · left
      refine ⟨_,_,seg :: queue,hwhole,?_,Or.inl ⟨rfl,rfl⟩,?_⟩
      · rw [takeLine_append]
      · rw [fill_whole hwhole]
        exact .refl _

end Runs

end SelectClient
end CPrograming
