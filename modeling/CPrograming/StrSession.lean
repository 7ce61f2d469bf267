import CPrograming.SocketFunc
import CPrograming.Connection
import CPrograming.Libc

/-!
# The line echo of `client.c` and `server.c`

`str_cli` sends a line of its input and waits for a line; `str_echo` sends back each line
it receives. Both wait in `readline`. The state of a call of `readline` in progress is the
list of the answers that its reads have had: the call is followed from its start again
when the next answer comes.
-/

namespace CPrograming
namespace StrSession

open Connection Libc SocketFunc Readline

/-- `errno` after a `readline` that returned -1 is that of its last `read`. -/
def lastErrno (r : Reader) : Option Errno :=
  match r.log.getLast? with
  | some (_,.fail e) => some e
  | _ => none

section Server

inductive ServerPlace
  | reading
  | writing (n : ℤ) (call : Writing)
  | returned
  deriving DecidableEq

/-- The state of `str_echo`: its socket, its buffer, the static variables of `readline`, and
what it has printed. -/
structure Server where
  place : ServerPlace
  sock : ℤ
  buffer : Memory UInt8
  reader : Reader
  stdout : List (String × List PrintArg)

def Server.print (s : Server) (text : String) (args : List PrintArg) : Server :=
  { s with stdout := s.stdout ++ [(text,args)] }

/-- The head of the loop of `str_echo`, where `readline` waits or has returned. -/
def Server.head (s : Server) : Server :=
  let call := readline s.sock maxLine s.reader
  match call.ret with
  | none => { s with place := .reading }
  | some n =>
    let s := { s with buffer := s.buffer.storeAll call.stores, reader := call.reader }
    if 0 < n then
      { s.print "read %d bytes from client\n" [.int n] with place := .writing n (Writing.enter n) }
    else
      let s := s.print "read end: %d\n" [.int n]
      if n < 0 ∧ lastErrno s.reader = some .eintr then { s with place := .reading }
      else if n < 0 then { s.print "%s\n" [.str (ascii "str_echo error")] with place := .returned }
      else { s with place := .returned }

def Server.start (sock : ℤ) (buffer : Memory UInt8) : Server :=
  Server.head ⟨.reading,sock,buffer,Readline.start [],[]⟩

def strEcho : Process Server where
  pending s :=
    match s.place with
    | .reading => .read maxLine
    | .writing _ call => .write (s.buffer.load call.off call.left.toNat)
    | .returned => .exited
  onRead s a :=
    match s.place with
    | .reading => { s with reader := s.reader.feed a }.head
    | _ => s
  onWrite s a :=
    match s.place with
    | .writing n call =>
      let call := call.body n a
      match call.ret with
      | none => { s with place := .writing n call }
      | some _ => s.head
    | _ => s
  compute s := s

end Server

section Client

inductive ClientPlace
  | fgets
  | writing (call : Writing)
  | reading
  | returned
  | exited
  deriving DecidableEq

/-- The state of `str_cli`: the input that is left, its buffers, the static variables of
`readline`, and what it has written to its standard output. -/
structure Client where
  place : ClientPlace
  sock : ℤ
  input : List UInt8
  sendline : List UInt8
  recvline : Memory UInt8
  reader : Reader
  stdout : List UInt8

def Client.text (s : Client) : List UInt8 := cString s.sendline

def Client.receive (s : Client) : Client :=
  let call := readline s.sock maxLine s.reader
  match call.ret with
  | none => { s with place := .reading }
  | some n =>
    let s := { s with recvline := s.recvline.storeAll call.stores, reader := call.reader }
    if n ≤ 0 then { s with place := .exited, stdout := s.stdout ++ ascii "readline error\n" }
    else
      { s with
        place := .fgets
        stdout := s.stdout ++ cString (s.recvline.load 0 (maxLine+1)) }

def Client.send (s : Client) (call : Writing) : Client :=
  match call.ret with
  | none => { s with place := .writing call }
  | some n =>
    if n = -1 then { s with place := .exited, stdout := s.stdout ++ ascii "written error\n" }
    else s.receive

def Client.next (s : Client) : Client :=
  match fgets maxLine s.input with
  | none => { s with place := .returned }
  | some (line,rest) =>
    let s := { s with input := rest, sendline := line }
    s.send (Writing.enter s.text.length)

def Client.start (sock : ℤ) (input : List UInt8) (recvline : Memory UInt8) : Client :=
  ⟨.fgets,sock,input,[],recvline,Readline.start [],[]⟩

def strCli : Process Client where
  pending s :=
    match s.place with
    | .fgets => .compute
    | .writing call => .write (s.text.drop call.off)
    | .reading => .read maxLine
    | .returned | .exited => .exited
  onRead s a :=
    match s.place with
    | .reading => { s with reader := s.reader.feed a }.receive
    | _ => s
  onWrite s a :=
    match s.place with
    | .writing call => s.send (call.body s.text.length a)
    | _ => s
  compute s := s.next

end Client

def connected (input : List UInt8) (clientSock serverSock : ℤ) (recvline buffer : Memory UInt8) :
    Session Client Server :=
  ⟨Client.start clientSock input recvline,Server.start serverSock buffer,⟨[],false⟩,⟨[],false⟩⟩

/-- Both programs wait in `readline`, and nothing is in flight. -/
structure Deadlocked (s : Session Client Server) : Prop where
  client : s.left.place = .reading
  server : s.right.place = .reading
  toRight : s.toRight = ⟨[],false⟩
  toLeft : s.toLeft = ⟨[],false⟩

end StrSession
end CPrograming
