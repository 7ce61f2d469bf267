import CPrograming.SocketFunc
import CPrograming.Connection
import CPrograming.Libc

/-!
# The number service of `sum.h`

`number_echo` answers each `struct args` with a `struct result`; `number_cli` reads two
numbers from a line, sends them and prints what comes back. Both are processes at a
connection, whose loops call `readn` and `written`.
-/

namespace CPrograming
namespace Sum

open Connection Libc SocketFunc

/-- `struct args` in memory. -/
def argsBytes (args : Long × Long) : List UInt8 := longBytes args.1 ++ longBytes args.2

def argsOf (bytes : List UInt8) : Long × Long := (longOf (bytes.take 8),longOf (bytes.drop 8))

def sizeofArgs : ℕ := 16

def sizeofResult : ℕ := 8

@[simp] theorem argsBytes_length (args : Long × Long) : (argsBytes args).length = sizeofArgs := by
  simp [argsBytes,sizeofArgs]

@[simp] theorem argsOf_argsBytes (args : Long × Long) : argsOf (argsBytes args) = args := by
  have htake : (argsBytes args).take 8 = longBytes args.1 := by
    rw [argsBytes,List.take_left' (longBytes_length args.1)]
  have hdrop : (argsBytes args).drop 8 = longBytes args.2 := by
    rw [argsBytes,List.drop_left' (longBytes_length args.1)]
  simp [argsOf,htake,hdrop]

def answer (args : Long × Long) : Long := args.1+args.2+100

section Server

inductive ServerPlace
  | reading (call : Readn)
  | writing (call : Writing)
  | returned (n : ℤ)

/-- The state of `number_echo`: its two structs, and what it has printed. -/
structure Server where
  place : ServerPlace
  args : Memory UInt8
  sum : Long
  stdout : List (String × List PrintArg)

/-- The head of the loop of `number_echo`, where `readn` waits or has returned. -/
def Server.head (s : Server) (call : Readn) : Server :=
  match call.ret with
  | none => { s with place := .reading call, args := call.dst }
  | some n =>
    if 0 < n then
      let args := argsOf (call.dst.load 0 sizeofArgs)
      let sum := args.1+args.2
      { place := .writing (Writing.enter sizeofResult), args := call.dst, sum := sum+100,
        stdout := s.stdout ++
          [("read %ld bytes from client, sum = %ld\n",[.int n,.int sum.toInt])] }
    else
      { s with
        place := .returned n, args := call.dst
        stdout := s.stdout ++ [("read end %ld\n",[.int n])] }

/-- `number_echo(sockfd)` as it first waits; its structs hold whatever the stack held. -/
def Server.start (sockfd : ℤ) (args : Memory UInt8) (sum : Long) : Server :=
  Server.head ⟨.returned 0,args,sum,[("number echo %d\n",[.int sockfd])]⟩
    (Readn.enter sizeofArgs args)

def numberEcho : Process Server where
  pending s :=
    match s.place with
    | .reading call => .read call.left
    | .writing call => .write ((longBytes s.sum).drop call.off)
    | .returned _ => .exited
  onRead s a :=
    match s.place with
    | .reading call => s.head (call.body sizeofArgs a)
    | _ => s
  onWrite s a :=
    match s.place with
    | .writing call =>
      let call := call.body sizeofResult a
      match call.ret with
      | none => { s with place := .writing call }
      | some _ => s.head (Readn.enter sizeofArgs s.args)
    | _ => s
  compute s := s

end Server

section Client

/-- One pass of the loop of `number_cli` with what it prints: `invalid input`, or the return
values of `written` and `readn` with the number it shows, if it shows one. -/
inductive Entry
  | invalid (line : List UInt8)
  | exchange (line : List UInt8) (args : Long × Long) (wrote got : ℤ) (shown : Option Long)
  deriving DecidableEq

inductive ClientPlace
  | fgets
  | writing (call : Writing)
  | reading (call : Readn)
  | returned

/-- The state of `number_cli`: the input that is left, its variables, and its passes. -/
structure Client where
  place : ClientPlace
  input : List UInt8
  sendline : List UInt8
  args : Long × Long
  n : ℤ
  result : Memory UInt8
  log : List Entry

def Client.start (input : List UInt8) (args : Long × Long) (n : ℤ) (result : Memory UInt8) :
    Client :=
  ⟨.fgets,input,[],args,n,result,[]⟩

/-- The head of the loop, down to the call of `written`. -/
def Client.next (s : Client) : Client :=
  match fgets maxLine s.input with
  | none => { s with place := .returned }
  | some (line,rest) =>
    match scanTwo line with
    | none => { s with input := rest, sendline := line, log := s.log ++ [.invalid line] }
    | some args =>
      { s with place := .writing (Writing.enter sizeofArgs), input := rest, sendline := line,
               args := args }

/-- The rest of a pass, once `readn` has returned `got`. -/
def Client.finish (s : Client) (result : Memory UInt8) (got : ℤ) : Client :=
  let shown := if got = 0 then none else some (longOf (result.load 0 sizeofResult))
  { s with place := .fgets, result := result
           log := s.log ++ [.exchange s.sendline s.args s.n got shown] }

def numberCli : Process Client where
  pending s :=
    match s.place with
    | .fgets => .compute
    | .writing call => .write ((argsBytes s.args).drop call.off)
    | .reading call => .read call.left
    | .returned => .exited
  onRead s a :=
    match s.place with
    | .reading call =>
      let call := call.body sizeofResult a
      match call.ret with
      | none => { s with place := .reading call }
      | some got => s.finish call.dst got
    | _ => s
  onWrite s a :=
    match s.place with
    | .writing call =>
      let call := call.body sizeofArgs a
      match call.ret with
      | none => { s with place := .writing call }
      | some n => { s with place := .reading (Readn.enter sizeofResult s.result), n := n }
    | _ => s
  compute s := s.next

end Client

end Sum
end CPrograming
