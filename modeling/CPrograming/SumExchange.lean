import CPrograming.SumSession
import CPrograming.Exchange

/-!
# The sums of `sum.h`, record by record

`number_cli` and `number_echo` take turns: a record of sixteen bytes goes out for each line
with two numbers, and eight bytes come back. While nothing fails, the client prints the
result for each such line and says that every other line is invalid.
-/

namespace CPrograming
namespace Sum

open Connection Libc SocketFunc Runs

section Server

def Server.Sends (s : Server) (rest : List UInt8) : Prop :=
  ∃ k < sizeofResult, s.place = .writing (Writing.after sizeofResult k) ∧
    rest = (longBytes s.sum).drop k

def Server.Waits (s : Server) (half : List UInt8) : Prop :=
  ∃ call, s.place = .reading call ∧ call.Holds sizeofArgs half ∧ half.length < sizeofArgs

variable {s : Server} {call : Readn} {half rest new : List UInt8}

theorem head_waits (h : call.Holds sizeofArgs half) (hlt : half.length < sizeofArgs) :
    (s.head call).Waits half := by
  rw [head_incomplete h hlt]
  exact ⟨call,rfl,h,hlt⟩

theorem start_waits (sockfd : ℤ) (args : Memory UInt8) (sum : Long) :
    (Server.start sockfd args sum).Waits [] :=
  head_waits (Readn.enter_holds sizeofArgs args) (by decide)

theorem Server.Sends.pending (h : s.Sends rest) : numberEcho.pending s = .write rest := by
  obtain ⟨k,-,hplace,rfl⟩ := h
  simp only [numberEcho,hplace,Writing.after]

theorem Server.Sends.ne_nil (h : s.Sends rest) : rest ≠ [] := by
  obtain ⟨k,hk,-,rfl⟩ := h
  simpa [sizeofResult] using hk

theorem Server.Sends.accepted (h : s.Sends (new ++ rest)) (hne : new ≠ []) :
    (rest ≠ [] → (numberEcho.onWrite s (.accepted new.length)).Sends rest) ∧
      (rest = [] → (numberEcho.onWrite s (.accepted new.length)).Waits []) := by
  obtain ⟨k,hk,hplace,hdrop⟩ := h
  have hlen := sent_lengths hdrop
  have hpos := List.length_pos_iff.mpr hne
  rw [onWrite_sent hplace hpos (by omega)]
  constructor
  · intro hrest
    have hrest' := List.length_pos_iff.mpr hrest
    have hlt : k+new.length < sizeofResult := by omega
    rw [if_pos hlt]
    refine ⟨k+new.length,hlt,rfl,?_⟩
    have hnext := congrArg (List.drop new.length) hdrop
    rwa [List.drop_left,List.drop_drop] at hnext
  · rintro rfl
    rw [List.length_nil] at hlen
    rw [if_neg (by omega)]
    exact head_waits (Readn.enter_holds sizeofArgs s.args) (by decide)

theorem Server.Waits.asks (h : s.Waits half) :
    numberEcho.pending s = .read (sizeofArgs-half.length) := by
  obtain ⟨call,hplace,hcall,-⟩ := h
  simp only [numberEcho,hplace,hcall.left]

theorem Server.Waits.data {len : ℕ} (h : s.Waits half) (hp : numberEcho.pending s = .read len)
    (hlen : new.length ≤ len) (hne : new ≠ []) :
    ((half ++ new).length < sizeofArgs → (numberEcho.onRead s (.data new)).Waits (half ++ new)) ∧
    ((half ++ new).length = sizeofArgs → (numberEcho.onRead s (.data new)).Sends
      (longBytes (answer (argsOf (half ++ new))))) := by
  rw [h.asks,Pending.read.injEq] at hp
  obtain ⟨call,hplace,hcall,hlt⟩ := h
  have hnew := hcall.data hne (by omega)
  simp only [numberEcho,hplace]
  constructor
  · exact head_waits hnew
  · intro hall
    obtain ⟨hwriting,hsum⟩ := head_complete (s := s) hnew hall
    exact ⟨0,by decide,hwriting,by rw [hsum]; rfl⟩

theorem Server.Sends.spoken (h : s.Sends rest) :
    (numberEcho.onWrite s (.accepted rest.length)).Waits [] := by
  have hall : s.Sends (rest ++ []) := by
    rw [List.append_nil]
    exact h
  exact (hall.accepted h.ne_nil).2 rfl

theorem Server.Sends.refused (h : s.Sends rest) :
    (numberEcho.onWrite s (.fail .eintr)).Sends rest := by
  obtain ⟨k,hk,hplace,hrest⟩ := h
  have hret : (Writing.after sizeofResult k).ret = none := if_pos hk
  have hsame : numberEcho.onWrite s (.fail .eintr) = s := by
    simp only [numberEcho,hplace,Writing.body_interrupted hk,hret]
    rw [← hplace]
  rw [hsame]
  exact ⟨k,hk,hplace,hrest⟩

theorem Server.Waits.room (h : s.Waits half) : 0 < sizeofArgs-half.length := by
  obtain ⟨call,-,-,hlt⟩ := h
  omega

theorem Server.Waits.interrupted (h : s.Waits half) :
    (numberEcho.onRead s (.fail .eintr)).Waits half := by
  obtain ⟨call,hplace,hcall,hlt⟩ := h
  have hread : numberEcho.onRead s (.fail .eintr) = s.head call := by
    simp only [numberEcho,hplace,hcall.interrupted hlt]
  rw [hread]
  exact head_waits hcall hlt

theorem shorter {k : ℕ} (hrest : rest ≠ []) (h : (half ++ rest).length = k) : half.length < k := by
  have hpos := List.length_pos_iff.mpr hrest
  rw [List.length_append] at h
  omega

def numberServer : Exchange.Server numberEcho fun record => record.length = sizeofArgs where
  Sends _ := Server.Sends
  Waits _ := Server.Waits
  answer record := longBytes (answer (argsOf record))
  offers _ _ rest h := ⟨rest,[],h.ne_nil,(List.append_nil _).symm,h.pending⟩
  refused _ _ _ h := h.refused
  sent _ _ _ _ _ h _ hne hrest := (h.accepted hne).1 hrest
  spoken _ _ _ h _ := h.spoken
  asks _ _ _ h := ⟨_,h.room,h.asks⟩
  interrupted _ _ _ h := h.interrupted
  heard _ _ _ _ _ _ h hp hlen hne hrest hframe := (h.data hp hlen hne).1 (shorter hrest hframe)
  answers _ _ _ _ h hp hlen hne hframe := (h.data hp hlen hne).2 hframe

end Server

section Client

def entryFor (line bytes : List UInt8) : Entry :=
  match scanTwo line with
  | none => .invalid line
  | some args => .exchange line args sizeofArgs sizeofResult (some (longOf bytes))

structure Client.Keeps (x : List (List UInt8) × List Entry) (s : Client) : Prop where
  todo : inputLines maxLine s.input = x.1
  log : s.log = x.2

def Client.Ready (x : List (List UInt8) × List Entry) (s : Client) : Prop :=
  s.place = .fgets ∧ s.Keeps x

structure Client.Sends (x : List UInt8 × List (List UInt8) × List Entry) (s : Client)
    (rest : List UInt8) : Prop where
  place : ∃ k < sizeofArgs, s.place = .writing (Writing.after sizeofArgs k) ∧
    rest = (argsBytes s.args).drop k
  line : s.sendline = x.1
  args : scanTwo x.1 = some s.args
  keeps : s.Keeps x.2

structure Client.Waits (x : List UInt8 × List (List UInt8) × List Entry) (s : Client)
    (half : List UInt8) : Prop where
  place : ∃ call, s.place = .reading call ∧ call.Holds sizeofResult half ∧
    half.length < sizeofResult
  line : s.sendline = x.1
  args : scanTwo x.1 = some s.args
  wrote : s.n = sizeofArgs
  keeps : s.Keeps x.2

variable {x : List UInt8 × List (List UInt8) × List Entry} {s : Client}
  {half rest new : List UInt8}

theorem Client.Sends.pending (h : s.Sends x rest) : numberCli.pending s = .write rest := by
  obtain ⟨k,-,hplace,rfl⟩ := h.place
  simp only [numberCli,hplace,Writing.after]

theorem Client.Sends.ne_nil (h : s.Sends x rest) : rest ≠ [] := by
  obtain ⟨k,hk,-,rfl⟩ := h.place
  simpa using hk

theorem Client.Sends.accepted (h : s.Sends x (new ++ rest)) (hne : new ≠ []) :
    (rest ≠ [] → (numberCli.onWrite s (.accepted new.length)).Sends x rest) ∧
      (rest = [] → (numberCli.onWrite s (.accepted new.length)).Waits x []) := by
  obtain ⟨⟨k,hk,hplace,hdrop⟩,hline,hargs,hkeeps⟩ := h
  have hlen := congrArg List.length hdrop
  rw [List.length_append,List.length_drop,argsBytes_length] at hlen
  have hpos := List.length_pos_iff.mpr hne
  have hbody := Writing.body_accepted hpos (show k+new.length ≤ sizeofArgs by omega)
  constructor
  · intro hrest
    have hrest' := List.length_pos_iff.mpr hrest
    have hlt : k+new.length < sizeofArgs := by omega
    have hret : (Writing.after sizeofArgs (k+new.length)).ret = none := if_pos hlt
    have hwrite : numberCli.onWrite s (.accepted new.length) =
        { s with place := .writing (Writing.after sizeofArgs (k+new.length)) } := by
      simp only [numberCli,hplace,hbody,hret]
    rw [hwrite]
    refine ⟨⟨k+new.length,hlt,rfl,?_⟩,hline,hargs,hkeeps.todo,hkeeps.log⟩
    have hnext := congrArg (List.drop new.length) hdrop
    rwa [List.drop_left,List.drop_drop] at hnext
  · rintro rfl
    rw [List.length_nil] at hlen
    have hret : (Writing.after sizeofArgs (k+new.length)).ret = some (sizeofArgs : ℤ) :=
      if_neg (by omega)
    have hwrite : numberCli.onWrite s (.accepted new.length) =
        { s with place := .reading (Readn.enter sizeofResult s.result), n := sizeofArgs } := by
      simp only [numberCli,hplace,hbody,hret]
    rw [hwrite]
    exact ⟨⟨_,rfl,Readn.enter_holds sizeofResult s.result,by decide⟩,hline,hargs,rfl,
      hkeeps.todo,hkeeps.log⟩

theorem Client.Sends.spoken (h : s.Sends x rest) :
    (numberCli.onWrite s (.accepted rest.length)).Waits x [] := by
  have hall : s.Sends x (rest ++ []) := by
    rw [List.append_nil]
    exact h
  exact (hall.accepted h.ne_nil).2 rfl

theorem Client.Waits.asks (h : s.Waits x half) :
    numberCli.pending s = .read (sizeofResult-half.length) := by
  obtain ⟨call,hplace,hcall,-⟩ := h.place
  simp only [numberCli,hplace,hcall.left]

theorem Client.Waits.room (h : s.Waits x half) : 0 < sizeofResult-half.length := by
  obtain ⟨call,-,-,hlt⟩ := h.place
  omega

theorem Client.Waits.part {call : Readn} (h : s.Waits x half)
    (hcall : call.Holds sizeofResult rest) (hlt : rest.length < sizeofResult) :
    { s with place := .reading call }.Waits x rest :=
  ⟨⟨call,rfl,hcall,hlt⟩,h.line,h.args,h.wrote,h.keeps.todo,h.keeps.log⟩

theorem Client.Waits.finish {call : Readn} (h : s.Waits x half)
    (hcall : call.Holds sizeofResult rest) (hall : rest.length = sizeofResult) :
    (s.finish call.dst sizeofResult).Ready (x.2.1,x.2.2 ++ [entryFor x.1 rest]) := by
  have hload : call.dst.load 0 sizeofResult = rest := hall ▸ hcall.dst
  refine ⟨rfl,h.keeps.todo,?_⟩
  simp only [Client.finish,hload,entryFor,h.args,h.line,h.wrote,h.keeps.log]
  rfl

theorem Client.Waits.data {len : ℕ} (h : s.Waits x half) (hp : numberCli.pending s = .read len)
    (hlen : new.length ≤ len) (hne : new ≠ []) :
    ((half ++ new).length < sizeofResult →
      (numberCli.onRead s (.data new)).Waits x (half ++ new)) ∧
    ((half ++ new).length = sizeofResult → (numberCli.onRead s (.data new)).Ready
      (x.2.1,x.2.2 ++ [entryFor x.1 (half ++ new)])) := by
  rw [h.asks,Pending.read.injEq] at hp
  obtain ⟨call,hplace,hcall,hlt⟩ := h.place
  have hnew := hcall.data hne (by omega)
  constructor
  · intro hpart
    have hret := hnew.ret
    rw [if_pos hpart] at hret
    simp only [numberCli,hplace,hret]
    exact h.part hnew hpart
  · intro hall
    have hret := hnew.ret
    rw [if_neg (by omega)] at hret
    simp only [numberCli,hplace,hret]
    exact h.finish hnew hall

theorem Client.Ready.skips {line : List UInt8} {todo : List (List UInt8)} {log : List Entry}
    (h : s.Ready (line :: todo,log)) (hscan : scanTwo line = none) :
    s.next.Ready (todo,log ++ [entryFor line []]) := by
  obtain ⟨hplace,hkeeps⟩ := h
  obtain ⟨rest,hget,hrest⟩ := fgets_of_lines (by decide) hkeeps.todo
  simp only [Client.next,hget,hscan]
  refine ⟨hplace,hrest,?_⟩
  simp only [entryFor,hscan,hkeeps.log]

theorem Client.Ready.computes {y : List (List UInt8) × List Entry} (h : s.Ready y) :
    numberCli.pending s = .compute := by
  simp only [numberCli,h.1]

theorem Client.Ready.done {log : List Entry} (h : s.Ready ([],log)) :
    s.next.place = .returned ∧ s.next.log = log := by
  have hget := fgets_of_no_lines (by decide) h.2.todo
  simp only [Client.next,hget]
  exact ⟨trivial,h.2.log⟩

theorem Client.Sends.refused (h : s.Sends x rest) :
    (numberCli.onWrite s (.fail .eintr)).Sends x rest := by
  obtain ⟨k,hk,hplace,-⟩ := h.place
  have hret : (Writing.after sizeofArgs k).ret = none := if_pos hk
  have hsame : numberCli.onWrite s (.fail .eintr) = s := by
    simp only [numberCli,hplace,Writing.body_interrupted hk,hret]
    rw [← hplace]
  rwa [hsame]

theorem Client.Waits.interrupted (h : s.Waits x half) :
    (numberCli.onRead s (.fail .eintr)).Waits x half := by
  obtain ⟨call,hplace,hcall,hlt⟩ := h.place
  have hret : call.ret = none := by simp [hcall.ret,hlt]
  have hread : numberCli.onRead s (.fail .eintr) = { s with place := .reading call } := by
    simp only [numberCli,hplace,hcall.interrupted hlt,hret]
  rw [hread]
  exact h.part hcall hlt

def Client.ended (s : Client) : Bool :=
  match s.place with
  | .returned => true
  | _ => false

theorem Client.Ready.status {y : List (List UInt8) × List Entry} (h : s.Ready y) :
    s.log = y.2 ∧ s.ended = false :=
  ⟨h.2.log,by simp [Client.ended,h.1]⟩

theorem Client.Sends.status (h : s.Sends x rest) : s.log = x.2.2 ∧ s.ended = false := by
  obtain ⟨k,-,hplace,-⟩ := h.place
  exact ⟨h.keeps.log,by simp [Client.ended,hplace]⟩

theorem Client.Waits.status (h : s.Waits x half) : s.log = x.2.2 ∧ s.ended = false := by
  obtain ⟨call,hplace,-⟩ := h.place
  exact ⟨h.keeps.log,by simp [Client.ended,hplace]⟩

end Client

section Session

variable {lines : List (List UInt8)}

end Session

end Sum
end CPrograming
