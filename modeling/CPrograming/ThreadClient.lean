import CPrograming.StrExchange
import CPrograming.Written
import CPrograming.ReadlineAnswers
import CPrograming.Duplex

/-!
# The threads of `thread_client.c`

`copyto` sends the lines of the input and shuts its direction down; the main thread prints
the lines that come back and ends the program. With `str_echo` at the other end nobody waits
for ever, whatever the input is. `readline` throws away what it has read behind a newline, on
either side, so the output is the input with some of its bytes left out; the first line is
always there.
-/

namespace CPrograming
namespace ThreadClient

open Connection Libc SocketFunc Readline Runs StrSession Duplex

section Copyto

inductive CopytoPlace
  | fgets
  | writing (call : Writing)
  | returned
  deriving DecidableEq

structure Copyto where
  place : CopytoPlace
  input : List UInt8
  sendline : List UInt8

def Copyto.text (s : Copyto) : List UInt8 := cString s.sendline

/-- Where `written` waits or has returned; its result is not looked at. -/
def Copyto.send (s : Copyto) (call : Writing) : Copyto :=
  match call.ret with
  | none => { s with place := .writing call }
  | some _ => { s with place := .fgets }

def Copyto.next (s : Copyto) : Copyto :=
  match fgets maxLine s.input with
  | none => { s with place := .returned }
  | some (line,rest) =>
    let s := { s with input := rest, sendline := line }
    s.send (Writing.enter s.text.length)

/-- Closing the direction is its `shutdown`. -/
def copyto : Process Copyto where
  pending s :=
    match s.place with
    | .fgets => .compute
    | .writing call => .write (s.text.drop call.off)
    | .returned => .exited
  onRead s _ := s
  onWrite s a :=
    match s.place with
    | .writing call => s.send (call.body s.text.length a)
    | _ => s
  compute s := s.next

end Copyto

section Main

inductive MainPlace
  | head
  | reading
  | returned
  deriving DecidableEq

/-- The state of `thread_str_cli`, with the static variables of `readline`. -/
structure Main where
  place : MainPlace
  sockfd : ℤ
  recvline : Memory UInt8
  reader : Reader
  stdout : List UInt8

def Main.receive (s : Main) : Main :=
  let call := readline s.sockfd maxLine s.reader
  match call.ret with
  | none => { s with place := .reading }
  | some n =>
    let s := { s with recvline := s.recvline.storeAll call.stores, reader := call.reader }
    if 0 < n then
      { s with place := .head, stdout := s.stdout ++ cString (s.recvline.load 0 (maxLine+1)) }
    else { s with place := .returned }

def threadStrCli : Process Main where
  pending s :=
    match s.place with
    | .head => .compute
    | .reading => .read maxLine
    | .returned => .exited
  onRead s a :=
    match s.place with
    | .reading => { s with reader := s.reader.feed a }.receive
    | _ => s
  onWrite s _ := s
  compute s := s.receive

end Main

def start (input : List UInt8) (clientSock serverSock : ℤ) (recvline buffer : Memory UInt8) :
    World Copyto Server Main :=
  ⟨⟨.fgets,input,[]⟩,Server.start serverSock buffer,
    ⟨.head,clientSock,recvline,Readline.start [],[]⟩,⟨[],false⟩,⟨[],false⟩⟩

def nonzero (bytes : List UInt8) : List UInt8 := bytes.filter (· ≠ 0)

section Nonzero

variable {xs ys piece text : List UInt8}

@[simp] theorem nonzero_append (xs ys : List UInt8) :
    nonzero (xs ++ ys) = nonzero xs ++ nonzero ys :=
  List.filter_append ..

theorem nonzero_mono (h : xs.Sublist ys) : (nonzero xs).Sublist (nonzero ys) := h.filter _

theorem nonzero_text (hpiece : piece <+: text) (htext : text <+: piece ++ [0]) :
    nonzero text = nonzero piece := by
  obtain ⟨more,rfl⟩ := hpiece
  have hmore : more <+: [0] := (List.prefix_append_right_inj piece).mp htext
  rcases List.prefix_concat_iff.mp (show more <+: [] ++ [0] from hmore) with rfl | hnil
  · simp [nonzero]
  · rw [List.prefix_nil.mp hnil,List.append_nil]

end Nonzero

section First

variable {f : List UInt8 → List UInt8} {got out piece line : List UInt8}

/-- The first piece of what has come is at the front of what has gone out. -/
def First (f : List UInt8 → List UInt8) (got out : List UInt8) : Prop :=
  ∃ piece, Whole (maxLine+1) piece ∧ piece <+: got ∧ f piece <+: out

theorem First.append (h : First f got out) (new more : List UInt8) :
    First f (got ++ new) (out ++ more) := by
  obtain ⟨piece,hwhole,hgot,hout⟩ := h
  exact ⟨piece,hwhole,hgot.trans (List.prefix_append _ _),hout.trans (List.prefix_append _ _)⟩

end First

section Writer

variable {s : Copyto} {x : Past} {total : List UInt8}

def Copyto.later (s : Copyto) : List UInt8 := (inputLines maxLine s.input).flatMap cString

inductive Copyto.Keeps (total : List UInt8) (x : Past) (s : Copyto) : Prop
  | fgets (hplace : s.place = .fgets) (htotal : x.put ++ s.later = total)
  | writing {k : ℕ} (hk : k < s.text.length)
      (hplace : s.place = .writing (Writing.after s.text.length k))
      (htotal : x.put ++ (s.text.drop k ++ s.later) = total)
  | returned (hplace : s.place = .returned) (htotal : x.put = total)

/-- Nine for a byte of the input: one for `fgets` and eight to send it. -/
def Copyto.cost (s : Copyto) : ℕ :=
  match s.place with
  | .fgets => 1+9*s.input.length
  | .writing call => 1+9*s.input.length+8*call.left.toNat
  | .returned => 0

theorem send_keeps {k : ℕ} (hk : k ≤ s.text.length)
    (htotal : x.put ++ (s.text.drop k ++ s.later) = total) :
    (s.send (Writing.after s.text.length k)).Keeps total x ∧
      (s.send (Writing.after s.text.length k)).cost ≤
        1+9*s.input.length+8*(s.text.length-k) := by
  by_cases hlt : k < s.text.length
  · have hret : (Writing.after s.text.length k).ret = none := if_pos hlt
    simp only [Copyto.send,hret]
    refine ⟨.writing hlt rfl htotal,?_⟩
    simp only [Copyto.cost,Writing.after_left]
    exact le_refl _
  · have hret : (Writing.after s.text.length k).ret = some (s.text.length : ℤ) := if_neg hlt
    simp only [Copyto.send,hret]
    rw [List.drop_of_length_le (by omega),List.nil_append] at htotal
    refine ⟨.fgets rfl htotal,?_⟩
    simp only [Copyto.cost]
    omega

theorem next_keeps (hplace : s.place = .fgets) (htotal : x.put ++ s.later = total) :
    s.next.Keeps total x ∧ s.next.cost+1 ≤ s.cost := by
  cases hget : fgets maxLine s.input with
  | none =>
    simp only [Copyto.later,eq_nil_of_fgets hget,inputLines_nil,List.flatMap_nil,
      List.append_nil] at htotal
    simp only [Copyto.next,hget]
    exact ⟨.returned rfl htotal,by simp [Copyto.cost,hplace]⟩
  | some pair =>
    obtain ⟨line,rest⟩ := pair
    rw [Copyto.later,inputLines_cons (by decide) hget,List.flatMap_cons] at htotal
    obtain ⟨hkeeps,hcost⟩ := send_keeps (s := { s with input := rest, sendline := line })
      (Nat.zero_le _) htotal
    have hlen := congrArg List.length (fgets_append hget)
    have hshorter := fgets_shorter (by decide : 1 < maxLine) hget
    have htext : (cString line).length ≤ line.length := (List.takeWhile_sublist _).length_le
    have hnext : s.next = { s with input := rest, sendline := line }.send
        (Writing.after (cString line).length 0) := by
      simp only [Copyto.next,hget,Copyto.text,Writing.enter_eq_after]
    rw [hnext]
    refine ⟨hkeeps,?_⟩
    simp only [Copyto.text,Nat.sub_zero] at hcost
    rw [List.length_append] at hlen
    have hcost' : s.cost = 1+9*s.input.length := by simp only [Copyto.cost,hplace]
    omega

theorem Copyto.Keeps.of_write {bytes : List UInt8} (h : s.Keeps total x)
    (hp : copyto.pending s = .write bytes) :
    ∃ k < s.text.length, s.place = .writing (Writing.after s.text.length k) ∧
      bytes = s.text.drop k ∧ x.put ++ (bytes ++ s.later) = total := by
  cases h with
  | fgets hplace => simp [copyto,hplace] at hp
  | @writing k hk hplace htotal =>
    simp only [copyto,hplace,Pending.write.injEq,Writing.after] at hp
    subst bytes
    exact ⟨k,hk,hplace,rfl,htotal⟩
  | returned hplace => simp [copyto,hplace] at hp

theorem Copyto.Keeps.put (h : s.Keeps total x) : x.put <+: total := by
  cases h with
  | fgets hplace htotal => exact ⟨_,htotal⟩
  | writing hk hplace htotal => exact ⟨_,htotal⟩
  | returned hplace htotal => exact htotal ▸ List.prefix_refl _

end Writer

section Echo

variable {s : Server} {x : Past} {half rest new : List UInt8}

/-- The server waits for the rest of a line, sends a piece back, or has seen the end. -/
inductive Echoes (x : Past) (s : Server) : Prop
  | waits {half : List UInt8} (h : s.Waits half)
      (hflow : (nonzero x.put ++ nonzero half).Sublist (nonzero x.got))
      (hfirst : x.put = [] ∧ half = x.got ∨ First id x.got x.put)
  | sends {rest : List UInt8} (h : s.Sends rest)
      (hflow : (nonzero x.put ++ nonzero rest).Sublist (nonzero x.got))
      (hfirst : First id x.got (x.put ++ rest))
  | returned (hplace : s.place = .returned) (heof : x.eof = true)
      (hflow : (nonzero x.put).Sublist (nonzero x.got))
      (hfirst : newline ∉ x.got ∨ First id x.got x.put)

/-- Three to send a byte and six for one that waits, as a 0 may be sent with it. -/
def echoCost (s : Server) : ℕ :=
  match s.place with
  | .reading => 1+6*(s.reader.answers.flatMap ReadAnswer.bytes).length
  | .writing _ call => 1+3*call.left.toNat
  | .returned => 0

theorem echoCost_waits (h : s.Waits half) : echoCost s = 1+6*half.length := by
  simp only [echoCost,h.1,h.2.1.bytes]

theorem echoCost_sends (h : s.Sends rest) : echoCost s = 1+3*rest.length := by
  obtain ⟨text,k,-,rfl,hplace,-⟩ := h
  simp only [echoCost,hplace,Writing.after_left,List.length_drop]

/-- A piece is sent back, with the 0 behind it if it fills the buffer. -/
theorem head_sends {piece text : List UInt8} {r : Reader} (hne : text ≠ [])
    (hcall : readline s.sock maxLine s.reader =
      ⟨some (text.length : ℤ),Memory.storesFrom 0 (piece ++ [0]),r⟩) (hr : r.Got [])
    (htext : text <+: piece ++ [0]) : s.head.Sends text := by
  have hpos := List.length_pos_iff.mpr hne
  have hload : (s.buffer.storeAll (Memory.storesFrom 0 (piece ++ [0]))).load 0 text.length =
      text := by
    obtain ⟨more,hmore⟩ := htext
    rw [← hmore]
    exact Memory.load_storesFrom s.buffer 0 text more
  refine ⟨text,0,hpos,rfl,?_⟩
  simp only [Server.head,hcall]
  rw [if_pos (by exact_mod_cast hpos)]
  exact ⟨congrArg _ (Writing.enter_eq_after _),hr,hload⟩

theorem echo_data (h : s.Waits half) (hlen : new.length ≤ maxLine) (hne : new ≠ []) :
    (strEcho.onRead s (.data new)).Waits (half ++ new) ∨
      ∃ piece text, (strEcho.onRead s (.data new)).Sends text ∧ Whole (maxLine+1) piece ∧
        piece <+: half ++ new ∧ piece <+: text ∧ text <+: piece ++ [0] := by
  obtain ⟨hread,hgot⟩ := h.data Server.head hlen hne
  obtain ⟨hplace,hreader,hnone,hshort⟩ := h
  rw [strEcho_eq_lineLoop,hread]
  rcases hreader.next s.sock hnone hshort hne hlen with
    ⟨hnone',hshort'⟩ | ⟨piece,text,r,hcall,hr,hwhole,hpre,htext,htext'⟩
  · left
    rw [head_waits hgot hnone' hshort']
    exact ⟨rfl,hgot,hnone',hshort'⟩
  · right
    have hne' : text ≠ [] := fun hnil =>
      piece_ne_nil hwhole (List.prefix_nil.mp (hnil ▸ htext))
    exact ⟨piece,text,head_sends (s := { s with reader := s.reader.feed (.data new) }) hne' hcall hr
      htext',hwhole,hpre,htext,htext'⟩

theorem echo_ended (h : s.Waits half) : (strEcho.onRead s (.data [])).place = .returned := by
  obtain ⟨hplace,hreader,hnone,hshort⟩ := h
  have hret := hreader.ended s.sock hnone hshort
  simp only [strEcho,hplace,Server.head,hret]
  simp [Server.print]

theorem Echoes.of_read {len : ℕ} (h : Echoes x s) (hp : strEcho.pending s = .read len) :
    len = maxLine ∧ ∃ half, s.Waits half ∧
      (nonzero x.put ++ nonzero half).Sublist (nonzero x.got) ∧
      (x.put = [] ∧ half = x.got ∨ First id x.got x.put) := by
  cases h with
  | waits h hflow hfirst =>
    simp only [strEcho,h.1,Pending.read.injEq] at hp
    exact ⟨hp.symm,_,h,hflow,hfirst⟩
  | sends h =>
    obtain ⟨text,k,-,-,hplace,-⟩ := h
    simp [strEcho,hplace] at hp
  | returned hplace => simp [strEcho,hplace] at hp

theorem Echoes.of_write {bytes : List UInt8} (h : Echoes x s)
    (hp : strEcho.pending s = .write bytes) :
    s.Sends bytes ∧ (nonzero x.put ++ nonzero bytes).Sublist (nonzero x.got) ∧
      First id x.got (x.put ++ bytes) := by
  cases h with
  | waits h => simp [strEcho,h.1] at hp
  | sends h hflow hfirst =>
    have hwrite : strEcho.pending s = .write _ := h.pending
    rw [hp,Pending.write.injEq] at hwrite
    subst bytes
    exact ⟨h,hflow,hfirst⟩
  | returned hplace => simp [strEcho,hplace] at hp

theorem Echoes.offers {bytes : List UInt8} (h : Echoes x s)
    (hp : strEcho.pending s = .write bytes) :
    bytes ≠ [] := by
  obtain ⟨text,k,hk,rfl,-⟩ := (h.of_write hp).1
  simpa using hk

/-- More of the stream has come: it is kept, or its first piece is sent back. -/
theorem Echoes.data {len : ℕ} (h : Echoes x s) (hp : strEcho.pending s = .read len) (hne : new ≠ [])
    (hlen : new.length ≤ len) :
    Echoes { x with got := x.got ++ new } (strEcho.onRead s (.data new)) ∧
      echoCost (strEcho.onRead s (.data new))+1 ≤ echoCost s+7*new.length := by
  obtain ⟨rfl,half,hwaits,hflow,hfirst⟩ := h.of_read hp
  have hcost := echoCost_waits hwaits
  have hpos := List.length_pos_iff.mpr hne
  have hmore : (nonzero x.put ++ nonzero (half ++ new)).Sublist (nonzero (x.got ++ new)) := by
    simpa using hflow.append_right (nonzero new)
  rcases echo_data hwaits hlen hne with hwaits' | ⟨piece,text,hsends,hwhole,hpre,htext,htext'⟩
  · refine ⟨.waits hwaits' hmore ?_,?_⟩
    · rcases hfirst with ⟨hput,rfl⟩ | hfirst
      · exact Or.inl ⟨hput,rfl⟩
      · exact Or.inr (by simpa using hfirst.append new [])
    · rw [echoCost_waits hwaits',hcost,List.length_append]
      omega
  · refine ⟨.sends hsends ?_ ?_,?_⟩
    · rw [nonzero_text htext htext']
      exact ((nonzero_mono hpre.sublist).append_left _).trans hmore
    · rcases hfirst with ⟨hput,rfl⟩ | hfirst
      · exact ⟨piece,hwhole,hpre,by simpa [hput] using htext⟩
      · exact hfirst.append new text
    · have hone := List.length_pos_iff.mpr (piece_ne_nil hwhole)
      have hpre' := hpre.length_le
      have htext'' := htext'.length_le
      rw [List.length_append] at hpre' htext''
      rw [List.length_singleton] at htext''
      rw [echoCost_sends hsends,hcost]
      omega

theorem Echoes.ended {len : ℕ} (h : Echoes x s) (hp : strEcho.pending s = .read len) :
    Echoes { x with eof := true } (strEcho.onRead s (.data [])) ∧
      echoCost (strEcho.onRead s (.data []))+1 ≤ echoCost s := by
  obtain ⟨-,half,hwaits,hflow,hfirst⟩ := h.of_read hp
  have hplace := echo_ended hwaits
  refine ⟨.returned hplace rfl ((List.sublist_append_left _ _).trans hflow) ?_,?_⟩
  · rcases hfirst with ⟨-,rfl⟩ | hfirst
    · exact Or.inl hwaits.2.2.1
    · exact Or.inr hfirst
  · have hcost := echoCost_waits hwaits
    simp only [echoCost,hplace] at hcost ⊢
    omega

theorem Echoes.sent (h : Echoes x s) (hp : strEcho.pending s = .write (new ++ rest))
    (hne : new ≠ []) :
    Echoes { x with put := x.put ++ new } (strEcho.onWrite s (.accepted new.length)) ∧
      echoCost (strEcho.onWrite s (.accepted new.length))+1+2*new.length ≤ echoCost s := by
  obtain ⟨hsends,hflow,hfirst⟩ := h.of_write hp
  have hcost := echoCost_sends hsends
  have hpos := List.length_pos_iff.mpr hne
  rw [nonzero_append] at hflow
  rw [List.length_append] at hcost
  rw [← List.append_assoc] at hfirst
  rw [strEcho_eq_lineLoop]
  by_cases hrest : rest = []
  · subst rest
    have hwaits := (hsends.accepted head_answers hne).2 rfl
    rw [List.append_nil] at hfirst
    refine ⟨.waits hwaits (by simpa [nonzero] using hflow) (Or.inr hfirst),?_⟩
    rw [echoCost_waits hwaits,hcost]
    simp only [List.length_nil]
    omega
  · have hmore := (hsends.accepted head_answers hne).1 hrest
    refine ⟨.sends hmore (by simpa using hflow) hfirst,?_⟩
    rw [echoCost_sends hmore,hcost]
    omega

theorem Echoes.interrupted {len : ℕ} (h : Echoes x s) (hp : strEcho.pending s = .read len) :
    Echoes x (strEcho.onRead s (.fail .eintr)) ∧
      echoCost (strEcho.onRead s (.fail .eintr)) ≤ echoCost s := by
  obtain ⟨-,half,hwaits,hflow,hfirst⟩ := h.of_read hp
  have hagain := (lineServer head_answers).interrupted () s half hwaits
  refine ⟨.waits hagain hflow hfirst,?_⟩
  rw [echoCost_waits hwaits]
  exact (echoCost_waits hagain).le

theorem Echoes.refused {bytes : List UInt8} (h : Echoes x s)
    (hp : strEcho.pending s = .write bytes) : Echoes x (strEcho.onWrite s (.fail .eintr)) ∧
      echoCost (strEcho.onWrite s (.fail .eintr)) ≤ echoCost s := by
  obtain ⟨hsends,hflow,hfirst⟩ := h.of_write hp
  have hagain := (lineServer head_answers).refused () s bytes hsends
  refine ⟨.sends hagain hflow hfirst,?_⟩
  rw [echoCost_sends hsends]
  exact (echoCost_sends hagain).le

end Echo

section Reader

variable {s : Main} {x : Past} {half new : List UInt8}

structure Main.Waits (s : Main) (half : List UInt8) : Prop where
  place : s.place = .reading
  reader : s.reader.Got half
  none : newline ∉ half
  short : half.length < maxLine

inductive Main.Prints (x : Past) (s : Main) : Prop
  | head (hplace : s.place = .head) (hreader : s.reader.Got [])
      (hflow : s.stdout.Sublist (nonzero x.got))
      (hfirst : s.stdout = [] ∧ x.got = [] ∨ First cString x.got s.stdout)
  | waits {half : List UInt8} (h : s.Waits half)
      (hflow : (s.stdout ++ nonzero half).Sublist (nonzero x.got))
      (hfirst : s.stdout = [] ∧ x.got = half ∨ First cString x.got s.stdout)
  | returned (hplace : s.place = .returned) (heof : x.eof = true)
      (hflow : s.stdout.Sublist (nonzero x.got))
      (hfirst : newline ∉ x.got ∨ First cString x.got s.stdout)

def Main.cost (s : Main) : ℕ :=
  match s.place with
  | .head => 2
  | .reading => 1
  | .returned => 0

theorem receive_waits (h : s.reader.Got half) (hnone : newline ∉ half)
    (hlen : half.length < maxLine) : s.receive = { s with place := .reading } := by
  have hret : (readline s.sockfd maxLine s.reader).ret = none :=
    h.waits s.sockfd hnone (by exact_mod_cast hlen)
  simp only [Main.receive,hret]

theorem Main.Prints.of_read {len : ℕ} (h : s.Prints x) (hp : threadStrCli.pending s = .read len) :
    len = maxLine ∧ ∃ half, s.Waits half ∧ (s.stdout ++ nonzero half).Sublist (nonzero x.got) ∧
      (s.stdout = [] ∧ x.got = half ∨ First cString x.got s.stdout) := by
  cases h with
  | head hplace => simp [threadStrCli,hplace] at hp
  | waits h hflow hfirst =>
    simp only [threadStrCli,h.place,Pending.read.injEq] at hp
    exact ⟨hp.symm,_,h,hflow,hfirst⟩
  | returned hplace => simp [threadStrCli,hplace] at hp

end Reader

variable {input : List UInt8} {clientSock serverSock : ℤ} {recvline buffer : Memory UInt8}

theorem Copyto.Keeps.all {s : Copyto} {total : List UInt8} {x : Past} (h : s.Keeps total x)
    (hp : copyto.pending s = .exited) : x.put = total := by
  cases h with
  | fgets hplace => simp [copyto,hplace] at hp
  | writing hk hplace => simp [copyto,hplace] at hp
  | returned hplace htotal => exact htotal

theorem Echoes.first {s : Server} {x : Past} (h : Echoes x s) (hp : strEcho.pending s = .exited) :
    newline ∉ x.got ∨ First id x.got x.put := by
  cases h with
  | waits h => simp [strEcho,h.1] at hp
  | sends h =>
    obtain ⟨text,k,-,-,hplace,-⟩ := h
    simp [strEcho,hplace] at hp
  | returned hplace heof hflow hfirst => exact hfirst

theorem Main.Prints.first {s : Main} {x : Past} (h : s.Prints x)
    (hp : threadStrCli.pending s = .exited) :
    newline ∉ x.got ∨ First cString x.got s.stdout := by
  cases h with
  | head hplace => simp [threadStrCli,hplace] at hp
  | waits h => simp [threadStrCli,h.place] at hp
  | returned hplace heof hflow hfirst => exact hfirst

end ThreadClient
end CPrograming
