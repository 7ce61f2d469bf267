import CPrograming.StrExchange

/-!
# The split writes of `str_cli_pipe`

`str_cli_pipe` sends the first byte of a line with one `written` and what follows it with
another, and looks at neither result. It takes turns with the server as `str_cli` does, so
the cut is not seen in what it prints.
-/

namespace CPrograming
namespace StrCliPipe

open Connection Libc SocketFunc Readline Runs StrSession

inductive Place
  | fgets
  | first (call : Writing)
  | second (call : Writing)
  | reading
  | returned
  | exited
  deriving DecidableEq

/-- The state of `str_cli_pipe`; `sendline` holds what `fgets` has put there. -/
structure Pipe where
  place : Place
  sock : ℤ
  input : List UInt8
  sendline : List UInt8
  recvline : Memory UInt8
  reader : Reader
  stdout : List UInt8

def Pipe.text (s : Pipe) : List UInt8 := cString s.sendline

/-- From the call of `readline` to the end of the pass. An error of `readline` is not seen. -/
def Pipe.receive (s : Pipe) : Pipe :=
  let call := readline s.sock maxLine s.reader
  match call.ret with
  | none => { s with place := .reading }
  | some n =>
    let s := { s with recvline := s.recvline.storeAll call.stores, reader := call.reader }
    if n = 0 then { s with place := .exited, stdout := s.stdout ++ ascii "readline error\n" }
    else
      { s with
        place := .fgets
        stdout := s.stdout ++ cString (s.recvline.load 0 (maxLine+1)) }

def Pipe.sendRest (s : Pipe) (call : Writing) : Pipe :=
  match call.ret with
  | none => { s with place := .second call }
  | some _ => s.receive

def Pipe.sendFirst (s : Pipe) (call : Writing) : Pipe :=
  match call.ret with
  | none => { s with place := .first call }
  | some _ => s.sendRest (Writing.enter ((s.text.length : ℤ)-1))

def Pipe.next (s : Pipe) : Pipe :=
  match fgets maxLine s.input with
  | none => { s with place := .returned }
  | some (line,rest) => { s with input := rest, sendline := line }.sendFirst (Writing.enter 1)

def Pipe.start (sock : ℤ) (input : List UInt8) (recvline : Memory UInt8) : Pipe :=
  ⟨.fgets,sock,input,[],recvline,Readline.start [],[]⟩

def strCliPipe : Process Pipe where
  pending s :=
    match s.place with
    | .fgets => .compute
    | .first call => .write ((s.sendline.take 1).drop call.off)
    | .second call => .write ((s.text.drop 1).drop call.off)
    | .reading => .read maxLine
    | .returned | .exited => .exited
  onRead s a :=
    match s.place with
    | .reading => { s with reader := s.reader.feed a }.receive
    | _ => s
  onWrite s a :=
    match s.place with
    | .first call => s.sendFirst (call.body 1 a)
    | .second call => s.sendRest (call.body ((s.text.length : ℤ)-1) a)
    | _ => s
  compute s := s.next

section Turns

structure Pipe.Keeps (x : List (List UInt8) × List UInt8) (s : Pipe) : Prop where
  reader : s.reader.Got []
  todo : (inputLines maxLine s.input).map cString = x.1
  stdout : s.stdout = x.2

def Pipe.Ready (x : List (List UInt8) × List UInt8) (s : Pipe) : Prop :=
  s.place = .fgets ∧ s.Keeps x

/-- The line is whole, or its first byte is sent and the second `written` has got to `k`. -/
inductive Pipe.Sends (x : List (List UInt8) × List UInt8) (s : Pipe) : List UInt8 → Prop
  | first {b : UInt8} {rest : List UInt8} (hplace : s.place = .first (Writing.after 1 0))
      (hline : s.sendline.take 1 = [b]) (htext : s.text = b :: rest) (hkeeps : s.Keeps x) :
      Sends x s (b :: rest)
  | second {b : UInt8} {rest : List UInt8} {k : ℕ} (hk : k < rest.length)
      (hplace : s.place = .second (Writing.after rest.length k)) (htext : s.text = b :: rest)
      (hkeeps : s.Keeps x) : Sends x s (rest.drop k)

structure Pipe.Waits (x : List (List UInt8) × List UInt8) (s : Pipe) (half : List UInt8) :
    Prop where
  place : s.place = .reading
  reader : s.reader.Got half
  none : newline ∉ half
  short : half.length < maxLine
  todo : (inputLines maxLine s.input).map cString = x.1
  stdout : s.stdout = x.2

variable {x : List (List UInt8) × List UInt8} {s : Pipe} {half line rest new : List UInt8}
  {b : UInt8}

theorem receive_waits (h : s.reader.Got half) (hnone : newline ∉ half)
    (hlen : half.length < maxLine) : s.receive = { s with place := .reading } := by
  have hret : (readline s.sock maxLine s.reader).ret = none :=
    h.waits s.sock hnone (by exact_mod_cast hlen)
  simp only [Pipe.receive,hret]

theorem receive_line (h : s.reader.Got line) (hline : Echoable line) :
    s.receive.place = .fgets ∧ s.receive.reader.Got [] ∧ s.receive.input = s.input ∧
      s.receive.stdout = s.stdout ++ cString line := by
  have hlen : (line.length : ℤ) < maxLine := by exact_mod_cast hline.short
  obtain ⟨r,hr,hcall⟩ := h.line s.sock hline.line hlen
  have hpos := hline.length_pos
  have hload := cString_load s.recvline (maxLine+1) (Nat.lt_succ_of_lt hline.short)
  simp only [Pipe.receive,hcall]
  rw [if_neg (by omega)]
  exact ⟨rfl,hr,rfl,congrArg (s.stdout ++ ·) hload⟩

/-- The second `written` still has bytes to send, or the client waits for the answer. -/
theorem sendRest_after (k : ℕ) (htext : s.text = b :: rest) (hkeeps : s.Keeps x) :
    (k < rest.length → (s.sendRest (Writing.after rest.length k)).Sends x (rest.drop k)) ∧
      (k = rest.length → (s.sendRest (Writing.after rest.length k)).Waits x []) := by
  constructor
  · intro hlt
    have hret : (Writing.after rest.length k).ret = none := if_pos hlt
    simp only [Pipe.sendRest,hret]
    exact .second hlt rfl htext ⟨hkeeps.reader,hkeeps.todo,hkeeps.stdout⟩
  · intro heq
    have hret : (Writing.after rest.length k).ret = some (rest.length : ℤ) := if_neg (by omega)
    simp only [Pipe.sendRest,hret]
    rw [receive_waits hkeeps.reader List.not_mem_nil maxLine_pos]
    exact ⟨rfl,hkeeps.reader,List.not_mem_nil,maxLine_pos,hkeeps.todo,hkeeps.stdout⟩

theorem left_after (htext : s.text = b :: rest) : (s.text.length : ℤ)-1 = rest.length := by
  rw [htext,List.length_cons]
  omega

theorem first_accepted (hplace : s.place = .first (Writing.after 1 0))
    (htext : s.text = b :: rest) :
    strCliPipe.onWrite s (.accepted 1) = s.sendRest (Writing.after rest.length 0) := by
  have hbody : (Writing.after 1 0).body ((1 : ℕ) : ℤ) (.accepted 1) = Writing.after 1 1 :=
    Writing.body_accepted Nat.one_pos (le_refl 1)
  rw [Nat.cast_one] at hbody
  have hret : (Writing.after 1 1).ret = some 1 := rfl
  simp only [strCliPipe,hplace,hbody,Pipe.sendFirst,hret,left_after htext,Writing.enter_eq_after]

theorem second_accepted {k j : ℕ} (hplace : s.place = .second (Writing.after rest.length k))
    (htext : s.text = b :: rest) (hj : 0 < j) (hle : k+j ≤ rest.length) :
    strCliPipe.onWrite s (.accepted j) = s.sendRest (Writing.after rest.length (k+j)) := by
  simp only [strCliPipe,hplace,left_after htext,Writing.body_accepted hj hle]

theorem second_pending {k : ℕ} (hplace : s.place = .second (Writing.after rest.length k))
    (htext : s.text = b :: rest) : strCliPipe.pending s = .write (rest.drop k) := by
  simp only [strCliPipe,hplace,Writing.after,htext,List.drop_succ_cons,List.drop_zero]

theorem first_pending (hplace : s.place = .first (Writing.after 1 0))
    (hline : s.sendline.take 1 = [b]) : strCliPipe.pending s = .write [b] := by
  simp only [strCliPipe,hplace,Writing.after,hline,List.drop_zero]

theorem Pipe.Sends.offers (h : s.Sends x rest) : ∃ now later, now ≠ [] ∧ rest = now ++ later ∧
    strCliPipe.pending s = .write now := by
  cases h with
  | @first b rest hplace hline htext hkeeps =>
    exact ⟨[b],rest,by simp,rfl,first_pending hplace hline⟩
  | @second b rest k hk hplace htext hkeeps =>
    exact ⟨rest.drop k,[],by simpa using hk,(List.append_nil _).symm,second_pending hplace htext⟩

theorem Pipe.Sends.refused (h : s.Sends x rest) :
    (strCliPipe.onWrite s (.fail .eintr)).Sends x rest := by
  have hsame : strCliPipe.onWrite s (.fail .eintr) = s := by
    cases h with
    | first hplace hline htext hkeeps =>
      have hbody : (Writing.after 1 0).body ((1 : ℕ) : ℤ) (.fail .eintr) = Writing.after 1 0 :=
        Writing.body_interrupted Nat.one_pos
      rw [Nat.cast_one] at hbody
      have hret : (Writing.after 1 0).ret = none := rfl
      simp only [strCliPipe,hplace,hbody,Pipe.sendFirst,hret]
      rw [← hplace]
    | @second b rest k hk hplace htext hkeeps =>
      have hret : (Writing.after rest.length k).ret = none := if_pos hk
      simp only [strCliPipe,hplace,left_after htext,Writing.body_interrupted hk,Pipe.sendRest,hret]
      rw [← hplace]
  rwa [hsame]

theorem Pipe.Sends.sent {more later : List UInt8} (h : s.Sends x (new ++ (more ++ later)))
    (hp : strCliPipe.pending s = .write (new ++ more)) (hne : new ≠ [])
    (hlater : more ++ later ≠ []) :
    (strCliPipe.onWrite s (.accepted new.length)).Sends x (more ++ later) := by
  have hpos := List.length_pos_iff.mpr hne
  have hrest := List.length_pos_iff.mpr hlater
  generalize hall : new ++ (more ++ later) = all at h
  cases h with
  | @first b rest hplace hline htext hkeeps =>
    rw [first_pending hplace hline,Pending.write.injEq] at hp
    have hone := congrArg List.length hp
    rw [List.length_append,List.length_singleton] at hone
    obtain rfl : more = [] := List.length_eq_zero_iff.mp (by omega)
    rw [List.append_nil] at hp
    subst hp
    obtain ⟨-,rfl⟩ := List.cons.inj (show b :: ([] ++ later) = b :: rest from hall)
    rw [List.length_singleton,first_accepted hplace htext]
    exact (sendRest_after 0 htext hkeeps).1 hrest
  | @second b rest k hk hplace htext hkeeps =>
    have hlen := congrArg List.length hall
    rw [List.length_append,List.length_drop] at hlen
    have hnext := congrArg (List.drop new.length) hall
    rw [List.drop_left,List.drop_drop] at hnext
    rw [second_accepted hplace htext hpos (by omega),hnext]
    exact (sendRest_after _ htext hkeeps).1 (by omega)

theorem Pipe.Sends.spoken (h : s.Sends x rest) (hp : strCliPipe.pending s = .write rest) :
    (strCliPipe.onWrite s (.accepted rest.length)).Waits x [] := by
  cases h with
  | @first b rest hplace hline htext hkeeps =>
    rw [first_pending hplace hline,Pending.write.injEq] at hp
    obtain ⟨-,rfl⟩ := List.cons.inj hp
    rw [List.length_singleton,first_accepted hplace htext]
    exact (sendRest_after 0 htext hkeeps).2 rfl
  | @second b rest k hk hplace htext hkeeps =>
    rw [List.length_drop,second_accepted hplace htext (by omega) (by omega)]
    exact (sendRest_after _ htext hkeeps).2 (by omega)

theorem Pipe.Sends.status (h : s.Sends x rest) : s.stdout = x.2 ∧ s.place ≠ .returned := by
  cases h with
  | first hplace hline htext hkeeps => exact ⟨hkeeps.stdout,by simp [hplace]⟩
  | second hk hplace htext hkeeps => exact ⟨hkeeps.stdout,by simp [hplace]⟩

theorem Pipe.Waits.data {len : ℕ} (h : s.Waits x half) (hp : strCliPipe.pending s = .read len)
    (hlen : new.length ≤ len) (hne : new ≠ []) :
    strCliPipe.onRead s (.data new) = { s with reader := s.reader.feed (.data new) }.receive ∧
      (s.reader.feed (.data new)).Got (half ++ new) := by
  simp only [strCliPipe,h.place,Pending.read.injEq] at hp
  subst len
  exact ⟨by simp only [strCliPipe,h.place],h.reader.data hne hlen⟩

theorem next_sends {text : List UInt8} {todo : List (List UInt8)} (h : s.Ready (text :: todo,x.2))
    (hne : text ≠ []) : s.next.Sends (todo,x.2) text := by
  obtain ⟨-,hkeeps⟩ := h
  obtain ⟨line,lines,hinput,rfl,rfl⟩ := List.map_eq_cons_iff.mp hkeeps.todo
  obtain ⟨more,hget,hmore⟩ := fgets_of_lines (by decide) hinput
  obtain ⟨b,rest,htext⟩ := List.exists_cons_of_ne_nil hne
  obtain ⟨after,hafter⟩ : cString line <+: line := List.takeWhile_prefix _
  have hline : line.take 1 = [b] := by
    rw [← hafter,htext]
    rfl
  have hret : (Writing.enter 1).ret = none := rfl
  simp only [Pipe.next,hget,Pipe.sendFirst,hret]
  rw [htext]
  exact .first rfl hline htext ⟨hkeeps.reader,congrArg _ hmore,hkeeps.stdout⟩

theorem next_returns (h : s.Ready ([],x.2)) : s.next = { s with place := .returned } := by
  have hlines := List.map_eq_nil_iff.mp h.2.todo
  simp only [Pipe.next,fgets_of_no_lines (by decide) hlines]

def pipeClient : Exchange.Client strCliPipe Echoable (List UInt8) UInt8 where
  request := some
  Sends x := Pipe.Sends x.2
  Waits x := Pipe.Waits x.2
  Ready := Pipe.Ready
  Done out s := s.place = .returned ∧ s.stdout = out
  printed s := s.stdout
  ended s := s.place = .returned
  shows _ := cString
  offers x s rest h := h.offers
  refused x s rest h := h.refused
  sent x s new more later h hp hne hlater := h.sent hp hne hlater
  spoken x s rest h hp := h.spoken hp
  asks x s half h := ⟨maxLine,maxLine_pos,by simp only [strCliPipe,h.place]⟩
  interrupted x s half h := by
    have hread : strCliPipe.onRead s (.fail .eintr) =
        { s with reader := s.reader.feed (.fail .eintr) }.receive := by
      simp only [strCliPipe,h.place]
    rw [hread,receive_waits (s := { s with reader := s.reader.feed (.fail .eintr) })
      h.reader.interrupted h.none h.short]
    exact ⟨rfl,h.reader.interrupted,h.none,h.short,h.todo,h.stdout⟩
  heard x s half len new rest h hp hlen hne hrest hframe := by
    obtain ⟨hnone,hshort⟩ := hframe.part hrest
    obtain ⟨hread,hgot⟩ := h.data hp hlen hne
    rw [hread,receive_waits (s := { s with reader := s.reader.feed (.data new) }) hgot hnone hshort]
    exact ⟨rfl,hgot,hnone,hshort,h.todo,h.stdout⟩
  computes x s h := by simp only [strCliPipe,h.1]
  next k text todo out s hrequest hne h := by
    obtain rfl := Option.some.inj hrequest
    exact next_sends (x := (todo,out)) h hne
  skips k todo out s hrequest := by cases hrequest
  done out s h := by
    have hnext : strCliPipe.compute s = { s with place := .returned } :=
      next_returns (x := ([],out)) h
    rw [hnext]
    exact ⟨rfl,h.2.stdout⟩
  exits out s h := by simp only [strCliPipe,h.1]
  receives k todo out s half len new h hp hlen hne hframe := by
    obtain ⟨hread,hgot⟩ := h.data hp hlen hne
    obtain ⟨hplace,hreader,hinput,hstdout⟩ := receive_line
      (s := { s with reader := s.reader.feed (.data new) }) hgot hframe
    rw [hread]
    refine ⟨hplace,hreader,?_,?_⟩
    · rw [hinput]
      exact h.todo
    · rw [hstdout]
      exact congrArg (· ++ _) h.stdout
  ready_status x s h := ⟨h.2.stdout,by simp [h.1]⟩
  sends_status x s rest h := ⟨h.status.1,by simpa using h.status.2⟩
  waits_status x s half h := ⟨h.stdout,by simp [h.place]⟩
  done_status out s h := ⟨h.2,by simp [h.1]⟩

end Turns

def connectedPipe (head : Server → Server) (input : List UInt8) (clientSock serverSock : ℤ)
    (recvline buffer : Memory UInt8) : Session Pipe Server :=
  ⟨Pipe.start clientSock input recvline,
    head ⟨.reading,serverSock,buffer,Readline.start [],[]⟩,⟨[],false⟩,⟨[],false⟩⟩

/-- Whatever a line server answers, `str_cli_pipe` prints the answers as `str_cli` does: the cut
after the first byte changes neither what is printed nor that a session gets on. -/
theorem pipe_session_prints {head : Server → Server} {answer : List UInt8 → List UInt8}
    (hhead : Answers head answer) (input : List UInt8) (clientSock serverSock : ℤ)
    (recvline buffer : Memory UInt8)
    (hinput : ∀ line ∈ inputLines maxLine input, newline ∈ cString line)
    (hanswer : ∀ line ∈ inputLines maxLine input, Echoable (answer line)) (as : List Act)
    (t : Session Pipe Server)
    (h : exec (restrict (fun _ a => Act.smooth a = true) (session strCliPipe (lineLoop head)))
      (connectedPipe head input clientSock serverSock recvline buffer) as = some t) :
    (∃ k, t.left.stdout = ((inputLines maxLine input).take k).flatMap fun line =>
      cString (answer line)) ∧
    (t.left.place ≠ .returned → ∃ a u, Exchange.busy a = true ∧
      restrict (fun _ a => Act.smooth a = true) (session strCliPipe (lineLoop head)) t a = some u) ∧
    (t.left.place = .returned → ∀ bs u,
      exec (restrict (fun _ a => Act.smooth a = true) (session strCli (lineLoop head)))
        (connectedTo head input clientSock serverSock recvline buffer) bs = some u →
      u.left.place = .returned → t.left.stdout = u.left.stdout) := by
  have hframed := framed_lines pipeClient (fun _ => rfl) hhead hinput hanswer
  have hready : pipeClient.Ready (inputLines maxLine input,[])
      (connectedPipe head input clientSock serverSock recvline buffer).left :=
    ⟨rfl,fresh_got,Complete.todo hinput,rfl⟩
  have hserved := Exchange.served hframed hready (hhead.start_waits serverSock buffer) rfl rfl h
  refine ⟨?_,?_,?_⟩
  · obtain ⟨past,hpast,hprinted⟩ := hserved.shows
    refine ⟨past.length,?_⟩
    rw [← List.prefix_iff_eq_take.mp hpast]
    exact hprinted
  · intro hopen
    exact hserved.moves (by simp [pipeClient,hopen])
  · intro hret bs u hexec hdone
    have hplain := (session_prints hhead (session_served hhead hinput hanswer hexec)).2 hdone
    rw [hplain]
    exact hserved.complete (by simp [pipeClient,hret])

/-- The line ab goes out as a and b, and comes back. -/
theorem pipe_session_prints_line : ∃ t : Session Pipe Server,
    exec (restrict (fun _ a => Act.smooth a = true) (session strCliPipe (lineLoop Server.head)))
      (connectedPipe Server.head [97,98,10] 3 4 (fun _ => 0) fun _ => 0)
      [.left .compute,.left (.write 0),.left (.write 0),.right (.read 2),.left (.write 0),
        .right (.read 2),.right (.write 2),.left (.read 2),.left .compute] = some t ∧
    t.left.place = .returned ∧ ∃ k, t.left.stdout =
      ((inputLines maxLine [97,98,10]).take k).flatMap fun line => cString line := by
  obtain ⟨t,ht,hp⟩ := Option.map_eq_some_iff.mp (show (exec
    (restrict (fun _ a => Act.smooth a = true) (session strCliPipe (lineLoop Server.head)))
    (connectedPipe Server.head [97,98,10] 3 4 (fun _ => 0) fun _ => 0)
    [.left .compute,.left (.write 0),.left (.write 0),.right (.read 2),.left (.write 0),
      .right (.read 2),.right (.write 2),.left (.read 2),.left .compute]).map
    (fun t => decide (t.left.place = .returned)) = some true by decide +kernel)
  have hlines : ∀ line ∈ inputLines maxLine [97,98,10], newline ∈ cString line := by
    decide +kernel
  exact ⟨t,ht,of_decide_eq_true hp,(pipe_session_prints head_answers [97,98,10] 3 4 _ _ hlines
    (fun line hline => (Complete.text hlines hline).2) _ t ht).1⟩

end StrCliPipe
end CPrograming
