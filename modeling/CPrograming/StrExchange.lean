import CPrograming.StrSessionDeadlock
import CPrograming.Exchange

/-!
# The line echo, line by line

`str_cli` and `str_echo` take turns, so a session in which every piece of the input is a
line prints the input.
-/

namespace CPrograming
namespace StrSession

open Connection Libc SocketFunc Readline Runs

section Lines

variable {half new rest line : List UInt8}

/-- A line is not complete before its last byte. -/
theorem Echoable.part (h : Echoable (half ++ rest)) (hne : rest ≠ []) :
    newline ∉ half ∧ half.length < maxLine := by
  constructor
  · intro hmem
    have heq := h.eq_of_newline (List.prefix_append half rest) hmem
    exact hne (by simpa using heq)
  · have hshort := h.short
    rw [List.length_append] at hshort
    omega

theorem cString_terminated (line rest : List UInt8) :
    cString (line ++ 0 :: rest) = cString line := by
  simp only [cString,List.takeWhile_append]
  split_ifs with hall
  · have hself := (List.takeWhile_prefix (fun c : UInt8 => decide (c ≠ 0))).eq_of_length hall
    rw [hself]
    simp
  · rfl

/-- A string of less than `size` bytes and its 0, read from the start of the buffer. -/
theorem cString_load (m : Memory UInt8) (size : ℕ) (hlen : line.length < size) :
    cString ((m.storeAll (Memory.storesFrom 0 (line ++ [0]))).load 0 size) = cString line := by
  have hload := Memory.load_storesFrom m 0 (line ++ [0]) []
  rw [List.append_nil] at hload
  obtain ⟨more,hmore⟩ := Memory.load_le (m.storeAll (Memory.storesFrom 0 (line ++ [0]))) 0
    (show (line ++ [0]).length ≤ size by simpa using hlen)
  rw [← hmore,hload,List.append_assoc]
  exact cString_terminated line more

theorem cString_eq_self (hpiece : newline ∉ line.dropLast) (hmem : newline ∈ cString line) :
    cString line = line := by
  have hpre : cString line <+: line := List.takeWhile_prefix _
  rcases List.eq_nil_or_concat line with rfl | ⟨body,c,rfl⟩
  · rfl
  · rw [List.concat_eq_append] at hmem hpre hpiece ⊢
    rw [List.dropLast_concat] at hpiece
    rcases List.prefix_concat_iff.mp hpre with heq | hbody
    · exact heq
    · exact absurd (hbody.subset hmem) hpiece

end Lines

section Client

def Client.todo (s : Client) : List (List UInt8) := (inputLines maxLine s.input).map cString

structure Client.Keeps (x : List (List UInt8) × List UInt8) (s : Client) : Prop where
  todo : s.todo = x.1
  stdout : s.stdout = x.2

def Client.Ready (x : List (List UInt8) × List UInt8) (s : Client) : Prop :=
  s.place = .fgets ∧ s.reader.Got [] ∧ s.Keeps x

def Client.Sends (x : List (List UInt8) × List UInt8) (s : Client) (rest : List UInt8) : Prop :=
  ∃ k < s.text.length, rest = s.text.drop k ∧
    s.place = .writing (Writing.after s.text.length k) ∧ s.reader.Got [] ∧ s.Keeps x

def Client.Waits (x : List (List UInt8) × List UInt8) (s : Client) (half : List UInt8) : Prop :=
  s.place = .reading ∧ s.reader.Got half ∧ newline ∉ half ∧ half.length < maxLine ∧ s.Keeps x

variable {x : List (List UInt8) × List UInt8} {s : Client} {half line rest new : List UInt8}

theorem Client.Sends.accepted (h : s.Sends x (new ++ rest)) (hne : new ≠ []) :
    (rest ≠ [] → (strCli.onWrite s (.accepted new.length)).Sends x rest) ∧
      (rest = [] → (strCli.onWrite s (.accepted new.length)).Waits x []) := by
  obtain ⟨k,hk,hdrop,hplace,hreader,hkeeps⟩ := h
  have hlen := congrArg List.length hdrop
  rw [List.length_append,List.length_drop] at hlen
  have hle : k+new.length ≤ s.text.length := by omega
  have hwrite : strCli.onWrite s (.accepted new.length) = { s with
      place := if k+new.length < s.text.length then
          .writing (Writing.after s.text.length (k+new.length))
        else .reading } := by
    simp only [strCli,hplace]
    rw [Writing.body_accepted (List.length_pos_iff.mpr hne) hle,send_after hreader hle]
  rw [hwrite]
  constructor
  · intro hrest
    have hpos := List.length_pos_iff.mpr hrest
    have hlt : k+new.length < s.text.length := by omega
    refine ⟨k+new.length,hlt,?_,if_pos hlt,hreader,hkeeps.todo,hkeeps.stdout⟩
    have hnext := congrArg (List.drop new.length) hdrop
    rw [List.drop_left,List.drop_drop] at hnext
    exact hnext
  · rintro rfl
    have hge : ¬ k+new.length < s.text.length := by
      rw [List.length_nil] at hlen
      omega
    exact ⟨if_neg hge,hreader,List.not_mem_nil,maxLine_pos,hkeeps.todo,hkeeps.stdout⟩

theorem Client.Waits.data (h : s.Waits x half) (hlen : new.length ≤ maxLine) (hne : new ≠ []) :
    strCli.onRead s (.data new) = { s with reader := s.reader.feed (.data new) }.receive ∧
      (s.reader.feed (.data new)).Got (half ++ new) := by
  obtain ⟨hplace,hreader,-,-,-⟩ := h
  exact ⟨by simp only [strCli,hplace],hreader.data hne hlen⟩

theorem receive_shows (h : s.reader.Got line) (hline : Echoable line) :
    s.receive.stdout = s.stdout ++ cString line := by
  have hlen : (line.length : ℤ) < maxLine := by exact_mod_cast hline.short
  obtain ⟨r,-,hcall⟩ := h.line s.sock hline.line hlen
  have hpos := hline.length_pos
  simp only [Client.receive,hcall]
  rw [if_neg (by omega)]
  simp only [cString_load s.recvline (maxLine+1) (Nat.lt_succ_of_lt hline.short)]

theorem Client.next_keeps (h : s.Ready x) {text : List UInt8} {todo : List (List UInt8)}
    (htodo : x.1 = text :: todo) (hne : text ≠ []) :
    s.next.Sends (todo,x.2) text := by
  obtain ⟨-,hreader,hkeeps⟩ := h
  have hlines := hkeeps.todo
  rw [htodo,Client.todo] at hlines
  obtain ⟨line,lines,hinput,rfl,rfl⟩ := List.map_eq_cons_iff.mp hlines
  obtain ⟨more,hget,hmore⟩ := fgets_of_lines (by decide) hinput
  have hpos := List.length_pos_iff.mpr hne
  rw [next_of_fgets hreader hget,if_pos hpos]
  exact ⟨0,hpos,rfl,rfl,hreader,congrArg _ hmore,hkeeps.stdout⟩

theorem Client.next_done (h : s.Ready x) (htodo : x.1 = []) :
    s.next = { s with place := .returned } := by
  obtain ⟨-,hreader,hkeeps⟩ := h
  have hlines := hkeeps.todo
  rw [htodo,Client.todo,List.map_eq_nil_iff] at hlines
  simp only [Client.next,fgets_of_no_lines (by decide) hlines]

def lineClient : Exchange.Client strCli Echoable (List UInt8) UInt8 where
  request := some
  Sends x := Client.Sends x.2
  Waits x := Client.Waits x.2
  Ready := Client.Ready
  Done out s := s.place = .returned ∧ s.stdout = out
  printed s := s.stdout
  ended s := s.place = .returned
  shows _ := cString
  offers x s rest h := by
    obtain ⟨k,hk,rfl,hplace,-⟩ := h
    exact ⟨_,[],by simpa using hk,(List.append_nil _).symm,
      by simp only [strCli,hplace,Writing.after]⟩
  refused x s rest h := by
    obtain ⟨k,hk,hrest,hplace,hreader,hkeeps⟩ := h
    have hsame : strCli.onWrite s (.fail .eintr) = s := by
      simp only [strCli,hplace,Writing.body_interrupted hk]
      rw [send_after hreader hk.le,if_pos hk,← hplace]
    rw [hsame]
    exact ⟨k,hk,hrest,hplace,hreader,hkeeps⟩
  sent x s new more later h _ hne hrest := (h.accepted hne).1 hrest
  spoken x s rest h _ := by
    obtain ⟨k,hk,hdrop,-⟩ := id h
    have hne : rest ≠ [] := by
      rw [hdrop]
      simpa using hk
    have hall : Client.Sends x.2 s (rest ++ []) := by
      rw [List.append_nil]
      exact h
    exact (hall.accepted hne).2 rfl
  asks x s half h := ⟨maxLine,maxLine_pos,by simp only [strCli,h.1]⟩
  interrupted x s half h := by
    obtain ⟨hplace,hreader,hnone,hlen,hkeeps⟩ := h
    have hread : strCli.onRead s (.fail .eintr) =
        { s with reader := s.reader.feed (.fail .eintr) }.receive := by simp only [strCli,hplace]
    rw [hread,receive_waits (s := { s with reader := s.reader.feed (.fail .eintr) })
      hreader.interrupted hnone hlen]
    exact ⟨rfl,hreader.interrupted,hnone,hlen,hkeeps.todo,hkeeps.stdout⟩
  heard x s half len new rest h hp hlen hne hrest hframe := by
    have hmax : len = maxLine := by
      simp only [strCli,h.1,Pending.read.injEq] at hp
      exact hp.symm
    obtain ⟨hnone,hshort⟩ := hframe.part hrest
    obtain ⟨hread,hgot⟩ := h.data (hmax ▸ hlen) hne
    obtain ⟨-,-,-,-,hkeeps⟩ := h
    rw [hread,receive_waits (s := { s with reader := s.reader.feed (.data new) }) hgot hnone hshort]
    exact ⟨rfl,hgot,hnone,hshort,hkeeps.todo,hkeeps.stdout⟩
  computes x s h := by simp only [strCli,h.1]
  next k text todo out s hrequest hne h := by
    obtain rfl := Option.some.inj hrequest
    exact Client.next_keeps h rfl hne
  skips k todo out s hrequest := by cases hrequest
  done out s h := by
    have hnext : strCli.compute s = { s with place := .returned } := Client.next_done h rfl
    rw [hnext]
    exact ⟨rfl,h.2.2.stdout⟩
  exits out s h := by simp only [strCli,h.1]
  receives k todo out s half len new h hp hlen hne hframe := by
    have hmax : len = maxLine := by
      simp only [strCli,h.1,Pending.read.injEq] at hp
      exact hp.symm
    obtain ⟨hread,hgot⟩ := h.data (hmax ▸ hlen) hne
    obtain ⟨-,-,-,-,hkeeps⟩ := h
    obtain ⟨hplace,hreader,hinput⟩ := receive_line
      (s := { s with reader := s.reader.feed (.data new) }) hgot hframe
    have hshows := receive_shows (s := { s with reader := s.reader.feed (.data new) }) hgot hframe
    rw [hread]
    refine ⟨hplace,hreader,?_,?_⟩
    · rw [Client.todo,hinput]
      exact hkeeps.todo
    · rw [hshows]
      exact congrArg (· ++ _) hkeeps.stdout
  ready_status x s h := ⟨h.2.2.stdout,by simp [h.1]⟩
  sends_status x s rest h := by
    obtain ⟨k,-,-,hplace,-,hkeeps⟩ := h
    exact ⟨hkeeps.stdout,by simp [hplace]⟩
  waits_status x s half h := ⟨h.2.2.2.2.stdout,by simp [h.1]⟩
  done_status out s h := ⟨h.2,by simp [h.1]⟩

end Client

section Server

/-- A server that waits in `readline` and in `written`; `head` goes from the head of its loop to
where it waits next. -/
def lineLoop (head : Server → Server) : Process Server where
  pending s :=
    match s.place with
    | .reading => .read maxLine
    | .writing _ call => .write (s.buffer.load call.off call.left.toNat)
    | .returned => .exited
  onRead s a :=
    match s.place with
    | .reading => head { s with reader := s.reader.feed a }
    | _ => s
  onWrite s a :=
    match s.place with
    | .writing n call =>
      let call := call.body n a
      match call.ret with
      | none => { s with place := .writing n call }
      | some _ => head s
    | _ => s
  compute s := s

theorem strEcho_eq_lineLoop : strEcho = lineLoop Server.head := rfl

/-- The loop waits for a line, and then sends `answer line` from the start of its buffer. -/
structure Answers (head : Server → Server) (answer : List UInt8 → List UInt8) : Prop where
  waits : ∀ s half, s.reader.Got half → newline ∉ half → half.length < maxLine →
    head s = { s with place := .reading }
  answers : ∀ s line, s.reader.Got line → Echoable line →
    (head s).place = .writing (answer line).length (Writing.after (answer line).length 0) ∧
      (head s).reader.Got [] ∧ (head s).buffer.load 0 (answer line).length = answer line
  ne_nil : ∀ line, Echoable line → answer line ≠ []

theorem head_answers : Answers Server.head fun line => line where
  waits s half hgot hnone hlen := head_waits hgot hnone hlen
  answers s line hgot hline := by
    obtain ⟨r,hr,hplace,hreader,hbuffer⟩ := head_line hgot hline
    exact ⟨hplace,hreader ▸ hr,hbuffer⟩
  ne_nil line hline := List.length_pos_iff.mp hline.length_pos

def Server.Sends (s : Server) (rest : List UInt8) : Prop :=
  ∃ text k, k < text.length ∧ rest = text.drop k ∧
    s.place = .writing text.length (Writing.after text.length k) ∧ s.reader.Got [] ∧
    s.buffer.load 0 text.length = text

def Server.Waits (s : Server) (half : List UInt8) : Prop :=
  s.place = .reading ∧ s.reader.Got half ∧ newline ∉ half ∧ half.length < maxLine

variable {head : Server → Server} {answer : List UInt8 → List UInt8} {s : Server}
  {half rest new : List UInt8}

theorem Server.Sends.pending (h : s.Sends rest) : (lineLoop head).pending s = .write rest := by
  obtain ⟨text,k,hk,rfl,hplace,-,hbuffer⟩ := h
  have hdrop := Memory.drop_load s.buffer 0 text.length k hk.le
  rw [hbuffer,Nat.zero_add] at hdrop
  have hleft : ((text.length : ℤ)-k).toNat = text.length-k := by omega
  simp only [lineLoop,hplace,Writing.after,hleft,← hdrop]

theorem Server.Sends.accepted (hhead : Answers head answer) (h : s.Sends (new ++ rest))
    (hne : new ≠ []) :
    (rest ≠ [] → ((lineLoop head).onWrite s (.accepted new.length)).Sends rest) ∧
      (rest = [] → ((lineLoop head).onWrite s (.accepted new.length)).Waits []) := by
  obtain ⟨text,k,hk,hdrop,hplace,hreader,hbuffer⟩ := h
  have hlen := congrArg List.length hdrop
  rw [List.length_append,List.length_drop] at hlen
  have hle : k+new.length ≤ text.length := by omega
  have hbody := Writing.body_accepted (List.length_pos_iff.mpr hne) hle
  constructor
  · intro hrest
    have hpos := List.length_pos_iff.mpr hrest
    have hlt : k+new.length < text.length := by omega
    have hret : (Writing.after text.length (k+new.length)).ret = none := if_pos hlt
    have hwrite : (lineLoop head).onWrite s (.accepted new.length) =
        { s with place := .writing text.length (Writing.after text.length (k+new.length)) } := by
      simp only [lineLoop,hplace,hbody,hret]
    rw [hwrite]
    refine ⟨text,k+new.length,hlt,?_,rfl,hreader,hbuffer⟩
    have hnext := congrArg (List.drop new.length) hdrop
    rw [List.drop_left,List.drop_drop] at hnext
    exact hnext
  · rintro rfl
    have hge : ¬ k+new.length < text.length := by
      rw [List.length_nil] at hlen
      omega
    have hret : (Writing.after text.length (k+new.length)).ret = some (text.length : ℤ) :=
      if_neg hge
    have hwrite : (lineLoop head).onWrite s (.accepted new.length) = head s := by
      simp only [lineLoop,hplace,hbody,hret]
    rw [hwrite,hhead.waits s [] hreader List.not_mem_nil maxLine_pos]
    exact ⟨rfl,hreader,List.not_mem_nil,maxLine_pos⟩

theorem Server.Waits.data (head : Server → Server) (h : s.Waits half)
    (hlen : new.length ≤ maxLine) (hne : new ≠ []) :
    (lineLoop head).onRead s (.data new) = head { s with reader := s.reader.feed (.data new) } ∧
      (s.reader.feed (.data new)).Got (half ++ new) := by
  obtain ⟨hplace,hreader,-,-⟩ := h
  exact ⟨by simp only [lineLoop,hplace],hreader.data hne hlen⟩

theorem Server.Waits.asked {len : ℕ} (h : s.Waits half)
    (hp : (lineLoop head).pending s = .read len) : len = maxLine := by
  simp only [lineLoop,h.1,Pending.read.injEq] at hp
  exact hp.symm

def lineServer (hhead : Answers head answer) : Exchange.Server (lineLoop head) Echoable where
  Sends _ := Server.Sends
  Waits _ := Server.Waits
  answer := answer
  offers x s rest h := by
    refine ⟨rest,[],?_,(List.append_nil _).symm,h.pending⟩
    obtain ⟨text,k,hk,rfl,-⟩ := h
    simpa using hk
  refused x s rest h := by
    obtain ⟨text,k,hk,hrest,hplace,hreader,hbuffer⟩ := h
    have hret : (Writing.after text.length k).ret = none := if_pos hk
    have hsame : (lineLoop head).onWrite s (.fail .eintr) = s := by
      simp only [lineLoop,hplace,Writing.body_interrupted hk,hret]
      rw [← hplace]
    rw [hsame]
    exact ⟨text,k,hk,hrest,hplace,hreader,hbuffer⟩
  sent x s new more later h _ hne hrest := (h.accepted hhead hne).1 hrest
  spoken x s rest h _ := by
    obtain ⟨text,k,hk,hdrop,-⟩ := id h
    have hne : rest ≠ [] := by
      rw [hdrop]
      simpa using hk
    have hall : s.Sends (rest ++ []) := by
      rw [List.append_nil]
      exact h
    exact (hall.accepted hhead hne).2 rfl
  asks x s half h := ⟨maxLine,maxLine_pos,by simp only [lineLoop,h.1]⟩
  interrupted x s half h := by
    obtain ⟨hplace,hreader,hnone,hlen⟩ := h
    have hread : (lineLoop head).onRead s (.fail .eintr) =
        head { s with reader := s.reader.feed (.fail .eintr) } := by simp only [lineLoop,hplace]
    rw [hread,hhead.waits _ half hreader.interrupted hnone hlen]
    exact ⟨rfl,hreader.interrupted,hnone,hlen⟩
  heard x s half len new rest h hp hlen hne hrest hframe := by
    obtain ⟨hnone,hshort⟩ := hframe.part hrest
    obtain ⟨hread,hgot⟩ := h.data head (h.asked hp ▸ hlen) hne
    rw [hread,hhead.waits _ _ hgot hnone hshort]
    exact ⟨rfl,hgot,hnone,hshort⟩
  answers s half len new h hp hlen hne hframe := by
    obtain ⟨hread,hgot⟩ := h.data head (h.asked hp ▸ hlen) hne
    obtain ⟨hplace,hreader,hbuffer⟩ :=
      hhead.answers { s with reader := s.reader.feed (.data new) } _ hgot hframe
    rw [hread]
    exact ⟨answer (half ++ new),0,List.length_pos_iff.mpr (hhead.ne_nil _ hframe),rfl,hplace,
      hreader,hbuffer⟩

end Server

section Input

variable {input : List UInt8}

/-- A piece with a newline in front of any 0 is sent as it is. -/
theorem Complete.text (h : Complete input) {line : List UInt8}
    (hline : line ∈ inputLines maxLine input) : cString line = line ∧ Echoable line := by
  obtain ⟨hbody,hshort⟩ := mem_inputLines (by decide : 1 < maxLine) hline
  have hself := cString_eq_self hbody (h line hline)
  have hmem : newline ∈ line := hself ▸ h line hline
  refine ⟨hself,⟨?_,hshort⟩⟩
  rcases List.eq_nil_or_concat line with rfl | ⟨body,c,rfl⟩
  · cases hmem
  · rw [List.concat_eq_append] at hmem hbody ⊢
    rw [List.dropLast_concat] at hbody
    obtain rfl : newline = c := by simpa [hbody] using hmem
    exact ⟨body,rfl,hbody⟩

theorem Complete.todo (h : Complete input) :
    (inputLines maxLine input).map cString = inputLines maxLine input := by
  conv_rhs => rw [← List.map_id (inputLines maxLine input)]
  exact List.map_congr_left fun line hline => (h.text hline).1

end Input

def connectedTo (head : Server → Server) (input : List UInt8) (clientSock serverSock : ℤ)
    (recvline buffer : Memory UInt8) : Session Client Server :=
  ⟨Client.start clientSock input recvline,
    head ⟨.reading,serverSock,buffer,Readline.start [],[]⟩,⟨[],false⟩,⟨[],false⟩⟩

theorem fresh_got : (Readline.start []).Got [] := ⟨le_refl 0,by simp [Readline.start],rfl⟩

/-- Such a server first waits for a line. -/
theorem Answers.start_waits {head : Server → Server} {answer : List UInt8 → List UInt8}
    (hhead : Answers head answer) (sock : ℤ) (buffer : Memory UInt8) :
    (head ⟨.reading,sock,buffer,Readline.start [],[]⟩).Waits [] := by
  rw [hhead.waits _ [] fresh_got List.not_mem_nil maxLine_pos]
  exact ⟨rfl,fresh_got,List.not_mem_nil,maxLine_pos⟩

/-- Lines and answers that are lines can be told from their parts. -/
theorem framed_lines {S β : Type*} {P : Process S}
    (C : Exchange.Client P Echoable (List UInt8) β) (hC : ∀ line, C.request line = some line)
    {head : Server → Server} {answer : List UInt8 → List UInt8} (hhead : Answers head answer)
    {input : List UInt8} (hinput : Complete input)
    (hanswer : ∀ line ∈ inputLines maxLine input, Echoable (answer line)) :
    Exchange.Framed C (lineServer hhead) (inputLines maxLine input) := by
  constructor <;> intro line hline text hrequest <;> rw [hC] at hrequest <;>
    obtain rfl := Option.some.inj hrequest
  · exact (hinput.text hline).2
  · exact List.length_pos_iff.mp (hinput.text hline).2.length_pos
  · exact hanswer line hline
  · exact hhead.ne_nil line (hinput.text hline).2

/-- While every piece of the input is sent as a line, and the server's answers are lines, the
session is an exchange of lines and answers. -/
theorem session_served {head : Server → Server} {answer : List UInt8 → List UInt8}
    (hhead : Answers head answer) {input : List UInt8} (hinput : Complete input)
    (hanswer : ∀ line ∈ inputLines maxLine input, Echoable (answer line))
    {clientSock serverSock : ℤ} {recvline buffer : Memory UInt8} {as : List Act}
    {t : Session Client Server}
    (h : exec (restrict (fun _ a => Act.smooth a = true) (session strCli (lineLoop head)))
      (connectedTo head input clientSock serverSock recvline buffer) as = some t) :
    Exchange.Served lineClient (lineServer hhead) (inputLines maxLine input) as t := by
  have hframed := framed_lines lineClient (fun _ => rfl) hhead hinput hanswer
  have hready : lineClient.Ready (inputLines maxLine input,[])
      (connectedTo head input clientSock serverSock recvline buffer).left :=
    ⟨rfl,fresh_got,hinput.todo,rfl⟩
  exact Exchange.served hframed hready (hhead.start_waits serverSock buffer) rfl rfl h

theorem session_prints {head : Server → Server} {answer : List UInt8 → List UInt8}
    (hhead : Answers head answer) {input : List UInt8} {as : List Act} {t : Session Client Server}
    (hserved : Exchange.Served lineClient (lineServer hhead) (inputLines maxLine input) as t) :
    (∃ k, t.left.stdout = ((inputLines maxLine input).take k).flatMap fun line =>
      cString (answer line)) ∧
    (t.left.place = .returned →
      t.left.stdout = (inputLines maxLine input).flatMap fun line => cString (answer line)) := by
  constructor
  · obtain ⟨past,hpast,hprinted⟩ := hserved.shows
    refine ⟨past.length,?_⟩
    rw [← List.prefix_iff_eq_take.mp hpast]
    exact hprinted
  · intro hret
    exact hserved.complete (by simp [lineClient,hret])

theorem flatMap_cString {input : List UInt8} (hinput : Complete input) {past : List (List UInt8)}
    (hpast : past ⊆ inputLines maxLine input) : past.flatMap cString = past.flatten := by
  rw [List.flatMap_def]
  congr 1
  conv_rhs => rw [← List.map_id past]
  exact List.map_congr_left fun line hline => (hinput.text (hpast hline)).1

/-- A session with a complete input prints the input: line after line, and all of it before
the client returns. Until then one of the programs can get on, and there is a bound on how
often they do. -/
theorem session_prints_input (input : List UInt8) (clientSock serverSock : ℤ)
    (recvline buffer : Memory UInt8)
    (hinput : ∀ line ∈ inputLines maxLine input, newline ∈ cString line) (as : List Act)
    (t : Session Client Server)
    (h : exec (restrict (fun _ a => Act.smooth a = true) (session strCli strEcho))
      (connected input clientSock serverSock recvline buffer) as = some t) :
    (∃ k, t.left.stdout = ((inputLines maxLine input).take k).flatten) ∧
    (t.left.place = .returned → t.left.stdout = input) ∧
    (t.left.place ≠ .returned →
      as.countP Exchange.busy ≤ 5*input.length ∧ ∃ a u, Exchange.busy a = true ∧
        restrict (fun _ a => Act.smooth a = true) (session strCli strEcho) t a = some u) := by
  have hserved := session_served head_answers hinput
    (fun line hline => (Complete.text hinput hline).2) h
  obtain ⟨⟨k,hprinted⟩,hall⟩ := session_prints head_answers hserved
  rw [flatMap_cString hinput (List.take_subset k _)] at hprinted
  refine ⟨⟨k,hprinted⟩,?_,?_⟩
  · intro hret
    rw [hall hret,flatMap_cString hinput (List.Subset.refl _),inputLines_flatten (by decide)]
  · intro hopen
    have hended : lineClient.ended t.left = false := by simp [lineClient,hopen]
    refine ⟨(hserved.bounded hended).trans ?_,hserved.moves hended⟩
    have hwork : ∀ past, past ⊆ inputLines maxLine input →
        Exchange.work lineClient (lineServer head_answers) past ≤ 5*past.flatten.length := by
      intro past
      induction past with
      | nil => simp [Exchange.work]
      | cons line past ih =>
        intro hpast
        have hpos := (Complete.text hinput (hpast List.mem_cons_self)).2.length_pos
        have hrest := ih fun l hl => hpast (List.mem_cons_of_mem line hl)
        rw [Exchange.work_cons,List.flatten_cons,List.length_append]
        change 2*line.length+2*line.length+1+_ ≤ _
        omega
    have hbound := hwork _ (List.Subset.refl _)
    rwa [inputLines_flatten (by decide)] at hbound

/-- The line a comes back, and the client returns. -/
theorem session_prints_line : ∃ t : Session Client Server,
    exec (restrict (fun _ a => Act.smooth a = true) (session strCli strEcho))
      (connected [97,10] 3 4 (fun _ => 0) fun _ => 0)
      [.left .compute,.left (.write 1),.right (.read 1),.right (.write 1),.left (.read 1),
        .left .compute] = some t ∧
    t.left.place = .returned ∧ t.left.stdout = [97,10] := by
  obtain ⟨t,ht,hp⟩ := Option.map_eq_some_iff.mp (show (exec
    (restrict (fun _ a => Act.smooth a = true) (session strCli strEcho))
    (connected [97,10] 3 4 (fun _ => 0) fun _ => 0)
    [.left .compute,.left (.write 1),.right (.read 1),.right (.write 1),.left (.read 1),
      .left .compute]).map (fun t => decide (t.left.place = .returned)) = some true by
    decide +kernel)
  have hret : t.left.place = .returned := of_decide_eq_true hp
  exact ⟨t,ht,hret,
    (session_prints_input _ _ _ _ _ (by decide +kernel) _ t ht).2.1 hret⟩

end StrSession
end CPrograming
