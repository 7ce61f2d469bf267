import CPrograming.StrSession

/-!
# When the line echo gets stuck

The client sends one piece of its input at a time, as `fgets` and `strlen` cut it. If
every piece ends with a newline, each of them goes to the server and back before the next
is sent. A piece without a newline leaves both programs waiting.
-/

namespace CPrograming
namespace StrSession

open Connection Libc SocketFunc Readline Runs

section Lines

variable {text part line rest input : List UInt8}

/-- A piece that both programs take as a line. -/
structure Echoable (text : List UInt8) : Prop where
  line : IsLine text
  short : text.length < maxLine

theorem Echoable.eq_of_newline (h : Echoable text) (hpart : part <+: text) (hmem : newline ∈ part) :
    part = text := by
  obtain ⟨body,rfl,hbody⟩ := h.line
  rcases List.prefix_concat_iff.mp hpart with heq | hpre
  · exact heq
  · exact absurd (hpre.subset hmem) hbody

theorem Echoable.newline_mem (h : Echoable text) : newline ∈ text := by
  obtain ⟨body,rfl,-⟩ := h.line
  simp

theorem Echoable.length_pos (h : Echoable text) : 0 < text.length := by
  obtain ⟨body,rfl,-⟩ := h.line
  simp

structure Piece (text : List UInt8) : Prop where
  line : newline ∈ text → IsLine text
  short : text.length < maxLine

theorem Piece.echoable (h : Piece text) (hmem : newline ∈ text) : Echoable text :=
  ⟨h.line hmem,h.short⟩

theorem Echoable.piece (h : Echoable text) : Piece text := ⟨fun _ => h.line,h.short⟩

theorem piece_of_fgets (hget : fgets maxLine input = some (line,rest)) : Piece (cString line) := by
  have hpre : cString line <+: line := List.takeWhile_prefix _
  have hlen := fgets_length hget
  have hle := hpre.length_le
  refine ⟨?_,by simp only [maxLine] at hlen ⊢; omega⟩
  intro hmem
  have hnl := fgets_newline hget
  rcases List.eq_nil_or_concat line with rfl | ⟨body,c,rfl⟩
  · simp [cString] at hmem
  · rw [List.concat_eq_append] at hmem hpre hnl ⊢
    rw [List.dropLast_concat] at hnl
    rcases List.prefix_concat_iff.mp hpre with heq | hbody
    · rw [heq] at hmem ⊢
      obtain rfl : c = newline := by
        rcases List.mem_append.mp hmem with hc | hc
        · exact absurd hc hnl
        · exact (List.mem_singleton.mp hc).symm
      exact ⟨body,rfl,hnl⟩
    · exact absurd (hbody.subset hmem) hnl

end Lines

section Server

variable {s : Server} {half line : List UInt8}

theorem head_waits (h : s.reader.Got half) (hnone : newline ∉ half) (hlen : half.length < maxLine) :
    s.head = { s with place := .reading } := by
  have hret : (readline s.sock maxLine s.reader).ret = none :=
    h.waits s.sock hnone (by exact_mod_cast hlen)
  simp only [Server.head,hret]

theorem head_line (h : s.reader.Got line) (hline : Echoable line) :
    ∃ r, r.Got [] ∧ s.head.place = .writing line.length (Writing.after line.length 0) ∧
      s.head.reader = r ∧ s.head.buffer.load 0 line.length = line := by
  have hlen : (line.length : ℤ) < maxLine := by exact_mod_cast hline.short
  obtain ⟨r,hr,hcall⟩ := h.line s.sock hline.line hlen
  have hpos := hline.length_pos
  have hload := Memory.load_storesFrom s.buffer 0 line [0]
  refine ⟨r,hr,?_⟩
  simp only [Server.head,hcall]
  rw [if_pos (by exact_mod_cast hpos)]
  exact ⟨by rw [Writing.enter_eq_after],rfl,hload⟩

theorem server_reads {e t : Endpoint Server} {a : Io} (hplace : e.proc.place = .reading)
    (hgot : e.proc.reader.Got half) (hnone : newline ∉ half) (hlen : half.length < maxLine)
    (hopen : e.inp.closed = false)
    (hstep : restrict (fun _ a => Io.smooth a = true) strEcho.io e a = some t) :
    (∃ r, r.Got half ∧ t = ⟨{ e.proc with reader := r },e.inp,e.out⟩) ∨
      ∃ r new rest, new ≠ [] ∧ e.inp.bytes = new ++ rest ∧ r.Got (half ++ new) ∧
        t = ⟨{ e.proc with reader := r }.head,⟨rest,false⟩,e.out⟩ := by
  have hpending : strEcho.pending e.proc = .read maxLine := by simp only [strEcho,hplace]
  have hread (got : ReadAnswer) :
      strEcho.onRead e.proc got = { e.proc with reader := e.proc.reader.feed got }.head := by
    simp only [strEcho,hplace]
  rcases smooth_read hpending maxLine_pos hopen hstep with rfl | ⟨new,rest,hnew,hle,hin,rfl⟩
  · rw [hread,head_waits (s := { e.proc with reader := e.proc.reader.feed (.fail .eintr) })
      hgot.interrupted hnone hlen]
    refine Or.inl ⟨_,hgot.interrupted,?_⟩
    rw [← hplace]
  · rw [hread]
    exact Or.inr ⟨_,new,rest,hnew,hin,hgot.data hnew hle,rfl⟩

theorem server_writes {e t : Endpoint Server} {a : Io} {k : ℕ}
    (hplace : e.proc.place = .writing line.length (Writing.after line.length k))
    (hk : k < line.length) (hbuffer : e.proc.buffer.load 0 line.length = line)
    (hreader : e.proc.reader.Got [])
    (hstep : restrict (fun _ a => Io.smooth a = true) strEcho.io e a = some t) :
    t = e ∨ ∃ new rest, new ≠ [] ∧ line.drop k = new ++ rest ∧
      t = ⟨{ e.proc with
          place := if k+new.length < line.length then
              .writing line.length (Writing.after line.length (k+new.length))
            else .reading },e.inp,⟨e.out.bytes ++ new,false⟩⟩ := by
  have hbytes : e.proc.buffer.load k (line.length-k) = line.drop k := by
    have hdrop := Memory.drop_load e.proc.buffer 0 line.length k hk.le
    rw [hbuffer,Nat.zero_add] at hdrop
    exact hdrop.symm
  have hpending : strEcho.pending e.proc = .write (line.drop k) := by
    have hleft : ((line.length : ℤ)-k).toNat = line.length-k := by omega
    simp only [strEcho,hplace,Writing.after,hleft,hbytes]
  rcases smooth_write hpending (by simpa using hk) hstep with rfl | ⟨new,rest,hnew,hdrop,rfl⟩
  · left
    have hret : (Writing.after line.length k).ret = none := if_pos hk
    have hsame : strEcho.onWrite e.proc (.fail .eintr) = e.proc := by
      simp only [strEcho,hplace,Writing.body_interrupted hk,hret]
      rw [← hplace]
    rw [hsame]
  · have hlen := congrArg List.length hdrop
    rw [List.length_drop,List.length_append] at hlen
    have hbody := Writing.body_accepted (List.length_pos_iff.mpr hnew)
      (show k+new.length ≤ line.length by omega)
    refine Or.inr ⟨new,rest,hnew,hdrop,?_⟩
    congr 1
    simp only [strEcho,hplace,hbody]
    by_cases hlt : k+new.length < line.length
    · simp only [Writing.after,hlt,if_true]
    · simp only [Writing.after,hlt,if_false]
      exact head_waits hreader (by simp) maxLine_pos

end Server

section Client

variable {s : Client} {half line : List UInt8}

theorem receive_waits (h : s.reader.Got half) (hnone : newline ∉ half)
    (hlen : half.length < maxLine) : s.receive = { s with place := .reading } := by
  have hret : (readline s.sock maxLine s.reader).ret = none :=
    h.waits s.sock hnone (by exact_mod_cast hlen)
  simp only [Client.receive,hret]

theorem receive_line (h : s.reader.Got line) (hline : Echoable line) :
    s.receive.place = .fgets ∧ s.receive.reader.Got [] ∧ s.receive.input = s.input := by
  have hlen : (line.length : ℤ) < maxLine := by exact_mod_cast hline.short
  obtain ⟨r,hr,hcall⟩ := h.line s.sock hline.line hlen
  have hpos := hline.length_pos
  simp only [Client.receive,hcall]
  rw [if_neg (by omega)]
  exact ⟨rfl,hr,rfl⟩

theorem send_after {k : ℕ} (hreader : s.reader.Got []) (hk : k ≤ s.text.length) :
    s.send (Writing.after s.text.length k) = { s with
      place := if k < s.text.length then .writing (Writing.after s.text.length k)
        else .reading } := by
  by_cases hlt : k < s.text.length
  · have hret : (Writing.after s.text.length k).ret = none := if_pos hlt
    simp only [Client.send,hret,if_pos hlt]
  · have hret : (Writing.after s.text.length k).ret = some (s.text.length : ℤ) := if_neg hlt
    have hne : (s.text.length : ℤ) ≠ -1 := by omega
    simp only [Client.send,hret,if_neg hne,if_neg hlt]
    exact receive_waits hreader (by simp) maxLine_pos

theorem next_of_fgets {rest : List UInt8} (hreader : s.reader.Got [])
    (hget : fgets maxLine s.input = some (line,rest)) :
    s.next = { s with
      input := rest
      sendline := line
      place := if 0 < (cString line).length then .writing (Writing.after (cString line).length 0)
        else .reading } := by
  simp only [Client.next,hget]
  exact (congrArg _ (Writing.enter_eq_after _)).trans
    (send_after (s := { s with input := rest, sendline := line }) hreader (Nat.zero_le _))

theorem client_reads {e t : Endpoint Client} {a : Io} (hplace : e.proc.place = .reading)
    (hgot : e.proc.reader.Got half) (hnone : newline ∉ half) (hlen : half.length < maxLine)
    (hopen : e.inp.closed = false)
    (hstep : restrict (fun _ a => Io.smooth a = true) strCli.io e a = some t) :
    (∃ r, r.Got half ∧ t = ⟨{ e.proc with reader := r },e.inp,e.out⟩) ∨
      ∃ r new rest, new ≠ [] ∧ e.inp.bytes = new ++ rest ∧ r.Got (half ++ new) ∧
        t = ⟨{ e.proc with reader := r }.receive,⟨rest,false⟩,e.out⟩ := by
  have hpending : strCli.pending e.proc = .read maxLine := by simp only [strCli,hplace]
  have hread (got : ReadAnswer) :
      strCli.onRead e.proc got = { e.proc with reader := e.proc.reader.feed got }.receive := by
    simp only [strCli,hplace]
  rcases smooth_read hpending maxLine_pos hopen hstep with rfl | ⟨new,rest,hnew,hle,hin,rfl⟩
  · rw [hread,receive_waits (s := { e.proc with reader := e.proc.reader.feed (.fail .eintr) })
      hgot.interrupted hnone hlen]
    refine Or.inl ⟨_,hgot.interrupted,?_⟩
    rw [← hplace]
  · rw [hread]
    exact Or.inr ⟨_,new,rest,hnew,hin,hgot.data hnew hle,rfl⟩

theorem client_writes {e t : Endpoint Client} {a : Io} {k : ℕ}
    (hplace : e.proc.place = .writing (Writing.after e.proc.text.length k))
    (hk : k < e.proc.text.length) (hreader : e.proc.reader.Got [])
    (hstep : restrict (fun _ a => Io.smooth a = true) strCli.io e a = some t) :
    t = e ∨ ∃ new rest, new ≠ [] ∧ e.proc.text.drop k = new ++ rest ∧
      t = ⟨{ e.proc with
          place := if k+new.length < e.proc.text.length then
              .writing (Writing.after e.proc.text.length (k+new.length))
            else .reading },e.inp,⟨e.out.bytes ++ new,false⟩⟩ := by
  have hpending : strCli.pending e.proc = .write (e.proc.text.drop k) := by
    simp only [strCli,hplace,Writing.after]
  have hwrite (took : WriteAnswer) : strCli.onWrite e.proc took =
      e.proc.send ((Writing.after e.proc.text.length k).body e.proc.text.length took) := by
    simp only [strCli,hplace]
  rcases smooth_write hpending (by simpa using hk) hstep with rfl | ⟨new,rest,hnew,hdrop,rfl⟩
  · left
    have hsame : strCli.onWrite e.proc (.fail .eintr) = e.proc := by
      rw [hwrite,Writing.body_interrupted hk,send_after hreader hk.le,if_pos hk,← hplace]
    rw [hsame]
  · have hlen := congrArg List.length hdrop
    rw [List.length_drop,List.length_append] at hlen
    have hle : k+new.length ≤ e.proc.text.length := by omega
    refine Or.inr ⟨new,rest,hnew,hdrop,?_⟩
    rw [hwrite,Writing.body_accepted (List.length_pos_iff.mpr hnew) hle,send_after hreader hle]

end Client

section Phases

/-- Every piece of the input is sent as a line. -/
def Complete (input : List UInt8) : Prop :=
  ∀ line ∈ inputLines maxLine input, newline ∈ cString line

structure Idle (s : Session Client Server) : Prop where
  client : s.left.place = .fgets
  clientReader : s.left.reader.Got []
  server : s.right.place = .reading
  serverReader : s.right.reader.Got []
  toRight : s.toRight = ⟨[],false⟩
  toLeft : s.toLeft = ⟨[],false⟩

/-- The client has sent `k` bytes of a line, and the server has received `half`. -/
structure Asking (s : Session Client Server) (k : ℕ) (half : List UInt8) : Prop where
  piece : Piece s.left.text
  bound : k ≤ s.left.text.length
  client : s.left.place = if k < s.left.text.length then
    .writing (Writing.after s.left.text.length k) else .reading
  clientReader : s.left.reader.Got []
  server : s.right.place = .reading
  serverReader : s.right.reader.Got half
  sent : half ++ s.toRight.bytes = s.left.text.take k
  waits : newline ∉ half
  opened : s.toRight.closed = false
  toLeft : s.toLeft = ⟨[],false⟩

structure Answering (s : Session Client Server) (k : ℕ) (half : List UInt8) : Prop where
  line : Echoable s.left.text
  bound : k ≤ s.left.text.length
  client : s.left.place = .reading
  clientReader : s.left.reader.Got half
  server : s.right.place = if k < s.left.text.length then
    .writing s.left.text.length (Writing.after s.left.text.length k) else .reading
  serverReader : s.right.reader.Got []
  buffer : s.right.buffer.load 0 s.left.text.length = s.left.text
  sent : half ++ s.toLeft.bytes = s.left.text.take k
  waits : newline ∉ half
  opened : s.toLeft.closed = false
  toRight : s.toRight = ⟨[],false⟩

variable {s : Session Client Server} {k : ℕ} {half : List UInt8} {a : Io}

theorem half_short {text flight : List UInt8} (hshort : text.length < maxLine)
    (hsent : half ++ flight = text.take k) : half.length < maxLine := by
  have hlen := congrArg List.length hsent
  rw [List.length_append,List.length_take] at hlen
  omega

theorem take_sent {text flight new rest : List UInt8} (hsent : half ++ flight = text.take k)
    (hdrop : text.drop k = new ++ rest) :
    half ++ (flight ++ new) = text.take (k+new.length) := by
  rw [List.take_add,hdrop,List.take_left,← List.append_assoc,hsent]

theorem sent_le {text new rest : List UInt8} (hk : k ≤ text.length)
    (hdrop : text.drop k = new ++ rest) : k+new.length ≤ text.length := by
  have hlen := congrArg List.length hdrop
  rw [List.length_drop,List.length_append] at hlen
  omega

theorem take_received {text flight new rest : List UInt8} (hsent : half ++ flight = text.take k)
    (hflight : flight = new ++ rest) : half ++ new ++ rest = text.take k := by
  rw [List.append_assoc,← hflight,hsent]

theorem received_all {text flight : List UInt8} (hk : ¬ k < text.length)
    (hsent : half ++ flight = text.take k) (hempty : flight = []) : half = text := by
  rwa [hempty,List.append_nil,List.take_of_length_le (not_lt.mp hk)] at hsent

/-- A newline has come: the line has come as a whole. -/
theorem received {text flight new rest : List UInt8} (hpiece : Piece text)
    (hsent : half ++ flight = text.take k) (hflight : flight = new ++ rest)
    (hmem : newline ∈ half ++ new) : half ++ new = text ∧ rest = [] ∧ text.length ≤ k := by
  replace hsent := take_received hsent hflight
  have hpre : half ++ new <+: text :=
    (List.prefix_append _ rest).trans (hsent ▸ List.take_prefix k text)
  have htext := (hpiece.echoable (hpre.subset hmem)).eq_of_newline hpre hmem
  rw [htext] at hsent
  have hlen := congrArg List.length hsent
  rw [List.length_append,List.length_take] at hlen
  exact ⟨htext,List.length_eq_zero_iff.mp (by omega),by omega⟩

theorem Idle.asks {line rest : List UInt8} (h : Idle s)
    (hget : fgets maxLine s.left.input = some (line,rest)) :
    Asking ⟨s.left.next,s.right,s.toRight,s.toLeft⟩ 0 [] ∧ s.left.next.input = rest ∧
      s.left.next.text = cString line := by
  rw [next_of_fgets h.clientReader hget]
  refine ⟨⟨piece_of_fgets hget,Nat.zero_le _,rfl,h.clientReader,h.server,h.serverReader,?_,
    List.not_mem_nil,?_,h.toLeft⟩,rfl,rfl⟩
  · simp [h.toRight]
  · rw [h.toRight]

theorem Idle.left {e : Endpoint Client} (h : Idle s) (hinput : Complete s.left.input)
    (hstep : restrict (fun _ a => Io.smooth a = true) strCli.io s.leftEnd a = some e) :
    Asking ⟨e.proc,s.right,e.out,e.inp⟩ 0 [] ∧ newline ∈ e.proc.text ∧ Complete e.proc.input ∨
      e.proc.place = .returned := by
  obtain ⟨-,hio⟩ := restrict_eq_some.mp hstep
  have hpending : strCli.pending s.left = .compute := by simp only [strCli,h.client]
  cases io_moved hio with
  | compute =>
    cases hget : fgets maxLine s.left.input with
    | none =>
      right
      simp only [strCli,Session.leftEnd,Client.next,hget]
    | some pair =>
      obtain ⟨line,rest⟩ := pair
      left
      have hlines := inputLines_cons (by decide : 1 < maxLine) hget
      obtain ⟨hasking,hrest,htext⟩ := h.asks hget
      refine ⟨hasking,?_,?_⟩
      · exact htext ▸ hinput line (by simp [hlines])
      · intro l hl
        have hl' : l ∈ inputLines maxLine rest := hrest ▸ hl
        exact hinput l (by simp [hlines,hl'])
  | data hp | eof hp | readFail hp | sent hp | writeFail hp | close hp =>
    rw [Session.leftEnd,hpending] at hp
    cases hp

theorem Idle.right {e : Endpoint Server} (h : Idle s)
    (hstep : restrict (fun _ a => Io.smooth a = true) strEcho.io s.rightEnd a = some e) :
    Idle ⟨s.left,e.proc,e.inp,e.out⟩ := by
  have hopen : s.rightEnd.inp.closed = false := by simp [Session.rightEnd,h.toRight]
  rcases server_reads h.server h.serverReader List.not_mem_nil maxLine_pos hopen hstep with
    ⟨r,hr,rfl⟩ | ⟨r,new,rest,hnew,hin,-,-⟩
  · exact ⟨h.client,h.clientReader,h.server,hr,h.toRight,h.toLeft⟩
  · simp [Session.rightEnd,h.toRight,hnew] at hin

theorem Asking.left {e : Endpoint Client} (h : Asking s k half)
    (hstep : restrict (fun _ a => Io.smooth a = true) strCli.io s.leftEnd a = some e) :
    (∃ k, Asking ⟨e.proc,s.right,e.out,e.inp⟩ k half) ∧ e.proc.input = s.left.input ∧
      e.proc.text = s.left.text := by
  by_cases hk : k < s.left.text.length
  · have hplace := h.client
    rw [if_pos hk] at hplace
    rcases client_writes hplace hk h.clientReader hstep with rfl | ⟨new,rest,-,hdrop,rfl⟩
    · exact ⟨⟨k,h⟩,rfl,rfl⟩
    · refine ⟨⟨k+new.length,h.piece,sent_le h.bound hdrop,rfl,h.clientReader,h.server,
        h.serverReader,take_sent h.sent hdrop,h.waits,rfl,h.toLeft⟩,rfl,rfl⟩
  · have hplace := h.client
    rw [if_neg hk] at hplace
    have hopen : s.leftEnd.inp.closed = false := by simp [Session.leftEnd,h.toLeft]
    rcases client_reads hplace h.clientReader List.not_mem_nil maxLine_pos hopen hstep with
      ⟨r,hr,rfl⟩ | ⟨r,new,rest,hnew,hin,-,-⟩
    · exact ⟨⟨k,h.piece,h.bound,h.client,hr,h.server,h.serverReader,h.sent,h.waits,h.opened,
        h.toLeft⟩,rfl,rfl⟩
    · simp [Session.leftEnd,h.toLeft,hnew] at hin

theorem Asking.right {e : Endpoint Server} (h : Asking s k half)
    (hstep : restrict (fun _ a => Io.smooth a = true) strEcho.io s.rightEnd a = some e) :
    (∃ half, Asking ⟨s.left,e.proc,e.inp,e.out⟩ k half) ∨
      Answering ⟨s.left,e.proc,e.inp,e.out⟩ 0 [] := by
  rcases server_reads h.server h.serverReader h.waits (half_short h.piece.short h.sent) h.opened
    hstep with ⟨r,hr,rfl⟩ | ⟨r,new,rest,-,hin,hr,rfl⟩
  · exact Or.inl ⟨half,h.piece,h.bound,h.client,h.clientReader,h.server,hr,h.sent,h.waits,
      h.opened,h.toLeft⟩
  · by_cases hmem : newline ∈ half ++ new
    · obtain ⟨htext,rfl,hk⟩ := received h.piece h.sent hin hmem
      have hline : Echoable s.left.text := h.piece.echoable (htext ▸ hmem)
      right
      rw [htext] at hr
      obtain ⟨r',hr',hplace,hreader,hbuffer⟩ :=
        head_line (s := { s.rightEnd.proc with reader := r }) hr hline
      have hclient := h.client
      rw [if_neg (by omega)] at hclient
      refine ⟨hline,Nat.zero_le _,hclient,h.clientReader,?_,hreader ▸ hr',hbuffer,?_,by simp,?_,
        rfl⟩
      · rw [hplace,if_pos hline.length_pos]
      · simp [Session.rightEnd,h.toLeft]
      · simp [Session.rightEnd,h.toLeft]
    · left
      have hsent := take_received h.sent hin
      rw [head_waits (s := { s.rightEnd.proc with reader := r }) hr hmem
        (half_short h.piece.short hsent)]
      exact ⟨half ++ new,h.piece,h.bound,h.client,h.clientReader,rfl,hr,hsent,hmem,rfl,h.toLeft⟩

theorem Asking.delivered (h : Asking s k half) (hreading : s.left.place = .reading)
    (hempty : s.toRight.bytes = []) : half = s.left.text := by
  have hk : ¬ k < s.left.text.length := by
    intro hlt
    have hplace := h.client
    rw [if_pos hlt,hreading] at hplace
    cases hplace
  exact received_all hk h.sent hempty

theorem Answering.delivered (h : Answering s k half) (hreading : s.right.place = .reading)
    (hempty : s.toLeft.bytes = []) : half = s.left.text := by
  have hk : ¬ k < s.left.text.length := by
    intro hlt
    have hplace := h.server
    rw [if_pos hlt,hreading] at hplace
    cases hplace
  exact received_all hk h.sent hempty

theorem Answering.left {e : Endpoint Client} (h : Answering s k half)
    (hstep : restrict (fun _ a => Io.smooth a = true) strCli.io s.leftEnd a = some e) :
    ((∃ half, Answering ⟨e.proc,s.right,e.out,e.inp⟩ k half) ∨
      Idle ⟨e.proc,s.right,e.out,e.inp⟩) ∧ e.proc.input = s.left.input := by
  rcases client_reads h.client h.clientReader h.waits (half_short h.line.short h.sent) h.opened
    hstep with ⟨r,hr,rfl⟩ | ⟨r,new,rest,-,hin,hr,rfl⟩
  · exact ⟨Or.inl ⟨half,h.line,h.bound,h.client,hr,h.server,h.serverReader,h.buffer,h.sent,
      h.waits,h.opened,h.toRight⟩,rfl⟩
  · by_cases hmem : newline ∈ half ++ new
    · obtain ⟨htext,rfl,hk⟩ := received h.line.piece h.sent hin hmem
      rw [htext] at hr
      obtain ⟨hplace,hreader,hinput⟩ :=
        receive_line (s := { s.leftEnd.proc with reader := r }) hr h.line
      have hserver := h.server
      rw [if_neg (by omega)] at hserver
      exact ⟨Or.inr ⟨hplace,hreader,hserver,h.serverReader,h.toRight,rfl⟩,hinput⟩
    · have hsent := take_received h.sent hin
      rw [receive_waits (s := { s.leftEnd.proc with reader := r }) hr hmem
        (half_short h.line.short hsent)]
      exact ⟨Or.inl ⟨half ++ new,h.line,h.bound,rfl,hr,h.server,h.serverReader,h.buffer,hsent,hmem,
        rfl,h.toRight⟩,rfl⟩

theorem Answering.right {e : Endpoint Server} (h : Answering s k half)
    (hstep : restrict (fun _ a => Io.smooth a = true) strEcho.io s.rightEnd a = some e) :
    ∃ k, Answering ⟨s.left,e.proc,e.inp,e.out⟩ k half := by
  by_cases hk : k < s.left.text.length
  · have hplace := h.server
    rw [if_pos hk] at hplace
    rcases server_writes hplace hk h.buffer h.serverReader hstep with
      rfl | ⟨new,rest,-,hdrop,rfl⟩
    · exact ⟨k,h⟩
    · exact ⟨k+new.length,h.line,sent_le h.bound hdrop,h.client,h.clientReader,rfl,
        h.serverReader,h.buffer,take_sent h.sent hdrop,h.waits,rfl,h.toRight⟩
  · have hplace := h.server
    rw [if_neg hk] at hplace
    have hopen : s.rightEnd.inp.closed = false := by simp [Session.rightEnd,h.toRight]
    rcases server_reads hplace h.serverReader List.not_mem_nil maxLine_pos hopen hstep with
      ⟨r,hr,rfl⟩ | ⟨r,new,rest,hnew,hin,-,-⟩
    · exact ⟨k,h.line,h.bound,h.client,h.clientReader,h.server,hr,h.buffer,h.sent,h.waits,
        h.opened,h.toRight⟩
    · simp [Session.rightEnd,h.toRight,hnew] at hin

inductive Phase (s : Session Client Server) : Prop
  | idle (h : Idle s) (hinput : Complete s.left.input)
  | asking (k : ℕ) (half : List UInt8) (h : Asking s k half) (hline : newline ∈ s.left.text)
      (hinput : Complete s.left.input)
  | answering (k : ℕ) (half : List UInt8) (h : Answering s k half)
      (hinput : Complete s.left.input)
  | returned (h : s.left.place = .returned)

theorem Phase.step {t : Session Client Server} {a : Act} (h : Phase s)
    (hstep : restrict (fun _ a => Act.smooth a = true) (session strCli strEcho) s a = some t) :
    Phase t := by
  rcases session_smooth hstep with ⟨b,e,he,rfl⟩ | ⟨b,e,he,rfl⟩
  · cases h with
    | idle h hinput =>
      rcases h.left hinput he with ⟨hasking,hline,hrest⟩ | hreturned
      · exact .asking 0 [] hasking hline hrest
      · exact .returned hreturned
    | asking k half h hline hinput =>
      obtain ⟨⟨k,hasking⟩,hsame,htext⟩ := h.left he
      exact .asking k half hasking (htext ▸ hline) (hsame ▸ hinput)
    | answering k half h hinput =>
      obtain ⟨⟨half,hanswering⟩ | hidle,hsame⟩ := h.left he
      · exact .answering k half hanswering (hsame ▸ hinput)
      · exact .idle hidle (hsame ▸ hinput)
    | returned h =>
      obtain ⟨-,hio⟩ := restrict_eq_some.mp he
      have hpending : strCli.pending s.leftEnd.proc = .exited := by
        simp only [strCli,Session.leftEnd,h]
      cases io_moved hio with
      | close => exact .returned h
      | data hp | eof hp | readFail hp | sent hp | writeFail hp | compute hp =>
        rw [hpending] at hp
        cases hp
  · cases h with
    | idle h hinput => exact .idle (h.right he) hinput
    | asking k half h hline hinput =>
      rcases h.right he with ⟨half,hasking⟩ | hanswering
      · exact .asking k half hasking hline hinput
      · exact .answering 0 [] hanswering hinput
    | answering k half h hinput =>
      obtain ⟨k,hanswering⟩ := h.right he
      exact .answering k half hanswering hinput
    | returned h => exact .returned h

theorem Phase.not_deadlocked (h : Phase s) : ¬ Deadlocked s := by
  intro hdead
  cases h with
  | idle h =>
    have hplace := h.client
    rw [hdead.client] at hplace
    cases hplace
  | asking k half h hline =>
    have hall := h.delivered hdead.client (by rw [hdead.toRight])
    exact h.waits (hall ▸ hline)
  | answering k half h =>
    have hall := h.delivered hdead.server (by rw [hdead.toLeft])
    exact h.waits (hall ▸ h.line.newline_mem)
  | returned h =>
    rw [hdead.client] at h
    cases h

end Phases

section Runs

variable {s : Session Client Server}

theorem Asking.send_all (h : Asking s 0 []) : ∃ t,
    Reachable (restrict (fun _ a => Act.smooth a = true) (session strCli strEcho)) s t ∧
      Asking t s.left.text.length [] ∧ t.left.text = s.left.text ∧
      t.left.input = s.left.input ∧ t.toRight.bytes = s.left.text := by
  by_cases hpos : 0 < s.left.text.length
  · have hplace := h.client
    rw [if_pos hpos] at hplace
    have hpending : strCli.pending s.leftEnd.proc = .write s.left.text := by
      simp only [strCli,Session.leftEnd,hplace,Writing.after,List.drop_zero]
    have hio := io_write_all hpending h.opened
    have hreach := reachable_left (P := strCli) (Q := strEcho) (b := .write _) rfl (.refl s) hio
    obtain ⟨⟨k,hk⟩,hinput,htext⟩ := h.left (restrict_eq_some.mpr ⟨rfl,hio⟩)
    have hempty : s.toRight.bytes = [] := h.sent
    have hbytes : s.leftEnd.out.bytes ++ s.left.text = s.left.text := by
      rw [Session.leftEnd,hempty,List.nil_append]
    obtain rfl : k = s.left.text.length := by
      have hsent := hk.sent
      have hlen := congrArg List.length hsent
      have hbound := hk.bound
      simp only [List.nil_append,hbytes,htext,List.length_take] at hlen hbound
      omega
    exact ⟨_,hreach,hk,htext,hinput,hbytes⟩
  · have hnil : s.left.text = [] := List.length_eq_zero_iff.mp (by omega)
    refine ⟨s,.refl s,?_,rfl,rfl,?_⟩
    · rw [hnil]
      exact h
    · have hsent := h.sent
      rw [hnil] at hsent ⊢
      simpa using hsent

theorem Asking.receive_all {n : ℕ} (h : Asking s n []) (hall : s.toRight.bytes = s.left.text)
    (hne : s.left.text ≠ []) : ∃ t,
    Reachable (restrict (fun _ a => Act.smooth a = true) (session strCli strEcho)) s t ∧
      t.left = s.left ∧ t.toRight = ⟨[],false⟩ ∧
      ((∃ half, Asking t n half) ∨ Answering t 0 []) := by
  have hpending : strEcho.pending s.rightEnd.proc = .read maxLine := by
    simp only [strEcho,Session.rightEnd,h.server]
  have hio := io_read_all hpending (by simpa only [Session.rightEnd,hall] using hne)
    (by simpa only [Session.rightEnd,hall] using h.piece.short.le)
  have hreach := reachable_right (P := strCli) (Q := strEcho) (b := .read _) rfl (.refl s) hio
  refine ⟨_,hreach,rfl,?_,h.right (restrict_eq_some.mpr ⟨rfl,hio⟩)⟩
  simp only [Session.rightEnd,h.opened]

/-- A line comes to the server, which turns to sending it back. -/
theorem Asking.answers (h : Asking s 0 []) (hline : newline ∈ s.left.text) : ∃ t,
    Reachable (restrict (fun _ a => Act.smooth a = true) (session strCli strEcho)) s t ∧
      Answering t 0 [] ∧ t.left.input = s.left.input := by
  obtain ⟨t,hst,ht,htext,hinput,hall⟩ := h.send_all
  rw [← htext] at ht hall hline
  obtain ⟨u,htu,hleft,hempty,hu⟩ := ht.receive_all hall (List.ne_nil_of_mem hline)
  rcases hu with ⟨half,hu⟩ | hu
  · have hreading := ht.client
    rw [if_neg (lt_irrefl _),← hleft] at hreading
    have hhalf := hu.delivered hreading (by rw [hempty])
    rw [← hleft,← hhalf] at hline
    exact absurd hline hu.waits
  · exact ⟨u,hst.trans htu,hu,by rw [hleft,hinput]⟩

/-- Anything else leaves the server waiting for more, and the client for the answer. -/
theorem Asking.deadlocks (h : Asking s 0 []) (hnone : newline ∉ s.left.text) : ∃ t,
    Reachable (restrict (fun _ a => Act.smooth a = true) (session strCli strEcho)) s t ∧
      Deadlocked t := by
  obtain ⟨t,hst,ht,htext,-,hall⟩ := h.send_all
  rw [← htext] at ht hall hnone
  have hreading := ht.client
  rw [if_neg (lt_irrefl _)] at hreading
  by_cases hnil : t.left.text = []
  · refine ⟨t,hst,hreading,ht.server,?_,ht.toLeft⟩
    rw [hnil] at hall
    exact Pipe.ext hall ht.opened
  · obtain ⟨u,htu,hleft,hempty,hu⟩ := ht.receive_all hall hnil
    rcases hu with ⟨half,hu⟩ | hu
    · exact ⟨u,hst.trans htu,hleft ▸ hreading,hu.server,hempty,hu.toLeft⟩
    · have hmem := hu.line.newline_mem
      rw [hleft] at hmem
      exact absurd hmem hnone

theorem Answering.send_all (h : Answering s 0 []) : ∃ t,
    Reachable (restrict (fun _ a => Act.smooth a = true) (session strCli strEcho)) s t ∧
      Answering t s.left.text.length [] ∧ t.left = s.left ∧ t.toLeft.bytes = s.left.text := by
  have hplace := h.server
  rw [if_pos h.line.length_pos] at hplace
  have hpending : strEcho.pending s.rightEnd.proc = .write s.left.text := by
    have hleft : ((s.left.text.length : ℤ)-(0 : ℕ)).toNat = s.left.text.length := by omega
    simp only [strEcho,Session.rightEnd,hplace,Writing.after,hleft,h.buffer]
  have hio := io_write_all hpending h.opened
  have hreach := reachable_right (P := strCli) (Q := strEcho) (b := .write _) rfl (.refl s) hio
  obtain ⟨k,hk⟩ := h.right (restrict_eq_some.mpr ⟨rfl,hio⟩)
  have hempty : s.toLeft.bytes = [] := h.sent
  have hbytes : s.rightEnd.out.bytes ++ s.left.text = s.left.text := by
    rw [Session.rightEnd,hempty,List.nil_append]
  obtain rfl : k = s.left.text.length := by
    have hlen := congrArg List.length hk.sent
    have hbound := hk.bound
    simp only [List.nil_append,hbytes,List.length_take] at hlen hbound
    omega
  exact ⟨_,hreach,hk,rfl,hbytes⟩

theorem Answering.returns (h : Answering s 0 []) : ∃ t,
    Reachable (restrict (fun _ a => Act.smooth a = true) (session strCli strEcho)) s t ∧
      Idle t ∧ t.left.input = s.left.input := by
  obtain ⟨t,hst,ht,hleft,hall⟩ := h.send_all
  rw [← hleft] at ht hall
  have hpending : strCli.pending t.leftEnd.proc = .read maxLine := by
    simp only [strCli,Session.leftEnd,ht.client]
  have hio := io_read_all hpending
    (by simpa only [Session.leftEnd,hall] using List.length_pos_iff.mp ht.line.length_pos)
    (by simpa only [Session.leftEnd,hall] using ht.line.short.le)
  have hsu := reachable_left (P := strCli) (Q := strEcho) (b := .read _) rfl hst hio
  obtain ⟨⟨half,hu⟩ | hu,hinput⟩ := ht.left (restrict_eq_some.mpr ⟨rfl,hio⟩)
  · have hreading := ht.server
    rw [if_neg (lt_irrefl _)] at hreading
    have hhalf := hu.delivered hreading rfl
    exact absurd (hhalf ▸ hu.line.newline_mem) hu.waits
  · exact ⟨_,hsu,hu,by rw [← hleft]; exact hinput⟩

theorem Idle.next_asks (h : Idle s) {line rest : List UInt8}
    (hget : fgets maxLine s.left.input = some (line,rest)) : ∃ t,
    Reachable (restrict (fun _ a => Act.smooth a = true) (session strCli strEcho)) s t ∧
      Asking t 0 [] ∧ t.left.input = rest ∧ t.left.text = cString line := by
  have hpending : strCli.pending s.leftEnd.proc = .compute := by
    simp only [strCli,Session.leftEnd,h.client]
  exact ⟨_,reachable_left (b := .compute) rfl (.refl s) (io_compute hpending),h.asks hget⟩

/-- Exchange after exchange, the programs get to the first piece without a newline. -/
theorem Idle.deadlocks (h : Idle s) (hinput : ¬ Complete s.left.input) : ∃ t,
    Reachable (restrict (fun _ a => Act.smooth a = true) (session strCli strEcho)) s t ∧
      Deadlocked t := by
  induction hn : s.left.input.length using Nat.strong_induction_on generalizing s with
  | _ n ih =>
    cases hget : fgets maxLine s.left.input with
    | none =>
      have hnil : s.left.input = [] := by
        by_contra hne
        simp [fgets,hne] at hget
      simp [Complete,hnil,inputLines_nil] at hinput
    | some pair =>
      obtain ⟨line,rest⟩ := pair
      obtain ⟨t,hst,ht,hrest,htext⟩ := h.next_asks hget
      by_cases hline : newline ∈ cString line
      · obtain ⟨u,htu,hu,hsame⟩ := ht.answers (htext ▸ hline)
        obtain ⟨v,huv,hv,hsame'⟩ := hu.returns
        have hleft : v.left.input = rest := by rw [hsame',hsame,hrest]
        have hlt := fgets_shorter (by decide : 1 < maxLine) hget
        have hmore : ¬ Complete v.left.input := by
          intro hcomplete
          apply hinput
          rw [hleft] at hcomplete
          rw [Complete,inputLines_cons (by decide : 1 < maxLine) hget]
          exact List.forall_mem_cons.mpr ⟨hline,hcomplete⟩
        obtain ⟨w,hvw,hw⟩ := ih rest.length (hn ▸ hlt) hv hmore (by rw [hleft])
        exact ⟨w,((hst.trans htu).trans huv).trans hvw,hw⟩
      · obtain ⟨u,htu,hu⟩ := ht.deadlocks (htext ▸ hline)
        exact ⟨u,hst.trans htu,hu⟩

end Runs

theorem connected_idle (input : List UInt8) (clientSock serverSock : ℤ)
    (recvline buffer : Memory UInt8) :
    Idle (connected input clientSock serverSock recvline buffer) := by
  have hfresh : (Readline.start []).Got [] := ⟨le_refl 0,by simp [Readline.start],rfl⟩
  have hserver := head_waits (s := ⟨.reading,serverSock,buffer,Readline.start [],[]⟩) hfresh
    List.not_mem_nil maxLine_pos
  refine ⟨rfl,hfresh,?_,?_,rfl,rfl⟩
  · simp only [connected,Server.start,hserver]
  · simp only [connected,Server.start,hserver]
    exact hfresh

/-- However the two streams are cut, the programs never wait for each other exactly if every
piece that the client's `fgets` reads has a newline in front of any 0. An input without a
final newline, or with a line of more than `MAXLINE - 1` bytes, can leave both waiting. -/
theorem no_deadlock_iff (input : List UInt8) (clientSock serverSock : ℤ)
    (recvline buffer : Memory UInt8) :
    (∀ s, Reachable (restrict (fun _ a => Act.smooth a = true) (session strCli strEcho))
      (connected input clientSock serverSock recvline buffer) s → ¬ Deadlocked s) ↔
      ∀ line ∈ inputLines maxLine input, newline ∈ cString line := by
  have hidle := connected_idle input clientSock serverSock recvline buffer
  constructor
  · intro hfree
    by_contra hinput
    obtain ⟨t,hreach,hdead⟩ := hidle.deadlocks hinput
    exact hfree t hreach hdead
  · intro hinput s hreach
    exact (hreach.invariant (I := Phase) (.idle hidle hinput)
      fun a x y hx hxy => hx.step hxy).not_deadlocked

/-- The input is the letter a alone. The client sends it and waits for an answer; the server
waits for the rest of the line. -/
theorem last_line_deadlocks : ∃ s,
    Reachable (restrict (fun _ a => Act.smooth a = true) (session strCli strEcho))
      (connected [97] 3 4 (fun _ => 0) fun _ => 0) s ∧ Deadlocked s := by
  obtain ⟨t,hreach,ht⟩ := exists_reachable
    (restrict (fun _ a => Act.smooth a = true) (session strCli strEcho))
    (connected [97] 3 4 (fun _ => 0) fun _ => 0)
    [.left .compute,.left (.write 0),.right (.read 0)]
    (fun t => t.left.place = .reading ∧ t.right.place = .reading ∧
      t.toRight = ⟨[],false⟩ ∧ t.toLeft = ⟨[],false⟩) (by decide +kernel)
  obtain ⟨hclient,hserver,hright,hleft⟩ := of_decide_eq_true ht
  exact ⟨t,hreach,hclient,hserver,hright,hleft⟩

end StrSession
end CPrograming
