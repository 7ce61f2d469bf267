import CPrograming.SelectClient

/-!
# Replies under way when the client returns

The client returns at the end of its input, whatever is still on its way back. The peer
sends back every byte, after any delay.
-/

namespace CPrograming
namespace SelectClient

open Connection Libc SocketFunc Readline Runs

variable {T : Type*}

section Runs

variable {Q : Process T} {s : State T} {c : Client}

theorem eof_run (c : Client) (out got : List UInt8) (hended : s.ended = true) :
    Reachable (restrict (fun _ a => Action.smooth a = true) (step Q))
      (s.goto { c with place := .fgets got } out []) (s.goto (c.atEof got) out []) := by
  have hplace : { c with place := .fgets got }.atEof got = c.atEof got := by
    simp only [Client.atEof,sendLine_place]
  refine (Reachable.refl _).tail (a := .stdin) (restrict_eq_some.mpr ⟨rfl,?_⟩)
  simp only [step,State.client,State.goto,hended,← hplace]
  rfl

/-- From here the client can send all of its input and return, with nothing printed. -/
def Returns (Q : Process T) (s : State T) (c : Client) (out : List UInt8) (queue : List Segment) :
    Prop :=
  ∃ c' out', Reachable (restrict (fun _ a => Action.smooth a = true) (step Q)) (s.goto c out queue)
      (s.goto c' out' []) ∧ c'.place = .returned true ∧ c'.stdout = c.stdout ∧
    c'.sent = c.sent ++ (inputLines maxLine (c.stdio ++ bytes queue)).flatMap cString

theorem sendLine_returns (c : Client) (line out : List UInt8) (queue : List Segment)
    (h : ∀ c' out', c'.place = .select → c'.stdio = c.stdio → Returns Q s c' out' queue) :
    ∃ c' out', Reachable (restrict (fun _ a => Action.smooth a = true) (step Q))
        (s.goto (c.sendLine line) out queue) (s.goto c' out' []) ∧
      c'.place = .returned true ∧ c'.stdout = c.stdout ∧
      c'.sent = c.sent ++
        (line :: inputLines maxLine (c.stdio ++ bytes queue)).flatMap cString := by
  obtain ⟨out',hsend⟩ := sendLine_run (Q := Q) s c line out queue
  obtain ⟨c'',out'',hrun,hreturned,hstdout,hsent⟩ :=
    h { c with sendline := line, sent := c.sent ++ cString line }.head out' rfl rfl
  refine ⟨c'',out'',hsend.trans hrun,hreturned,hstdout,?_⟩
  rw [List.flatMap_cons,← List.append_assoc]
  exact hsent

/-- While the peer is silent, the client sends all of its input and returns. -/
theorem return_run (hquiet : s.conn.toLeft = ⟨[],false⟩) (hended : s.ended = true)
    (hplace : c.place = .select) (out : List UInt8) (queue : List Segment) :
    Returns Q s c out queue := by
  induction hn : (c.stdio ++ bytes queue).length using Nat.strong_induction_on
    generalizing c queue out with
  | _ n ih =>
    have hstart := select_run (Q := Q) out queue hplace hquiet (Or.inr hended)
    rcases fgets_run (Q := Q) s { c with rset := ⟨true,false⟩ } out queue
      ⟨List.not_mem_nil,by decide⟩ with
      ⟨line,rest,queue',hwhole,happend,-,hreach⟩ | ⟨hopen,hreach⟩
    · have hinput : c.stdio ++ bytes queue = line ++ (rest ++ bytes queue') := by
        rw [← List.append_assoc]
        exact happend.symm
      have hlines : inputLines maxLine (c.stdio ++ bytes queue) =
          line :: inputLines maxLine (rest ++ bytes queue') := by
        rw [hinput]
        exact inputLines_cons (by decide) (hwhole.fgets (by decide) _)
      have hlt : (rest ++ bytes queue').length < n := by
        have hpos := List.length_pos_iff.mpr (hwhole.ne_nil (by decide))
        have hlen := congrArg List.length hinput
        simp only [List.length_append] at hn hlen ⊢
        omega
      obtain ⟨c',out',hrun,hreturned,hstdout,hsent⟩ :=
        sendLine_returns { c with rset := ⟨true,false⟩, stdio := rest } line out queue'
          fun _ _ hselect hstdio => ih _ hlt hselect _ _ (by rw [hstdio])
      rw [Returns,hlines]
      exact ⟨c',out',(hstart.trans hreach).trans hrun,hreturned,hstdout,hsent⟩
    · rw [List.nil_append] at hopen hreach
      have heof := hreach.trans
        (eof_run { c with rset := ⟨true,false⟩, stdio := [] } out (c.stdio ++ bytes queue) hended)
      by_cases hnil : c.stdio ++ bytes queue = []
      · rw [Client.atEof,if_pos hnil] at heof
        exact ⟨_,out,hstart.trans heof,rfl,rfl,by simp [hnil,inputLines_nil]⟩
      · rw [Client.atEof,if_neg hnil] at heof
        have hpos := List.length_pos_iff.mpr hnil
        obtain ⟨c',out',hrun,hreturned,hstdout,hsent⟩ :=
          sendLine_returns { c with rset := ⟨true,false⟩, stdio := [] } (c.stdio ++ bytes queue) out
            [] fun _ _ hselect hstdio => ih 0 (hn ▸ hpos) hselect _ _ (by simp [hstdio])
        rw [Returns,inputLines_cons (by decide) (hopen.fgets hnil)]
        exact ⟨c',out',(hstart.trans heof).trans hrun,hreturned,hstdout,hsent⟩

end Runs

section Nothing

variable {future got line : List UInt8} {c : Client}

/-- Every piece of the input is the empty string to `strlen`. -/
def Blank (input : List UInt8) : Prop := ∀ line ∈ inputLines maxLine input, cString line = []

theorem Blank.cons {rest : List UInt8} (h : Blank (line ++ rest)) (hwhole : Whole maxLine line) :
    cString line = [] ∧ Blank rest := by
  rw [Blank,inputLines_cons (by decide) (hwhole.fgets (by decide) rest)] at h
  exact List.forall_mem_cons.mp h

def Mute (future : List UInt8) (c : Client) : Prop :=
  c.reader.Got [] ∧ c.sent = [] ∧ c.stdout = [] ∧
    match c.place with
    | .select | .readline => Blank (c.stdio ++ future)
    | .fgets got => Open maxLine got ∧ c.stdio = [] ∧ Blank (got ++ future)
    | .writing _ => False
    | .returned _ => True

theorem sendLine_blank (h : cString line = []) :
    c.sendLine line = { c with sendline := line }.head := by
  simp [Client.sendLine,Client.text,h,Client.send,Writing.enter,Writing.test]

theorem fill_mute (hreader : c.reader.Got []) (hsent : c.sent = []) (hstdout : c.stdout = [])
    (hopen : Open maxLine got) (hblank : Blank (got ++ c.stdio ++ future)) :
    Mute future (c.fill got) := by
  rcases takeLine_cases hopen c.stdio with ⟨hopen',htake⟩ | hwhole
  · rw [fill_open hopen' htake]
    exact ⟨hreader,hsent,hstdout,hopen',rfl,hblank⟩
  · rw [← takeLine_append maxLine got c.stdio,List.append_assoc] at hblank
    obtain ⟨hline,hrest⟩ := hblank.cons hwhole
    rw [fill_whole hwhole,sendLine_blank hline]
    exact ⟨hreader,hsent,hstdout,hrest⟩

theorem receive_mute (h : Mute future c) (hblank : Blank (c.stdio ++ future)) :
    Mute future c.receive := by
  obtain ⟨hreader,hsent,hstdout,-⟩ := h
  have hret : (readline c.sock maxLine c.reader).ret = none :=
    hreader.waits c.sock List.not_mem_nil (by decide)
  simp only [Client.receive,hret]
  exact ⟨hreader,hsent,hstdout,hblank⟩

theorem selected_mute (hplace : c.place = .select) (h : Mute future c) (rset : Rset) :
    Mute future (c.selected rset) := by
  obtain ⟨hreader,hsent,hstdout,hblank⟩ := h
  simp only [hplace] at hblank
  simp only [Client.selected,Client.input]
  split_ifs
  · exact receive_mute ⟨hreader,hsent,hstdout,by simpa only [hplace] using hblank⟩ hblank
  · exact fill_mute hreader hsent hstdout ⟨List.not_mem_nil,by decide⟩ hblank
  · exact ⟨hreader,hsent,hstdout,hblank⟩

theorem atEof_mute (hplace : c.place = .fgets got) (h : Mute [] c) : Mute [] (c.atEof got) := by
  obtain ⟨hreader,hsent,hstdout,hgot⟩ := h
  simp only [hplace,List.append_nil] at hgot
  obtain ⟨hopen,hstdio,hblank⟩ := hgot
  simp only [Client.atEof]
  split_ifs with hnil
  · exact ⟨hreader,hsent,hstdout,trivial⟩
  · have hline : cString got = [] := by
      rw [Blank,inputLines_cons (by decide) (hopen.fgets hnil)] at hblank
      exact hblank got List.mem_cons_self
    rw [sendLine_blank hline]
    refine ⟨hreader,hsent,hstdout,?_⟩
    simp [Client.head,hstdio,Blank,inputLines_nil]

structure Quiet (Q : EchoPeer T) (conn : Session Client T) : Prop where
  toRight : conn.toRight = ⟨[],false⟩
  toLeft : conn.toLeft = ⟨[],false⟩
  held : Q.held conn.right = []
  ended : Q.ended conn.right = false

structure Silent (Q : EchoPeer T) (s : State T) : Prop where
  client : Mute (bytes s.queue ++ bytes s.incoming) s.client
  ended : s.ended = true → s.incoming = []
  quiet : (∃ eof, s.client.place = .returned eof) ∨ Quiet Q s.conn

variable {Q : EchoPeer T} {conn : Session Client T}

theorem returned_left {e : Endpoint Client} {b : Io} {eof : Bool}
    (hplace : conn.left.place = .returned eof) (h : strCli.io conn.leftEnd b = some e) :
    e.proc = conn.left := by
  have hpending : strCli.pending conn.leftEnd.proc = .exited := by
    simp only [strCli,Session.leftEnd,hplace]
  cases io_moved h with
  | close => rfl
  | data hp | eof hp | readFail hp | sent hp | writeFail hp | compute hp =>
    rw [hpending] at hp
    cases hp

theorem Quiet.left {e : Endpoint Client} {b : Io} (h : Quiet Q conn) (hmute : Mute future conn.left)
    (hstep : restrict (fun _ a => Io.smooth a = true) strCli.io conn.leftEnd b = some e) :
    Mute future e.proc ∧ ((∃ eof, e.proc.place = .returned eof) ∨
      Quiet Q ⟨e.proc,conn.right,e.out,e.inp⟩) := by
  obtain ⟨-,hio⟩ := restrict_eq_some.mp hstep
  have hcompute (hp : strCli.pending conn.left = .compute) : e = conn.leftEnd := by
    cases io_moved hio with
    | compute => rfl
    | data hp' | eof hp' | readFail hp' | sent hp' | writeFail hp' | close hp' =>
      rw [Session.leftEnd,hp] at hp'
      cases hp'
  cases hplace : conn.left.place with
  | select | fgets got =>
    obtain rfl := hcompute (by simp only [strCli,hplace])
    exact ⟨hmute,Or.inr h⟩
  | readline =>
    have hpending : strCli.pending conn.leftEnd.proc = .read maxLine := by
      simp only [strCli,Session.leftEnd,hplace]
    have hopen : conn.leftEnd.inp.closed = false := by rw [Session.leftEnd,h.toLeft]
    rcases smooth_read hpending maxLine_pos hopen hstep with rfl | ⟨new,rest,hnew,-,hin,-⟩
    · obtain ⟨hreader,hsent,hstdout,hblank⟩ := hmute
      simp only [hplace] at hblank
      have hread : strCli.onRead conn.leftEnd.proc (.fail .eintr) =
          { conn.left with reader := conn.left.reader.feed (.fail .eintr) }.receive := by
        simp only [strCli,Session.leftEnd,hplace]
      rw [hread]
      refine ⟨receive_mute ⟨hreader.interrupted,hsent,hstdout,?_⟩ hblank,
        Or.inr ⟨h.toRight,h.toLeft,h.held,h.ended⟩⟩
      simpa only [hplace] using hblank
    · rw [Session.leftEnd,h.toLeft] at hin
      simp [hnew] at hin
  | writing call => simp [Mute,hplace] at hmute
  | returned eof =>
    rw [returned_left hplace hio]
    exact ⟨hmute,Or.inl ⟨eof,hplace⟩⟩

theorem Quiet.right {e : Endpoint T} {b : Io} (h : Quiet Q conn)
    (hstep : restrict (fun _ a => Io.smooth a = true) Q.proc.io conn.rightEnd b = some e) :
    Quiet Q ⟨conn.left,e.proc,e.inp,e.out⟩ := by
  obtain ⟨hsmooth,hio⟩ := restrict_eq_some.mp hstep
  cases io_moved hio with
  | data hp hin hne hlen havail => simp [Session.rightEnd,h.toRight] at havail
  | eof hp hin hclosed => simp [Session.rightEnd,h.toRight] at hclosed
  | readFail hp =>
    obtain rfl : _ = Errno.eintr := of_decide_eq_true hsmooth
    exact ⟨h.toRight,h.toLeft,(Q.held_interrupted _).trans h.held,
      (Q.ended_interrupted _).trans h.ended⟩
  | @sent k new rest hp hne hopen =>
    have hnil : new ++ rest = [] := by
      have hoffer := Q.offers _ _ hp
      rw [Session.rightEnd,h.held] at hoffer
      exact List.prefix_nil.mp hoffer
    obtain ⟨rfl,rfl⟩ := List.append_eq_nil_iff.mp hnil
    refine ⟨h.toRight,?_,?_,(Q.ended_write _ _).trans h.ended⟩
    · simp [Session.rightEnd,h.toLeft]
    · simp [Session.rightEnd,Q.held_accepted,h.held]
  | writeFail hp =>
    obtain rfl : _ = Errno.eintr := of_decide_eq_true hsmooth
    refine ⟨h.toRight,?_,(Q.held_refused _ _).trans h.held,(Q.ended_write _ _).trans h.ended⟩
    simp [Session.rightEnd,h.toLeft]
  | compute hp =>
    exact ⟨h.toRight,h.toLeft,(Q.held_compute _).trans h.held,(Q.ended_compute _).trans h.ended⟩
  | close hp =>
    have hended := Q.exits _ hp
    rw [Session.rightEnd,h.ended] at hended
    cases hended

theorem Silent.io {s : State T} {a : Act} (h : Silent Q s)
    (hstep : restrict (fun _ a => Act.smooth a = true) (session strCli Q.proc) s.conn a =
      some conn) : Silent Q { s with conn := conn } := by
  rcases session_smooth hstep with ⟨b,e,he,rfl⟩ | ⟨b,e,he,rfl⟩
  · rcases h.quiet with ⟨eof,hplace⟩ | hquiet
    · have hsame := returned_left hplace (restrict_eq_some.mp he).2
      refine ⟨?_,h.ended,Or.inl ⟨eof,?_⟩⟩
      · simpa only [State.client,hsame] using h.client
      · simpa only [State.client,hsame] using hplace
    · obtain ⟨hmute,hquiet'⟩ := hquiet.left h.client he
      exact ⟨hmute,h.ended,hquiet'⟩
  · refine ⟨h.client,h.ended,?_⟩
    rcases h.quiet with hreturned | hquiet
    · exact Or.inl hreturned
    · exact Or.inr (hquiet.right he)

theorem Silent.put {s : State T} {queue : List Segment} {c : Client} (h : Silent Q s)
    (hplace : ∀ eof, s.client.place ≠ .returned eof)
    (hmute : Mute (bytes queue ++ bytes s.incoming) c) :
    Silent Q { s.put c with queue := queue } := by
  refine ⟨hmute,h.ended,?_⟩
  rcases h.quiet with ⟨eof,hreturned⟩ | hquiet
  · exact absurd hreturned (hplace eof)
  · exact Or.inr ⟨hquiet.toRight,hquiet.toLeft,hquiet.held,hquiet.ended⟩

theorem Silent.step {s t : State T} {a : Action} (h : Silent Q s)
    (hstep : restrict (fun _ a => Action.smooth a = true) (step Q.proc) s a = some t) :
    Silent Q t := by
  obtain ⟨hsmooth,hstep⟩ := restrict_eq_some.mp hstep
  cases step_cases hstep with
  | io hconn => exact h.io (restrict_eq_some.mpr ⟨hsmooth,hconn⟩)
  | @arrive seg rest hin =>
    have hclient := h.client
    refine ⟨?_,?_,h.quiet⟩
    · rw [hin] at hclient
      simpa [State.client] using hclient
    · intro hended
      simp [h.ended hended] at hin
  | hangUp hin => exact ⟨h.client,fun _ => hin,h.quiet⟩
  | select hplace => exact h.put (by simp [hplace]) (selected_mute hplace h.client _)
  | selectFail hplace => exact h.put (by simp [hplace]) (selected_mute hplace h.client _)
  | @refill got seg rest hplace hqueue =>
    refine h.put (by simp [hplace]) ?_
    obtain ⟨hreader,hsent,hstdout,hgot⟩ := h.client
    simp only [hplace,hqueue,bytes_cons] at hgot
    obtain ⟨hopen,-,hblank⟩ := hgot
    exact fill_mute hreader hsent hstdout hopen (by simpa using hblank)
  | eof hplace hended hqueue =>
    have hclient := h.client
    rw [hqueue,h.ended hended] at hclient
    refine h.put (by simp [hplace]) ?_
    rw [hqueue,h.ended hended]
    exact atEof_mute hplace hclient
  | stdinFail hplace =>
    obtain ⟨hreader,hsent,hstdout,-⟩ := h.client
    exact h.put (by simp [hplace]) ⟨hreader,hsent,hstdout,trivial⟩

end Nothing

/-- Against a peer that sends back every byte, everything that has been sent is printed whenever
the client returns at the end of its input exactly if there is nothing to send. With
anything to send the client can return before the first reply comes. -/
theorem returned_complete_iff (Q : EchoPeer T) (sock : ℤ) (recvline : Memory UInt8)
    (segs : List Segment) :
    (∀ s, Reachable (restrict (fun _ a => Action.smooth a = true) (step Q.proc))
        (start sock recvline segs Q.init) s →
      s.client.place = .returned true → s.client.stdout = s.client.sent) ↔
      ∀ line ∈ inputLines maxLine (bytes segs), cString line = [] := by
  constructor
  · intro hcomplete
    have harrive := arrive_run (Q := Q.proc) (s := start sock recvline segs Q.init) segs [] []
    have hended := harrive.tail (a := .hangUp) (restrict_eq_some.mpr ⟨rfl,rfl⟩)
    rw [List.append_nil] at hended
    obtain ⟨c,out,hrun,hplace,hstdout,hsent⟩ := return_run (Q := Q.proc)
      (s := ⟨⟨Client.start sock recvline,Q.init,⟨[],false⟩,⟨[],false⟩⟩,[],segs,true⟩)
      (c := Client.start sock recvline) rfl rfl rfl [] segs
    have hall : c.stdout = c.sent := hcomplete _ (hended.trans hrun) hplace
    rw [hstdout,hsent] at hall
    exact List.flatMap_eq_nil_iff.mp hall.symm
  · intro hblank s hreach hplace
    have hsilent : Silent Q s := hreach.invariant (I := Silent Q) ?_ fun a x y hx hxy => hx.step hxy
    · rw [hsilent.client.2.1,hsilent.client.2.2.1]
    · refine ⟨⟨?_,rfl,rfl,hblank⟩,by simp [start],Or.inr ⟨rfl,rfl,Q.init_held,Q.init_ended⟩⟩
      exact ⟨le_refl 0,by simp [start,State.client,Client.start,Client.head,Readline.start],rfl⟩

/-- The input is one line. The client sends it and returns at the end of the input, before the
peer has read anything. -/
theorem returned_without_reply : ∃ s,
    Reachable (restrict (fun _ a => Action.smooth a = true) (step (echoPeer maxLine).proc))
      (start 3 (fun _ => 0) [⟨[97,10],by simp⟩] (echoPeer maxLine).init) s ∧
      s.client.place = .returned true ∧ s.client.sent = [97,10] ∧ s.client.stdout = [] := by
  obtain ⟨t,hreach,ht⟩ := exists_reachable
    (restrict (fun _ a => Action.smooth a = true) (step (echoPeer maxLine).proc))
    (start 3 (fun _ => 0) [⟨[97,10],by simp⟩] (echoPeer maxLine).init)
    [.arrive,.hangUp,.select,.stdin,.io (.left (.write 1)),.select,.stdin]
    (fun t => t.client.place = .returned true ∧ t.client.sent = [97,10] ∧ t.client.stdout = [])
    (by decide +kernel)
  exact ⟨t,hreach,of_decide_eq_true ht⟩

end SelectClient
end CPrograming
