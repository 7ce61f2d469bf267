import CPrograming.UnlockStrCliInvariant
import CPrograming.Connection

/-!
# The relay and an echo server

`unlock_str_cli` at one end of a connection and an echo server at the other. Each call of
the relay is a step of its own, so that the server runs between any two of them. The
descriptors are non-blocking: a call moves some bytes, or would have blocked.
-/

namespace CPrograming
namespace UnlockStrCli

open Runs Connection

inductive Place
  | select
  | stdin
  | sock
  | stdout
  | sockOut
  deriving DecidableEq

/-- The relay, the rest of its standard input, the connection, and the process at the other
end. -/
structure World (S : Type*) where
  relay : State
  place : Place
  input : List UInt8
  toPeer : Pipe
  toRelay : Pipe
  peer : S

/-- A call of the relay moves at most `k+1` bytes, or would have blocked. -/
inductive Act
  | select (a : SelectAnswer)
  | call (k : Option ℕ)
  | peer (a : Io)
  deriving DecidableEq

variable {S : Type*}

def World.stdin (sockfd : ℤ) (w : World S) (k : Option ℕ) : World S :=
  if stdinFileno ∈ w.relay.rset then
    match k with
    | none => { w with relay := readStdin sockfd (.fail .ewouldblock) w.relay }
    | some k =>
      let n := min (k+1) (maxLine-w.relay.toBuf.iptr)
      { w with
        relay := readStdin sockfd (.data (w.input.take n)) w.relay
        input := w.input.drop n }
  else w

def World.sock (sockfd : ℤ) (w : World S) (k : Option ℕ) : Option (World S) :=
  if sockfd ∈ w.relay.rset then
    match k with
    | none => some { w with relay := readSocket sockfd (.fail .ewouldblock) w.relay }
    | some k =>
      let n := min (k+1) (maxLine-w.relay.frBuf.iptr)
      if w.toRelay.bytes ≠ [] ∨ w.toRelay.closed = true then
        some { w with
          relay := readSocket sockfd (.data (w.toRelay.bytes.take n)) w.relay
          toRelay := ⟨w.toRelay.bytes.drop n,w.toRelay.closed⟩ }
      else none
  else some w

/-- What a write on a non-blocking descriptor returns. -/
def accepts : Option ℕ → WriteAnswer
  | none => .fail .ewouldblock
  | some k => .accepted (k+1)

def World.stdout (w : World S) (k : Option ℕ) : World S :=
  { w with relay := writeStdout (accepts k) w.relay }

def World.sockOut (sockfd : ℤ) (w : World S) (k : Option ℕ) : World S :=
  if sockfd ∈ w.relay.wset then
    { w with
      relay := writeSocket sockfd (accepts k) w.relay
      toPeer := ⟨w.toPeer.bytes ++ w.relay.toBuf.pending.take (k.elim 0 (·+1)),w.toPeer.closed⟩ }
  else w

/-- The half-close ends the direction to the peer. -/
def World.settle (sockfd : ℤ) (w : World S) (place : Place) : World S :=
  { w with
    place := place
    toPeer := ⟨w.toPeer.bytes,decide (.shutdownWr sockfd ∈ w.relay.log)⟩ }

def World.call (sockfd : ℤ) (w : World S) (k : Option ℕ) : Option (World S) :=
  match w.place with
  | .select => none
  | .stdin => some ((w.stdin sockfd k).settle sockfd .sock)
  | .sock => (w.sock sockfd k).map fun w => w.settle sockfd .stdout
  | .stdout => some ((w.stdout k).settle sockfd .sockOut)
  | .sockOut => some ((w.sockOut sockfd k).settle sockfd .select)

def World.select (sockfd : ℤ) (w : World S) (a : SelectAnswer) : World S :=
  { w with relay := UnlockStrCli.select sockfd a (interest sockfd w.relay) }

def World.endpoint (w : World S) : Endpoint S := ⟨w.peer,w.toPeer,w.toRelay⟩

def World.step (sockfd : ℤ) (Q : Process S) (w : World S) : Act → Option (World S)
  | .select a =>
    if w.relay.status = .running ∧ w.place = .select then
      some ((w.select sockfd a).settle sockfd .stdin)
    else none
  | .call k => if w.relay.status = .running then w.call sockfd k else none
  | .peer a =>
    (Q.io w.endpoint a).map fun e => { w with peer := e.proc, toPeer := e.inp, toRelay := e.out }

/-- The server may be interrupted, and nothing else fails. -/
def Act.smooth : Act → Bool
  | .peer a => a.smooth
  | _ => true

def World.start (input : List UInt8) (toMem frMem : Memory UInt8) (peer : S) : World S :=
  ⟨init toMem frMem,.select,input,⟨[],false⟩,⟨[],false⟩,peer⟩

section Calls

variable (sock : Socket) {s : State}

theorem shut_iff (h : Inv sock.fd s) : decide (.shutdownWr sock.fd ∈ s.log) = true ↔
    s.stdineof = true ∧ s.toBuf.optr = s.toBuf.iptr := by
  have hcount := h.toInv.shut
  rw [decide_eq_true_iff,← List.count_pos_iff,hcount]
  split_ifs with hend <;> simp [hend]

theorem readStdin_blocked (hm : stdinFileno ∈ s.rset) :
    readStdin sock.fd (.fail .ewouldblock) s =
      s.record (.read stdinFileno s.toBuf.iptr (maxLine-s.toBuf.iptr) (.fail .ewouldblock)) := by
  simp [readStdin,hm,ReadAnswer.upTo]

theorem readSocket_blocked (hm : sock.fd ∈ s.rset) :
    readSocket sock.fd (.fail .ewouldblock) s =
      s.record (.read sock.fd s.frBuf.iptr (maxLine-s.frBuf.iptr) (.fail .ewouldblock)) := by
  simp [readSocket,hm,ReadAnswer.upTo]

theorem readStdin_data (got : List UInt8) (hm : stdinFileno ∈ s.rset)
    (hlen : got.length ≤ maxLine-s.toBuf.iptr) :
    bytesRead stdinFileno (readStdin sock.fd (.data got) s).log =
      bytesRead stdinFileno s.log ++ got ∧
    bytesRead sock.fd (readStdin sock.fd (.data got) s).log = bytesRead sock.fd s.log ∧
    bytesWritten sock.fd (readStdin sock.fd (.data got) s).log = bytesWritten sock.fd s.log ∧
    bytesWritten stdoutFileno (readStdin sock.fd (.data got) s).log =
      bytesWritten stdoutFileno s.log ∧
    (readStdin sock.fd (.data got) s).status = s.status ∧
    (readStdin sock.fd (.data got) s).stdineof = (s.stdineof || got.isEmpty) := by
  have hne := sock.ne_stdin.symm
  cases got with
  | nil =>
    simp only [readStdin,if_pos hm,ReadAnswer.upTo,List.take_nil,State.record]
    split_ifs <;> simp [bytesRead,bytesWritten,Call.input,Call.output]
  | cons b bs =>
    simp [readStdin,hm,ReadAnswer.upTo,List.take_of_length_le hlen,State.record,bytesRead,
      bytesWritten,Call.input,Call.output,hne]

theorem readSocket_data (got : List UInt8) (hm : sock.fd ∈ s.rset)
    (hlen : got.length ≤ maxLine-s.frBuf.iptr) :
    bytesRead stdinFileno (readSocket sock.fd (.data got) s).log = bytesRead stdinFileno s.log ∧
    bytesRead sock.fd (readSocket sock.fd (.data got) s).log = bytesRead sock.fd s.log ++ got ∧
    bytesWritten sock.fd (readSocket sock.fd (.data got) s).log = bytesWritten sock.fd s.log ∧
    bytesWritten stdoutFileno (readSocket sock.fd (.data got) s).log =
      bytesWritten stdoutFileno s.log ∧
    (readSocket sock.fd (.data got) s).status =
      (if got = [] then if s.stdineof = true then .returned else .exited else s.status) ∧
    (readSocket sock.fd (.data got) s).stdineof = s.stdineof ∧
    (readSocket sock.fd (.data got) s).toBuf = s.toBuf := by
  have hne := sock.ne_stdin
  cases got with
  | nil =>
    simp only [readSocket,if_pos hm,ReadAnswer.upTo,List.take_nil,State.record]
    split_ifs <;> simp_all [bytesRead,bytesWritten,Call.input,Call.output,State.exit]
  | cons b bs =>
    simp [readSocket,hm,ReadAnswer.upTo,List.take_of_length_le hlen,State.record,bytesRead,
      bytesWritten,Call.input,Call.output,hne]

theorem writeStdout_writes (k : Option ℕ) (hm : stdoutFileno ∈ s.wset) :
    bytesWritten stdoutFileno (writeStdout (accepts k) s).log =
      bytesWritten stdoutFileno s.log ++ s.frBuf.pending.take (k.elim 0 (·+1)) := by
  have hlen := LinearBuffer.pending_length s.frBuf
  simp only [writeStdout]
  split_ifs with hpos
  · cases k with
    | none => simp [accepts,WriteAnswer.upTo,State.record,bytesWritten,Call.output]
    | some k =>
      simp [accepts,WriteAnswer.upTo,State.record,bytesWritten,Call.output,LinearBuffer.pending]
  · have hzero := not_and.mp hpos hm
    have hnil : s.frBuf.pending = [] := List.length_eq_zero_iff.mp (by omega)
    simp [hnil]

theorem writeStdout_accepts (k : Option ℕ) :
    bytesRead stdinFileno (writeStdout (accepts k) s).log = bytesRead stdinFileno s.log ∧
    bytesRead sock.fd (writeStdout (accepts k) s).log = bytesRead sock.fd s.log ∧
    bytesWritten sock.fd (writeStdout (accepts k) s).log = bytesWritten sock.fd s.log ∧
    (writeStdout (accepts k) s).status = s.status ∧
    (writeStdout (accepts k) s).stdineof = s.stdineof ∧
    (writeStdout (accepts k) s).toBuf = s.toBuf := by
  have hne := sock.ne_stdout.symm
  simp only [writeStdout]
  split_ifs with hm
  · cases k with
    | none =>
      simp [accepts,WriteAnswer.upTo,State.record,bytesRead,bytesWritten,Call.input,Call.output]
    | some k =>
      simp [accepts,WriteAnswer.upTo,State.record,bytesRead,bytesWritten,Call.input,Call.output,hne]
  · simp

theorem writeSocket_accepts (k : Option ℕ) (hm : sock.fd ∈ s.wset) :
    bytesRead stdinFileno (writeSocket sock.fd (accepts k) s).log = bytesRead stdinFileno s.log ∧
    bytesRead sock.fd (writeSocket sock.fd (accepts k) s).log = bytesRead sock.fd s.log ∧
    bytesWritten sock.fd (writeSocket sock.fd (accepts k) s).log =
      bytesWritten sock.fd s.log ++ s.toBuf.pending.take (k.elim 0 (·+1)) ∧
    bytesWritten stdoutFileno (writeSocket sock.fd (accepts k) s).log =
      bytesWritten stdoutFileno s.log ∧
    (writeSocket sock.fd (accepts k) s).status = s.status ∧
    (writeSocket sock.fd (accepts k) s).stdineof = s.stdineof := by
  have hlen := LinearBuffer.pending_length s.toBuf
  have hne := sock.ne_stdout
  simp only [writeSocket]
  split_ifs with hpos
  · cases k with
    | none =>
      simp [accepts,WriteAnswer.upTo,State.record,bytesRead,bytesWritten,Call.input,Call.output]
    | some k =>
      simp only [accepts,WriteAnswer.upTo,State.record]
      split_ifs <;>
        simp [bytesRead,bytesWritten,Call.input,Call.output,LinearBuffer.pending,hne]
  · have hzero := not_and.mp hpos hm
    have hnil : s.toBuf.pending = [] := List.length_eq_zero_iff.mp (by omega)
    simp [hnil]

end Calls

structure Faithful (Q : EchoPeer S) : Prop where
  asks : ∀ s len, Q.proc.pending s = .read len → 0 < len
  flushes : ∀ s, Q.proc.pending s = .exited → Q.held s = []

/-- What holds between any two calls. -/
structure Sound (Q : EchoPeer S) (sockfd : ℤ) (input : List UInt8) (w : World S) : Prop where
  inv : Inv sockfd w.relay
  room : w.place = .stdin → Room sockfd w.relay
  roomSock : w.place = .sock → sockfd ∈ w.relay.rset → w.relay.frBuf.iptr < maxLine
  alive : w.relay.status ≠ .exited
  taken : bytesRead stdinFileno w.relay.log ++ w.input = input
  there : bytesRead sockfd w.relay.log ++ (w.toRelay.bytes ++ (Q.held w.peer ++ w.toPeer.bytes)) =
    bytesWritten sockfd w.relay.log
  shut : w.toPeer.closed = true ↔ w.relay.stdineof = true ∧ w.relay.toBuf.optr = w.relay.toBuf.iptr
  eof : w.relay.stdineof = true → w.input = []
  ended : Q.ended w.peer = true → w.toPeer = ⟨[],true⟩
  exits : w.toRelay.closed = true → Q.proc.pending w.peer = .exited
  returned : w.relay.status = .returned → w.toRelay = ⟨[],true⟩

section Steps

variable {Q : EchoPeer S} {sock : Socket} {input : List UInt8} {w t : World S}

theorem start_sound (Q : EchoPeer S) (sock : Socket) (input : List UInt8)
    (toMem frMem : Memory UInt8) :
    Sound Q sock.fd input (World.start input toMem frMem Q.init) where
  inv := init_inv sock.fd toMem frMem
  room h := by cases h
  roomSock h := by cases h
  alive := by simp [World.start,init]
  taken := rfl
  there := by simp [World.start,Q.init_held,init,bytesRead,bytesWritten]
  shut := by simp [World.start,init]
  eof h := by simp [World.start,init] at h
  ended h := by simp [World.start,Q.init_ended] at h
  exits h := by simp [World.start] at h
  returned h := by simp [World.start,init] at h

/-- What a call of the relay has to keep. -/
theorem Sound.settle {place : Place} (h : Sound Q sock.fd input w) (hinv : Inv sock.fd t.relay)
    (hpeer : t.peer = w.peer) (hclosed : t.toRelay.closed = w.toRelay.closed)
    (hroom : place = .stdin → Room sock.fd t.relay)
    (hroomSock : place = .sock → sock.fd ∈ t.relay.rset → t.relay.frBuf.iptr < maxLine)
    (halive : t.relay.status ≠ .exited)
    (htaken : bytesRead stdinFileno t.relay.log ++ t.input = input)
    (hthere : bytesRead sock.fd t.relay.log ++
        (t.toRelay.bytes ++ (Q.held t.peer ++ t.toPeer.bytes)) =
      bytesWritten sock.fd t.relay.log)
    (heof : t.relay.stdineof = true → t.input = [])
    (hend : w.relay.stdineof = true → w.relay.toBuf.optr = w.relay.toBuf.iptr →
      t.relay.stdineof = true ∧ t.relay.toBuf = w.relay.toBuf ∧ t.toPeer.bytes = w.toPeer.bytes)
    (hreturned : t.relay.status = .returned → t.toRelay = ⟨[],true⟩) :
    Sound Q sock.fd input (t.settle sock.fd place) where
  inv := hinv
  room := hroom
  roomSock := hroomSock
  alive := halive
  taken := htaken
  there := hthere
  shut := shut_iff sock hinv
  eof := heof
  ended hended := by
    have hpipe := h.ended (hpeer ▸ hended)
    obtain ⟨hstdin,hempty⟩ := h.shut.mp (by rw [hpipe])
    obtain ⟨hstill,hbuf,hbytes⟩ := hend hstdin hempty
    refine Pipe.ext ?_ ((shut_iff sock hinv).mpr ⟨hstill,by rw [hbuf]; exact hempty⟩)
    simp only [World.settle,hbytes,hpipe]
  exits hout := by
    have hpending := h.exits (hclosed ▸ hout)
    rwa [← hpeer] at hpending
  returned := hreturned

theorem not_returned {r : State} (hrun : r.status = .running) {p : Prop} :
    r.status = .returned → p := by
  intro hret
  rw [hrun] at hret
  cases hret

theorem Sound.select (h : Sound Q sock.fd input w) (a : SelectAnswer)
    (hrun : w.relay.status = .running) :
    Sound Q sock.fd input ((w.select sock.fd a).settle sock.fd .stdin) := by
  have hinv := select_inv sock a (interest_inv sock h.inv) (interest_watched sock h.inv _)
  have hlog : (w.select sock.fd a).relay.log = w.relay.log ++
      [.select (maxfd sock.fd) (interest sock.fd w.relay).rset (interest sock.fd w.relay).wset] ++
      [.print "nready = %d\n"
        [a.nready (interest sock.fd w.relay).rset (interest sock.fd w.relay).wset]] := rfl
  refine h.settle hinv rfl rfl (fun _ => select_room sock a (interest_room sock w.relay))
    (fun hplace => by cases hplace) h.alive ?_ ?_ h.eof (fun hstdin _ => ⟨hstdin,rfl,rfl⟩) ?_
  · simp only [hlog,bytesRead_snoc,Call.input,List.append_nil]
    exact h.taken
  · simp only [hlog,bytesRead_snoc,bytesWritten_snoc,Call.input,Call.output,List.append_nil]
    exact h.there
  · exact not_returned hrun

theorem Sound.stdin (h : Sound Q sock.fd input w) (hplace : w.place = .stdin)
    (hrun : w.relay.status = .running) (k : Option ℕ) :
    Sound Q sock.fd input ((w.stdin sock.fd k).settle sock.fd .sock) := by
  have hroom := h.room hplace
  have hroomSock (a : ReadAnswer) : sock.fd ∈ (readStdin sock.fd a w.relay).rset →
      (readStdin sock.fd a w.relay).frBuf.iptr < maxLine := by
    obtain ⟨hfr,hset⟩ := readStdin_frame sock a w.relay
    rw [hfr,hset]
    exact hroom.sock
  simp only [World.stdin]
  split_ifs with hm
  · obtain ⟨hopen,hlt⟩ := hroom.stdin hm
    have hend : ∀ {p : Prop}, w.relay.stdineof = true → p := by simp [hopen]
    cases k with
    | none =>
      have hinv := readStdin_inv sock (.fail .ewouldblock) h.inv hroom
      have hblocked := readStdin_blocked sock hm
      refine h.settle hinv rfl rfl (fun hplace => by cases hplace) (fun _ => hroomSock _) ?_ ?_ ?_
        ?_ (fun hstdin => hend hstdin) ?_
      · simp only [hblocked]
        exact h.alive
      · simp only [hblocked,State.record,bytesRead_snoc,Call.input,List.append_nil]
        exact h.taken
      · simp only [hblocked,State.record,bytesRead_snoc,bytesWritten_snoc,Call.input,Call.output,
          List.append_nil]
        exact h.there
      · simp only [hblocked]
        exact h.eof
      · simp only [hblocked]
        exact not_returned hrun
    | some k =>
      have hinv := readStdin_inv sock
        (.data (w.input.take (min (k+1) (maxLine-w.relay.toBuf.iptr)))) h.inv hroom
      obtain ⟨hread,hsock,hwritten,-,hstatus,heof⟩ := readStdin_data sock
        (w.input.take (min (k+1) (maxLine-w.relay.toBuf.iptr))) hm
        (by rw [List.length_take]; omega)
      refine h.settle hinv rfl rfl (fun hplace => by cases hplace) (fun _ => hroomSock _) ?_ ?_ ?_
        ?_ (fun hstdin => hend hstdin) ?_
      · rw [hstatus]
        exact h.alive
      · rw [hread,List.append_assoc,List.take_append_drop]
        exact h.taken
      · rw [hsock,hwritten]
        exact h.there
      · intro hstdin
        rw [heof,hopen,Bool.false_or,List.isEmpty_iff,List.take_eq_nil_iff] at hstdin
        rcases hstdin with hzero | hnil
        · omega
        · simp [hnil]
      · rw [hstatus]
        exact not_returned hrun
  · exact h.settle h.inv rfl rfl (fun hplace => by cases hplace) (fun _ => hroom.sock) h.alive
      h.taken h.there h.eof (fun hstdin _ => ⟨hstdin,rfl,rfl⟩) h.returned

theorem Sound.socket (h : Sound Q sock.fd input w) (hplace : w.place = .sock)
    (hrun : w.relay.status = .running) {k : Option ℕ} (hstep : w.sock sock.fd k = some t) :
    Sound Q sock.fd input (t.settle sock.fd .stdout) := by
  by_cases hm : sock.fd ∈ w.relay.rset
  · have hroom := h.roomSock hplace hm
    simp only [World.sock,if_pos hm] at hstep
    cases k with
    | none =>
      obtain rfl := Option.some.inj hstep
      have hinv := readSocket_inv sock (.fail .ewouldblock) h.inv (h.roomSock hplace)
      have hblocked := readSocket_blocked sock hm
      refine h.settle hinv rfl rfl (fun hplace => by cases hplace) (fun hplace => by cases hplace)
        ?_ ?_ ?_ ?_ ?_ ?_
      · simp only [hblocked]
        exact h.alive
      · simp only [hblocked,State.record,bytesRead_snoc,Call.input,List.append_nil]
        exact h.taken
      · simp only [hblocked,State.record,bytesRead_snoc,bytesWritten_snoc,Call.input,Call.output,
          List.append_nil]
        exact h.there
      · simp only [hblocked]
        exact h.eof
      · intro hstdin _
        simp [hblocked,State.record,hstdin]
      · simp only [hblocked]
        exact not_returned hrun
    | some k =>
      dsimp only at hstep
      split_ifs at hstep with havail
      obtain rfl := Option.some.inj hstep
      have hinv := readSocket_inv sock
        (.data (w.toRelay.bytes.take (min (k+1) (maxLine-w.relay.frBuf.iptr)))) h.inv
        (h.roomSock hplace)
      obtain ⟨hread,hsock,hwritten,-,hstatus,heof,hbuf⟩ := readSocket_data sock
        (w.toRelay.bytes.take (min (k+1) (maxLine-w.relay.frBuf.iptr))) hm
        (by rw [List.length_take]; omega)
      have hnil : w.toRelay.bytes.take (min (k+1) (maxLine-w.relay.frBuf.iptr)) = [] →
          w.toRelay = ⟨[],true⟩ := by
        intro htake
        rcases List.take_eq_nil_iff.mp htake with hzero | hbytes
        · omega
        · exact Pipe.ext hbytes (havail.resolve_left (not_not.mpr hbytes))
      have hstdin : w.toRelay = ⟨[],true⟩ → w.relay.stdineof = true := by
        intro hpipe
        have hpeer := h.ended (Q.exits w.peer (h.exits (by rw [hpipe])))
        exact (h.shut.mp (by rw [hpeer])).1
      refine h.settle hinv rfl rfl (fun hplace => by cases hplace) (fun hplace => by cases hplace)
        ?_ ?_ ?_ ?_ ?_ ?_
      · rw [hstatus]
        split_ifs with hgot hended
        · simp
        · exact absurd (hstdin (hnil hgot)) hended
        · exact h.alive
      · rw [hread]
        exact h.taken
      · rw [hsock,hwritten,List.append_assoc,← List.append_assoc (List.take _ _),
          List.take_append_drop]
        exact h.there
      · rw [heof]
        exact h.eof
      · rw [heof,hbuf]
        exact fun hstdin _ => ⟨hstdin,rfl,rfl⟩
      · rw [hstatus]
        split_ifs with hgot hended
        · intro _
          simp [hnil hgot]
        · simp
        · exact not_returned hrun
  · simp only [World.sock,if_neg hm] at hstep
    obtain rfl := Option.some.inj hstep
    exact h.settle h.inv rfl rfl (fun hplace => by cases hplace) (fun hplace => by cases hplace)
      h.alive h.taken h.there h.eof (fun hstdin _ => ⟨hstdin,rfl,rfl⟩) h.returned

theorem Sound.stdout (h : Sound Q sock.fd input w) (hrun : w.relay.status = .running)
    (k : Option ℕ) : Sound Q sock.fd input ((w.stdout k).settle sock.fd .sockOut) := by
  obtain ⟨hread,hsock,hwritten,hstatus,heof,hbuf⟩ := writeStdout_accepts sock (s := w.relay) k
  refine h.settle (writeStdout_inv sock (accepts k) h.inv) rfl rfl (fun hplace => by cases hplace)
    (fun hplace => by cases hplace) ?_ ?_ ?_ ?_ ?_ ?_
  · simp only [World.stdout,hstatus]
    exact h.alive
  · simp only [World.stdout,hread]
    exact h.taken
  · simp only [World.stdout,hsock,hwritten]
    exact h.there
  · simp only [World.stdout,heof]
    exact h.eof
  · intro hstdin _
    simp [World.stdout,heof,hbuf,hstdin]
  · simp only [World.stdout,hstatus]
    exact not_returned hrun

theorem Sound.sockOut (h : Sound Q sock.fd input w) (hrun : w.relay.status = .running)
    (k : Option ℕ) : Sound Q sock.fd input ((w.sockOut sock.fd k).settle sock.fd .select) := by
  simp only [World.sockOut]
  split_ifs with hm
  · obtain ⟨hread,hsock,hwritten,-,hstatus,heof⟩ := writeSocket_accepts sock (s := w.relay) k hm
    refine h.settle (writeSocket_inv sock (accepts k) h.inv) rfl rfl (fun hplace => by cases hplace)
      (fun hplace => by cases hplace) ?_ ?_ ?_ ?_ ?_ ?_
    · rw [hstatus]
      exact h.alive
    · rw [hread]
      exact h.taken
    · rw [hsock,hwritten,← h.there]
      simp only [List.append_assoc]
    · rw [heof]
      exact h.eof
    · intro hstdin hempty
      have hnil := (LinearBuffer.pending_eq_nil h.inv.toInv.wellFormed).mpr hempty
      have hidle : writeSocket sock.fd (accepts k) w.relay = w.relay := by
        simp [writeSocket,hempty]
      simp [hidle,hnil,hstdin]
    · rw [hstatus]
      exact not_returned hrun
  · exact h.settle h.inv rfl rfl (fun hplace => by cases hplace) (fun hplace => by cases hplace)
      h.alive h.taken h.there h.eof (fun hstdin _ => ⟨hstdin,rfl,rfl⟩) h.returned

/-- The peer moves bytes from one direction to the other through its hands. -/
theorem peer_moves (hQ : Faithful Q) {e t : Endpoint S} {a : Io}
    (hended : Q.ended e.proc = true → e.inp = ⟨[],true⟩)
    (hstep : restrict (fun _ a => Io.smooth a = true) Q.proc.io e a = some t) :
    t.out.bytes ++ (Q.held t.proc ++ t.inp.bytes) = e.out.bytes ++ (Q.held e.proc ++ e.inp.bytes) ∧
      (Q.ended t.proc = true → t.inp = ⟨[],true⟩) := by
  obtain ⟨hsmooth,hio⟩ := restrict_eq_some.mp hstep
  cases io_moved hio with
  | @data len k got rest hp hin hne hlen havail =>
    have hgot := hne (hQ.asks e.proc len hp)
    refine ⟨by rw [Q.held_data,hin]; simp only [List.append_assoc],?_⟩
    rw [Q.ended_data _ _ hgot]
    intro hend
    rw [hended hend] at havail
    exact absurd rfl havail
  | eof hp hin hclosed =>
    refine ⟨by rw [Q.held_data,hin]; simp only [List.append_nil],fun _ => Pipe.ext hin hclosed⟩
  | readFail hp =>
    obtain rfl : _ = Errno.eintr := of_decide_eq_true hsmooth
    exact ⟨by rw [Q.held_interrupted],by rw [Q.ended_interrupted]; exact hended⟩
  | @sent k sent rest hp hne hopen =>
    obtain ⟨more,hheld⟩ := Q.offers e.proc _ hp
    refine ⟨?_,by rw [Q.ended_write]; exact hended⟩
    rw [Q.held_accepted,← hheld]
    simp only [List.append_assoc,List.drop_left]
  | writeFail hp => exact ⟨by rw [Q.held_refused],by rw [Q.ended_write]; exact hended⟩
  | compute hp => exact ⟨by rw [Q.held_compute],by rw [Q.ended_compute]; exact hended⟩
  | close hp => exact ⟨rfl,hended⟩

theorem Sound.peer (hQ : Faithful Q) (h : Sound Q sock.fd input w) {a : Io} {e : Endpoint S}
    (hstep : restrict (fun _ a => Io.smooth a = true) Q.proc.io w.endpoint a = some e) :
    Sound Q sock.fd input { w with peer := e.proc, toPeer := e.inp, toRelay := e.out } := by
  obtain ⟨hbytes,hended⟩ := peer_moves hQ h.ended hstep
  obtain ⟨hclosed,hexits⟩ := closed_step h.exits hstep
  have hsame : e.inp.closed = w.toPeer.closed := hclosed
  refine ⟨h.inv,h.room,h.roomSock,h.alive,h.taken,?_,?_,h.eof,hended,hexits,?_⟩
  · rw [← h.there]
    exact congrArg _ hbytes
  · rw [hsame]
    exact h.shut
  · intro hret
    have hpipe := h.returned hret
    have hpending := h.exits (by rw [hpipe])
    cases io_moved (restrict_eq_some.mp hstep).2 with
    | close hp => exact Pipe.ext (by simp [World.endpoint,hpipe]) rfl
    | data hp | eof hp | readFail hp | sent hp | writeFail hp | compute hp =>
      rw [World.endpoint,hpending] at hp
      cases hp

theorem Sound.step (hQ : Faithful Q) (h : Sound Q sock.fd input w) {a : Act}
    (hstep : restrict (fun _ a => Act.smooth a = true) (World.step sock.fd Q.proc) w a = some t) :
    Sound Q sock.fd input t := by
  obtain ⟨hsmooth,hstep⟩ := restrict_eq_some.mp hstep
  cases a with
  | select a =>
    simp only [World.step] at hstep
    split_ifs at hstep with hrun
    obtain rfl := Option.some.inj hstep
    exact h.select a hrun.1
  | call k =>
    simp only [World.step,World.call] at hstep
    split_ifs at hstep with hrun
    cases hplace : w.place with
    | select => simp [hplace] at hstep
    | stdin =>
      rw [hplace] at hstep
      obtain rfl := Option.some.inj hstep
      exact h.stdin hplace hrun k
    | sock =>
      rw [hplace] at hstep
      obtain ⟨u,hu,rfl⟩ := Option.map_eq_some_iff.mp hstep
      exact h.socket hplace hrun hu
    | stdout =>
      rw [hplace] at hstep
      obtain rfl := Option.some.inj hstep
      exact h.stdout hrun k
    | sockOut =>
      rw [hplace] at hstep
      obtain rfl := Option.some.inj hstep
      exact h.sockOut hrun k
  | peer a =>
    obtain ⟨e,he,rfl⟩ := Option.map_eq_some_iff.mp hstep
    exact h.peer hQ (restrict_eq_some.mpr ⟨hsmooth,he⟩)

theorem reachable_sound (hQ : Faithful Q) {toMem frMem : Memory UInt8}
    (h : Reachable (restrict (fun _ a => Act.smooth a = true) (World.step sock.fd Q.proc))
      (World.start input toMem frMem Q.init) w) : Sound Q sock.fd input w :=
  h.invariant (I := Sound Q sock.fd input) (start_sound Q sock input toMem frMem)
    fun _ _ _ hx hxy => hx.step hQ hxy

/-- All places a byte of the input can be in. -/
theorem Sound.whole (h : Sound Q sock.fd input w) :
    bytesWritten stdoutFileno w.relay.log ++ (w.relay.frBuf.pending ++ (w.toRelay.bytes ++
      (Q.held w.peer ++ (w.toPeer.bytes ++ (w.relay.toBuf.pending ++ w.input))))) = input := by
  have hto := h.inv.toInv.bytes
  have hfr := h.inv.frInv.bytes
  rw [← h.taken,hto,← h.there,hfr]
  simp only [List.append_assoc]

theorem Sound.complete (hQ : Faithful Q) (h : Sound Q sock.fd input w)
    (hret : w.relay.status = .returned) :
    bytesWritten stdoutFileno w.relay.log ++ w.relay.frBuf.pending = input := by
  have hpipe := h.returned hret
  have hexited := h.exits (by rw [hpipe])
  have hpeer := h.ended (Q.exits w.peer hexited)
  obtain ⟨hstdin,hempty⟩ := h.shut.mp (by rw [hpeer])
  have hnil := (LinearBuffer.pending_eq_nil h.inv.toInv.wellFormed).mpr hempty
  have hwhole := h.whole
  rw [hpipe,hQ.flushes w.peer hexited,hpeer,hnil,h.eof hstdin] at hwhole
  simpa using hwhole

end Steps

theorem echoPeer_faithful {size : ℕ} (hsize : 0 < size) : Faithful (echoPeer size) where
  asks s len h := by
    simp only [echoPeer,echo] at h
    split_ifs at h
    rwa [← Pending.read.inj h]
  flushes s h := by
    simp only [echoPeer,echo] at h
    split_ifs at h with hheld
    exact not_not.mp hheld

/-- Between any two calls of the relay and of an echo server, the bytes of the input are, in
order: written to standard output, in the buffer `fr`, on the way back, in the hands of the
server, on the way there, in the buffer `to`, and not read yet. The relay never gives up, and
when it returns everything has come back. -/
theorem echo_conserved (Q : EchoPeer S) (hQ : Faithful Q) (sock : Socket) (input : List UInt8)
    (toMem frMem : Memory UInt8) (w : World S)
    (h : Reachable (restrict (fun _ a => Act.smooth a = true) (World.step sock.fd Q.proc))
      (World.start input toMem frMem Q.init) w) :
    bytesWritten stdoutFileno w.relay.log ++ (w.relay.frBuf.pending ++ (w.toRelay.bytes ++
      (Q.held w.peer ++ (w.toPeer.bytes ++ (w.relay.toBuf.pending ++ w.input))))) = input ∧
    w.relay.status ≠ .exited ∧
    (w.relay.status = .returned →
      bytesWritten stdoutFileno w.relay.log ++ w.relay.frBuf.pending = input) := by
  have hsound := reachable_sound hQ h
  exact ⟨hsound.whole,hsound.alive,hsound.complete hQ⟩

/-- Two bytes through a server that holds up to four, to the return of the relay. -/
theorem echo_conserved_sample : ∃ w, Reachable
      (restrict (fun _ a => Act.smooth a = true) (World.step sampleSocket.fd (echoPeer 4).proc))
      (World.start [1,2] sampleMem sampleMem (echoPeer 4).init) w ∧
    w.relay.status = .returned ∧
    bytesWritten stdoutFileno w.relay.log ++ w.relay.frBuf.pending = [1,2] := by
  obtain ⟨w,hw,hp⟩ := exists_reachable
    (restrict (fun _ a => Act.smooth a = true) (World.step sampleSocket.fd (echoPeer 4).proc))
    (World.start [1,2] sampleMem sampleMem (echoPeer 4).init)
    [.select (.ready {0,3} {1,3}),.call (some 1),.call none,.call none,.call (some 1),
      .peer (.read 1),.peer (.write 1),
      .select (.ready {0,3} {1,3}),.call (some 0),.call (some 5),.call (some 5),.call none,
      .peer (.read 0),.peer .close,
      .select (.ready {3} {1,3}),.call none,.call (some 0)]
    (fun w => decide (w.relay.status = .returned)) (by decide +kernel)
  have hret : w.relay.status = .returned := of_decide_eq_true hp
  exact ⟨w,hw,hret,
    (echo_conserved _ (echoPeer_faithful (by decide)) sampleSocket _ _ _ w hw).2.2 hret⟩

end UnlockStrCli
end CPrograming
