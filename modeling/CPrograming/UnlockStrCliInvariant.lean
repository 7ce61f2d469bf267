import CPrograming.UnlockStrCli

/-!
# Invariants of the non-blocking relay

Each direction of the relay has its own invariant over its buffer and the log;
a third one relates every call to the calls before it. Each block of the loop
body keeps them, hence so does every run.
-/

namespace CPrograming
namespace UnlockStrCli

open Runs

/-- Standard input to the socket: what was read is what was sent and what is
buffered, and the half-close has happened exactly when input has ended and the
buffer is empty. -/
structure ToInv (sockfd : ℤ) (b : LinearBuffer UInt8) (stdineof : Bool) (log : List Call) :
    Prop where
  wellFormed : b.WellFormed maxLine
  bytes : bytesRead stdinFileno log = bytesWritten sockfd log ++ b.pending
  shut : log.count (.shutdownWr sockfd) = if stdineof = true ∧ b.optr = b.iptr then 1 else 0
  eof : stdineof = true → eofSeen stdinFileno log

structure FrInv (sockfd : ℤ) (b : LinearBuffer UInt8) (log : List Call) : Prop where
  wellFormed : b.WellFormed maxLine
  bytes : bytesRead sockfd log = bytesWritten stdoutFileno log ++ b.pending

/-- What each call may rely on from the calls before it. -/
def CallOk (sockfd : ℤ) (pre : List Call) : Call → Prop
  | .select _ rset wset =>
    (sockfd ∈ rset ∨ stdoutFileno ∈ wset) ∧
    (stdinFileno ∈ rset ∨ sockfd ∈ wset ∨
      eofSeen stdinFileno pre ∧ bytesRead stdinFileno pre = bytesWritten sockfd pre)
  | .read fd ptr len _ =>
    (0 < len ∧ ptr+len ≤ maxLine) ∧ (fd = stdinFileno → .shutdownWr sockfd ∉ pre)
  | .write fd _ _ => fd = sockfd → .shutdownWr sockfd ∉ pre
  | .shutdownWr _ => bytesRead stdinFileno pre = bytesWritten sockfd pre
  | .print _ _ => True

structure Inv (sockfd : ℤ) (s : State) : Prop where
  toInv : ToInv sockfd s.toBuf s.stdineof s.log
  frInv : FrInv sockfd s.frBuf s.log
  calls : Always (CallOk sockfd) s.log

theorem eofSeen_append {fd : ℤ} {log : List Call} (h : eofSeen fd log) (l : List Call) :
    eofSeen fd (log ++ l) := by
  obtain ⟨ptr,len,hm⟩ := h
  exact ⟨ptr,len,List.mem_append_left l hm⟩

theorem eofSeen_read (fd : ℤ) (log : List Call) (ptr len : ℕ) :
    eofSeen fd (log ++ [.read fd ptr len (.data [])]) :=
  ⟨ptr,len,List.mem_append_right log (List.mem_singleton_self _)⟩

theorem ToInv.frame {sockfd : ℤ} {b : LinearBuffer UInt8} {e : Bool} {log : List Call} {c : Call}
    (h : ToInv sockfd b e log) (hin : c.input stdinFileno = []) (hout : c.output sockfd = [])
    (hc : c ≠ .shutdownWr sockfd) : ToInv sockfd b e (log ++ [c]) where
  wellFormed := h.wellFormed
  bytes := by simpa [hin,hout] using h.bytes
  shut := by simpa [List.count_singleton,hc] using h.shut
  eof he := eofSeen_append (h.eof he) [c]

theorem FrInv.frame {sockfd : ℤ} {b : LinearBuffer UInt8} {log : List Call} {c : Call}
    (h : FrInv sockfd b log) (hin : c.input sockfd = []) (hout : c.output stdoutFileno = []) :
    FrInv sockfd b (log ++ [c]) where
  wellFormed := h.wellFormed
  bytes := by simpa [hin,hout] using h.bytes

/-- A call without data and without a half-close concerns no direction. -/
theorem Inv.frame {sockfd : ℤ} {s : State} {c : Call} (h : Inv sockfd s)
    (hc : CallOk sockfd s.log c) (hi : c.input stdinFileno = []) (ho : c.output sockfd = [])
    (hi' : c.input sockfd = []) (ho' : c.output stdoutFileno = [])
    (hne : c ≠ .shutdownWr sockfd) : Inv sockfd (s.record c) where
  toInv := h.toInv.frame hi ho hne
  frInv := h.frInv.frame hi' ho'
  calls := (always_snoc _ _ _).mpr ⟨h.calls,hc⟩

theorem Inv.print {sockfd : ℤ} {s : State} (h : Inv sockfd s) (text : String) (args : List ℤ) :
    Inv sockfd (s.record (.print text args)) :=
  h.frame trivial rfl rfl rfl rfl (by simp)

theorem Inv.exit {sockfd : ℤ} {s : State} (h : Inv sockfd s) : Inv sockfd s.exit :=
  ⟨h.toInv,h.frInv,h.calls⟩

/-- An error ends the process, unless the call would only have blocked. -/
theorem Inv.error {sockfd : ℤ} {s : State} (h : Inv sockfd s) (e : Errno) (text : String) :
    Inv sockfd (if e ≠ .ewouldblock then (s.record (.print text [])).exit else s) := by
  split_ifs
  · exact (h.print _ _).exit
  · exact h

theorem ToInv.not_shut {sockfd : ℤ} {b : LinearBuffer UInt8} {e : Bool} {log : List Call}
    (h : ToInv sockfd b e log) (hopen : ¬ (e = true ∧ b.optr = b.iptr)) :
    Call.shutdownWr sockfd ∉ log := by
  have hs := h.shut
  rw [if_neg hopen] at hs
  exact List.count_eq_zero.mp hs

theorem ToInv.sent_all {sockfd : ℤ} {b : LinearBuffer UInt8} {e : Bool} {log : List Call}
    (h : ToInv sockfd b e log) (hempty : b.optr = b.iptr) :
    bytesRead stdinFileno log = bytesWritten sockfd log := by
  have hp := (LinearBuffer.pending_eq_nil h.wellFormed).mpr hempty
  simpa [hp] using h.bytes

/-- Before the half-close, forgetting the end of input loses nothing. -/
theorem ToInv.reopen {sockfd : ℤ} {b : LinearBuffer UInt8} {e : Bool} {log : List Call}
    (h : ToInv sockfd b e log) (hopen : ¬ (e = true ∧ b.optr = b.iptr)) :
    ToInv sockfd b false log where
  wellFormed := h.wellFormed
  bytes := h.bytes
  shut := by simpa [hopen] using h.shut
  eof he := absurd he Bool.false_ne_true

/-- End of input with data still buffered: the half-close has to wait. -/
theorem ToInv.end_pending {sockfd : ℤ} {b : LinearBuffer UInt8} {e : Bool} {log : List Call}
    (h : ToInv sockfd b e log) (he : e = false) (hb : b.optr ≠ b.iptr)
    (hseen : eofSeen stdinFileno log) : ToInv sockfd b true log where
  wellFormed := h.wellFormed
  bytes := h.bytes
  shut := by simpa [he,hb] using h.shut
  eof _ := hseen

theorem ToInv.end_empty {sockfd : ℤ} {b : LinearBuffer UInt8} {e : Bool} {log : List Call}
    (h : ToInv sockfd b e log) (he : e = false) (hb : b.optr = b.iptr)
    (hseen : eofSeen stdinFileno log) : ToInv sockfd b true (log ++ [.shutdownWr sockfd]) where
  wellFormed := h.wellFormed
  bytes := by simpa [Call.input,Call.output] using h.bytes
  shut := by
    have hs := h.shut
    simp only [he,Bool.false_eq_true,false_and,if_false] at hs
    simp [hb,hs]
  eof _ := eofSeen_append hseen _

theorem ToInv.fill {sockfd : ℤ} {b : LinearBuffer UInt8} {e : Bool} {log : List Call}
    {bytes : List UInt8} (h : ToInv sockfd b e log) (ptr len : ℕ) (he : e = false)
    (hne : bytes ≠ []) (hfit : b.iptr+bytes.length ≤ maxLine) :
    ToInv sockfd (b.fill bytes) e (log ++ [.read stdinFileno ptr len (.data bytes)]) where
  wellFormed := LinearBuffer.fill_wellFormed h.wellFormed hne hfit
  bytes := by
    have hb := h.bytes
    simp [LinearBuffer.pending_fill b bytes h.wellFormed.ordered,Call.input,Call.output,hb]
  shut := by simpa [he] using h.shut
  eof hs := eofSeen_append (h.eof hs) _

theorem FrInv.fill {sockfd : ℤ} {b : LinearBuffer UInt8} {log : List Call}
    {bytes : List UInt8} (h : FrInv sockfd b log) (ptr len : ℕ) (hne : bytes ≠ [])
    (hfit : b.iptr+bytes.length ≤ maxLine) :
    FrInv sockfd (b.fill bytes) (log ++ [.read sockfd ptr len (.data bytes)]) where
  wellFormed := LinearBuffer.fill_wellFormed h.wellFormed hne hfit
  bytes := by
    have hb := h.bytes
    simp [LinearBuffer.pending_fill b bytes h.wellFormed.ordered,Call.input,Call.output,hb]

theorem ToInv.drain {sockfd : ℤ} {b : LinearBuffer UInt8} {e : Bool} {log : List Call} {k : ℕ}
    (h : ToInv sockfd b e log) (hk : k ≤ b.iptr-b.optr) (hopen : ¬ (e = true ∧ b.optr = b.iptr))
    (hstay : ¬ (b.optr+k = b.iptr ∧ e = true)) :
    ToInv sockfd (b.drain k) e (log ++ [.write sockfd b.pending (.accepted k)]) where
  wellFormed := LinearBuffer.drain_wellFormed h.wellFormed hk
  bytes := by
    have hb := h.bytes
    simp [LinearBuffer.pending_drain b hk,Call.input,Call.output,hb]
  shut := by
    have hs := h.shut
    rw [if_neg hopen] at hs
    simp only [LinearBuffer.drain_empty_iff]
    rw [if_neg (fun hc => hstay ⟨hc.2,hc.1⟩)]
    simpa using hs
  eof hs := eofSeen_append (h.eof hs) _

theorem FrInv.drain {sockfd : ℤ} {b : LinearBuffer UInt8} {log : List Call} {k : ℕ}
    (h : FrInv sockfd b log) (hk : k ≤ b.iptr-b.optr) :
    FrInv sockfd (b.drain k) (log ++ [.write stdoutFileno b.pending (.accepted k)]) where
  wellFormed := LinearBuffer.drain_wellFormed h.wellFormed hk
  bytes := by
    have hb := h.bytes
    simp [LinearBuffer.pending_drain b hk,Call.input,Call.output,hb]

theorem init_inv (sockfd : ℤ) (toMem frMem : Memory UInt8) :
    Inv sockfd (init toMem frMem) where
  toInv := ⟨⟨le_refl 0,Nat.zero_le _,fun _ => rfl⟩,rfl,rfl,by simp [init]⟩
  frInv := ⟨⟨le_refl 0,Nat.zero_le _,fun _ => rfl⟩,rfl⟩
  calls := always_nil _

/-- A descriptor is watched for reading only if its buffer has room, and standard
input only before its end. -/
structure Room (sockfd : ℤ) (s : State) : Prop where
  stdin : stdinFileno ∈ s.rset → s.stdineof = false ∧ s.toBuf.iptr < maxLine
  sock : sockfd ∈ s.rset → s.frBuf.iptr < maxLine

section Blocks

variable (sock : Socket)

theorem mem_interest_stdin (s : State) :
    stdinFileno ∈ (interest sock.fd s).rset ↔ s.stdineof = false ∧ s.toBuf.iptr < maxLine := by
  have hne := sock.ne_stdin.symm
  simp only [interest]
  split_ifs <;> simp_all

theorem mem_interest_sock (s : State) :
    sock.fd ∈ (interest sock.fd s).rset ↔ s.frBuf.iptr < maxLine := by
  have hne := sock.ne_stdin
  simp only [interest]
  split_ifs <;> simp_all

theorem mem_interest_sockOut (s : State) :
    sock.fd ∈ (interest sock.fd s).wset ↔ s.toBuf.optr ≠ s.toBuf.iptr := by
  have hne := sock.ne_stdout
  simp only [interest]
  split_ifs <;> simp_all

theorem mem_interest_stdout (s : State) :
    stdoutFileno ∈ (interest sock.fd s).wset ↔ s.frBuf.iptr ≠ s.frBuf.optr := by
  have hne := sock.ne_stdout.symm
  simp only [interest]
  split_ifs <;> simp_all

theorem interest_room (s : State) : Room sock.fd (interest sock.fd s) :=
  ⟨(mem_interest_stdin sock s).mp,(mem_interest_sock sock s).mp⟩

theorem interest_inv {s : State} (h : Inv sock.fd s) : Inv sock.fd (interest sock.fd s) :=
  ⟨h.toInv,h.frInv,h.calls⟩

/-- A buffer with nothing to write is at its start, and therefore has room. -/
theorem room_of_empty {b : LinearBuffer UInt8} (hb : b.WellFormed maxLine)
    (he : b.optr = b.iptr) : b.iptr < maxLine := by
  rw [hb.rewound he]
  exact maxLine_pos

/-- The sets passed to `select` leave no direction with work unwatched. -/
theorem interest_watched {s : State} (h : Inv sock.fd s) (nfds : ℤ) :
    CallOk sock.fd s.log (.select nfds (interest sock.fd s).rset (interest sock.fd s).wset) := by
  simp only [CallOk]
  rw [mem_interest_stdin,mem_interest_sock,mem_interest_sockOut,mem_interest_stdout]
  constructor
  · by_cases he : s.frBuf.optr = s.frBuf.iptr
    · exact Or.inl (room_of_empty h.frInv.wellFormed he)
    · exact Or.inr (Ne.symm he)
  · by_cases he : s.toBuf.optr = s.toBuf.iptr
    · have hroom := room_of_empty h.toInv.wellFormed he
      cases hs : s.stdineof with
      | false => exact Or.inl ⟨rfl,hroom⟩
      | true => exact Or.inr (Or.inr ⟨h.toInv.eof hs,h.toInv.sent_all he⟩)
    · exact Or.inr (Or.inl he)

theorem select_inv (a : SelectAnswer) {s : State} (h : Inv sock.fd s)
    (hw : CallOk sock.fd s.log (.select (maxfd sock.fd) s.rset s.wset)) :
    Inv sock.fd (select sock.fd a s) := by
  have hlog := h.frame hw rfl rfl rfl rfl (by simp)
  have hset : Inv sock.fd { s.record (.select (maxfd sock.fd) s.rset s.wset) with
      rset := a.rset s.rset, wset := a.wset s.wset } := ⟨hlog.toInv,hlog.frInv,hlog.calls⟩
  exact hset.print _ _

theorem select_room (a : SelectAnswer) {s : State} (h : Room sock.fd s) :
    Room sock.fd (select sock.fd a s) :=
  ⟨fun hm => h.stdin (a.rset_subset s.rset hm),fun hm => h.sock (a.rset_subset s.rset hm)⟩

theorem readStdin_inv (a : ReadAnswer) {s : State} (h : Inv sock.fd s) (hr : Room sock.fd s) :
    Inv sock.fd (readStdin sock.fd a s) := by
  unfold readStdin
  split_ifs with hm
  swap
  · exact h
  obtain ⟨heof,hroom⟩ := hr.stdin hm
  have hopen : ¬ (s.stdineof = true ∧ s.toBuf.optr = s.toBuf.iptr) := by simp [heof]
  have hcall (got : ReadAnswer) :
      CallOk sock.fd s.log (.read stdinFileno s.toBuf.iptr (maxLine-s.toBuf.iptr) got) :=
    ⟨by omega,fun _ => h.toInv.not_shut hopen⟩
  dsimp only
  cases hgot : a.upTo (maxLine-s.toBuf.iptr) with
  | fail e =>
    have hread := h.frame (hcall (.fail e)) rfl rfl rfl rfl (by simp)
    exact hread.error e _
  | data bytes =>
    have hlen := ReadAnswer.upTo_length hgot
    cases bytes with
    | nil =>
      have hread := h.frame (hcall (.data [])) (by simp [Call.input]) rfl (by simp [Call.input])
        rfl (by simp)
      have hp := hread.print "EOF on stdin\n" []
      have hseen := eofSeen_append (eofSeen_read stdinFileno s.log s.toBuf.iptr
        (maxLine-s.toBuf.iptr)) [.print "EOF on stdin\n" []]
      dsimp only
      split_ifs with he
      · exact ⟨hp.toInv.end_empty heof he hseen,hp.frInv.frame rfl rfl,
          (always_snoc _ _ _).mpr ⟨hp.calls,hp.toInv.sent_all he⟩⟩
      · exact ⟨hp.toInv.end_pending heof he hseen,hp.frInv,hp.calls⟩
    | cons b bs =>
      have hto := h.toInv.fill s.toBuf.iptr (maxLine-s.toBuf.iptr) heof
        (List.cons_ne_nil b bs) (by omega)
      have hfr := h.frInv.frame (c := .read stdinFileno s.toBuf.iptr (maxLine-s.toBuf.iptr)
        (.data (b :: bs))) (by simp [Call.input,sock.ne_stdin.symm]) rfl
      exact ⟨hto.frame rfl rfl (by simp),hfr.frame rfl rfl,
        (always_snoc _ _ _).mpr ⟨(always_snoc _ _ _).mpr ⟨h.calls,hcall _⟩,trivial⟩⟩

theorem readStdin_frame (a : ReadAnswer) (s : State) :
    (readStdin sock.fd a s).frBuf = s.frBuf ∧ (readStdin sock.fd a s).rset = s.rset := by
  unfold readStdin
  split_ifs
  · dsimp only
    cases a.upTo (maxLine-s.toBuf.iptr) with
    | fail e => dsimp only; split_ifs <;> exact ⟨rfl,rfl⟩
    | data bytes =>
      cases bytes with
      | nil => dsimp only; split_ifs <;> exact ⟨rfl,rfl⟩
      | cons b bs => exact ⟨rfl,rfl⟩
  · exact ⟨rfl,rfl⟩

theorem readSocket_inv (a : ReadAnswer) {s : State} (h : Inv sock.fd s)
    (hr : sock.fd ∈ s.rset → s.frBuf.iptr < maxLine) : Inv sock.fd (readSocket sock.fd a s) := by
  unfold readSocket
  split_ifs with hm
  swap
  · exact h
  have hroom := hr hm
  have hcall (got : ReadAnswer) :
      CallOk sock.fd s.log (.read sock.fd s.frBuf.iptr (maxLine-s.frBuf.iptr) got) :=
    ⟨by omega,fun he => absurd he sock.ne_stdin⟩
  dsimp only
  cases hgot : a.upTo (maxLine-s.frBuf.iptr) with
  | fail e =>
    have hread := h.frame (hcall (.fail e)) rfl rfl rfl rfl (by simp)
    exact hread.error e _
  | data bytes =>
    have hlen := ReadAnswer.upTo_length hgot
    cases bytes with
    | nil =>
      have hread := h.frame (hcall (.data [])) (by simp [Call.input]) rfl (by simp [Call.input])
        rfl (by simp)
      have hp := hread.print "EOF on socket\n" []
      dsimp only
      split_ifs
      · exact ⟨hp.toInv,hp.frInv,hp.calls⟩
      · exact (hp.print _ _).exit
    | cons b bs =>
      have hfr := h.frInv.fill s.frBuf.iptr (maxLine-s.frBuf.iptr)
        (List.cons_ne_nil b bs) (by omega)
      have hto := h.toInv.frame (c := .read sock.fd s.frBuf.iptr (maxLine-s.frBuf.iptr)
        (.data (b :: bs))) (by simp [Call.input,sock.ne_stdin]) rfl (by simp)
      exact ⟨hto.frame rfl rfl (by simp),hfr.frame rfl rfl,
        (always_snoc _ _ _).mpr ⟨(always_snoc _ _ _).mpr ⟨h.calls,hcall _⟩,trivial⟩⟩

theorem writeStdout_inv (a : WriteAnswer) {s : State} (h : Inv sock.fd s) :
    Inv sock.fd (writeStdout a s) := by
  simp only [writeStdout]
  split_ifs with hm
  swap
  · exact h
  have hcall (got : WriteAnswer) :
      CallOk sock.fd s.log (.write stdoutFileno s.frBuf.pending got) :=
    fun he => absurd he.symm sock.ne_stdout
  cases hgot : a.upTo (s.frBuf.iptr-s.frBuf.optr) with
  | fail e =>
    have hwrite := h.frame (hcall (.fail e)) rfl rfl rfl rfl (by simp)
    exact hwrite.error e _
  | accepted k =>
    have hk := WriteAnswer.upTo_le hgot
    have hto := h.toInv.frame (c := .write stdoutFileno s.frBuf.pending (.accepted k)) rfl
      (by simp [Call.output,sock.ne_stdout.symm]) (by simp)
    have hfr := h.frInv.drain hk
    exact ⟨hto.frame rfl rfl (by simp),hfr.frame rfl rfl,
      (always_snoc _ _ _).mpr ⟨(always_snoc _ _ _).mpr ⟨h.calls,hcall _⟩,trivial⟩⟩

theorem writeSocket_inv (a : WriteAnswer) {s : State} (h : Inv sock.fd s) :
    Inv sock.fd (writeSocket sock.fd a s) := by
  simp only [writeSocket]
  split_ifs with hm
  swap
  · exact h
  have hopen : ¬ (s.stdineof = true ∧ s.toBuf.optr = s.toBuf.iptr) := by omega
  have hcall (got : WriteAnswer) : CallOk sock.fd s.log (.write sock.fd s.toBuf.pending got) :=
    fun _ => h.toInv.not_shut hopen
  cases hgot : a.upTo (s.toBuf.iptr-s.toBuf.optr) with
  | fail e =>
    have hwrite := h.frame (hcall (.fail e)) rfl rfl rfl rfl (by simp)
    exact hwrite.error e _
  | accepted k =>
    have hk := WriteAnswer.upTo_le hgot
    have hfr := (h.frInv.frame (c := .write sock.fd s.toBuf.pending (.accepted k)) rfl
      (by simp [Call.output,sock.ne_stdout])).frame (c := .print "wrote %ld bytes to sockfd\n" [k])
      rfl rfl
    have hcalls := (always_snoc (CallOk sock.fd) _ (.print "wrote %ld bytes to sockfd\n" [k])).mpr
      ⟨(always_snoc _ _ _).mpr ⟨h.calls,hcall (.accepted k)⟩,trivial⟩
    dsimp only
    split_ifs with hlast
    · have hempty := (LinearBuffer.drain_empty_iff s.toBuf k).mpr hlast.1
      have hopen' : ¬ (false = true ∧ s.toBuf.optr = s.toBuf.iptr) := by simp
      have hto := ((h.toInv.reopen hopen).drain hk hopen' (by simp)).frame
        (c := .print "wrote %ld bytes to sockfd\n" [k]) rfl rfl (by simp)
      have hseen := eofSeen_append (h.toInv.eof hlast.2)
        [.write sock.fd s.toBuf.pending (.accepted k),.print "wrote %ld bytes to sockfd\n" [k]]
      rw [List.append_cons] at hseen
      have hend := hto.end_empty rfl hempty hseen
      rw [← hlast.2] at hend
      exact ⟨hend,hfr.frame rfl rfl,(always_snoc _ _ _).mpr ⟨hcalls,hto.sent_all hempty⟩⟩
    · exact ⟨(h.toInv.drain hk hopen hlast).frame rfl rfl (by simp),hfr,hcalls⟩

theorem andThen_inv {s : State} {f : State → State} (h : Inv sock.fd s)
    (hf : Inv sock.fd s → Inv sock.fd (f s)) : Inv sock.fd (s.andThen f) := by
  simp only [State.andThen]
  split_ifs
  · exact hf h
  · exact h

theorem iteration_inv (a : Answers) {s : State} (h : Inv sock.fd s) :
    Inv sock.fd (iteration sock.fd a s) := by
  have hsel := select_inv sock a.sel (interest_inv sock h) (interest_watched sock h _)
  have hroom := select_room sock a.sel (interest_room sock s)
  have hstdin := andThen_inv sock hsel (fun hs => readStdin_inv sock a.stdin hs hroom)
  have hroom' : ∀ u : State, u = (select sock.fd a.sel (interest sock.fd s)).andThen
      (readStdin sock.fd a.stdin) → sock.fd ∈ u.rset → u.frBuf.iptr < maxLine := by
    rintro u rfl
    obtain ⟨hfr,hset⟩ := readStdin_frame sock a.stdin (select sock.fd a.sel (interest sock.fd s))
    simp only [State.andThen]
    split_ifs
    · rw [hfr,hset]
      exact hroom.sock
    · exact hroom.sock
  have hread := andThen_inv sock hstdin (fun hs => readSocket_inv sock a.sock hs (hroom' _ rfl))
  have hout := andThen_inv sock hread (writeStdout_inv sock a.stdout)
  exact andThen_inv sock hout (writeSocket_inv sock a.sockOut)

/-- Every state of every run satisfies the invariant. -/
theorem reachable_inv {toMem frMem : Memory UInt8} {s : State}
    (h : Reachable (step sock.fd) (init toMem frMem) s) : Inv sock.fd s := by
  apply h.invariant (init_inv sock.fd toMem frMem)
  intro a x y hx hy
  simp only [step] at hy
  split_ifs at hy
  cases hy
  exact iteration_inv sock a hx

end Blocks

/-- A connected socket and three passes over it: three bytes in and one sent, then
the end of input with the rest sent while the socket delivers two bytes of which
standard output takes one, then the other one. -/
def sampleSocket : Socket := ⟨3,by decide,by decide⟩

def sampleMem : Memory UInt8 := fun _ => 0

def samplePasses : List Answers :=
  [⟨.ready {0,3} {1,3},.data [1,2,3],.fail .ewouldblock,.accepted 0,.accepted 1⟩,
    ⟨.ready {0,3} {1,3},.data [],.data [7,8],.accepted 1,.accepted 2⟩,
    ⟨.ready {0,3} {1,3},.data [],.fail .ewouldblock,.accepted 5,.accepted 5⟩]

/-- Pointers in order and inside the buffers, no byte lost, invented or reordered
in either direction, and no read without room: in every state of every run. -/
theorem relay_streams (sock : Socket) (toMem frMem : Memory UInt8) (s : State)
    (h : Reachable (step sock.fd) (init toMem frMem) s) :
    ((s.toBuf.optr ≤ s.toBuf.iptr ∧ s.toBuf.iptr ≤ maxLine) ∧
      (s.frBuf.optr ≤ s.frBuf.iptr ∧ s.frBuf.iptr ≤ maxLine)) ∧
    (bytesRead stdinFileno s.log = bytesWritten sock.fd s.log ++ s.toBuf.pending ∧
      bytesRead sock.fd s.log = bytesWritten stdoutFileno s.log ++ s.frBuf.pending) ∧
    (∀ fd ptr len got, Call.read fd ptr len got ∈ s.log → 0 < len ∧ ptr+len ≤ maxLine) := by
  have hi := reachable_inv sock h
  have hto := hi.toInv.wellFormed
  have hfr := hi.frInv.wellFormed
  refine ⟨⟨⟨hto.ordered,hto.bounded⟩,hfr.ordered,hfr.bounded⟩,⟨hi.toInv.bytes,hi.frInv.bytes⟩,?_⟩
  intro fd ptr len got hm
  obtain ⟨pre,post,hlog⟩ := List.append_of_mem hm
  exact (hi.calls pre _ post hlog).1

theorem relay_streams_sample : ∃ s, Reachable (step sampleSocket.fd) (init sampleMem sampleMem) s ∧
    s.toBuf.pending = [2,3] ∧
    bytesRead stdinFileno s.log = bytesWritten sampleSocket.fd s.log ++ [2,3] := by
  obtain ⟨s,hs,hp⟩ := exists_reachable (step sampleSocket.fd) (init sampleMem sampleMem)
    (samplePasses.take 1) (fun s => decide (s.toBuf.pending = [2,3])) (by decide)
  have hpend : s.toBuf.pending = [2,3] := of_decide_eq_true hp
  have hbytes := (relay_streams sampleSocket _ _ s hs).2.1.1
  rw [hpend] at hbytes
  exact ⟨s,hs,hpend,hbytes⟩

/-- The half-close is made once, when input has ended and everything is sent, and
it is the last thing that happens on the way to the socket. -/
theorem half_close_once (sock : Socket) (toMem frMem : Memory UInt8) (s : State)
    (h : Reachable (step sock.fd) (init toMem frMem) s) :
    (s.log.count (.shutdownWr sock.fd) =
      if s.stdineof = true ∧ s.toBuf.optr = s.toBuf.iptr then 1 else 0) ∧
    ∀ pre post, s.log = pre ++ .shutdownWr sock.fd :: post →
      bytesRead stdinFileno pre = bytesWritten sock.fd pre ∧
      (∀ bytes got, Call.write sock.fd bytes got ∉ post) ∧
      (∀ ptr len got, Call.read stdinFileno ptr len got ∉ post) := by
  have hi := reachable_inv sock h
  refine ⟨hi.toInv.shut,?_⟩
  intro pre post hlog
  have hafter : ∀ c ∈ post, ∃ mid, Call.shutdownWr sock.fd ∈ mid ∧ CallOk sock.fd mid c := by
    intro c hc
    obtain ⟨l,r,hpost⟩ := List.append_of_mem hc
    exact ⟨pre ++ .shutdownWr sock.fd :: l,by simp,hi.calls _ c r (by simp [hlog,hpost])⟩
  refine ⟨hi.calls pre _ post hlog,?_,?_⟩
  · intro bytes got hm
    obtain ⟨mid,hshut,hok⟩ := hafter _ hm
    exact hok rfl hshut
  · intro ptr len got hm
    obtain ⟨mid,hshut,hok⟩ := hafter _ hm
    exact hok.2 rfl hshut

theorem half_close_once_sample : ∃ s,
    Reachable (step sampleSocket.fd) (init sampleMem sampleMem) s ∧
    s.stdineof = true ∧ s.log.count (.shutdownWr sampleSocket.fd) = 1 := by
  obtain ⟨s,hs,hp⟩ := exists_reachable (step sampleSocket.fd) (init sampleMem sampleMem)
    (samplePasses.take 2) (fun s => decide (s.stdineof = true ∧ s.toBuf.optr = s.toBuf.iptr))
    (by decide)
  have hend : s.stdineof = true ∧ s.toBuf.optr = s.toBuf.iptr := of_decide_eq_true hp
  have hcount := (half_close_once sampleSocket _ _ s hs).1
  rw [if_pos hend] at hcount
  exact ⟨s,hs,hend.1,hcount⟩

/-- No `select` leaves a direction with outstanding work unwatched, since an
exhausted buffer is always rewound. -/
theorem select_watches (sock : Socket) (toMem frMem : Memory UInt8) (s : State)
    (h : Reachable (step sock.fd) (init toMem frMem) s) :
    (∀ pre nfds rset wset post, s.log = pre ++ .select nfds rset wset :: post →
      (sock.fd ∈ rset ∨ stdoutFileno ∈ wset) ∧
      (stdinFileno ∈ rset ∨ sock.fd ∈ wset ∨
        eofSeen stdinFileno pre ∧ bytesRead stdinFileno pre = bytesWritten sock.fd pre)) ∧
    (s.toBuf.iptr = s.toBuf.optr → s.toBuf.iptr = 0 ∧ s.toBuf.optr = 0) ∧
    (s.frBuf.iptr = s.frBuf.optr → s.frBuf.iptr = 0 ∧ s.frBuf.optr = 0) := by
  have hi := reachable_inv sock h
  refine ⟨fun pre nfds rset wset post hlog => hi.calls pre _ post hlog,?_,?_⟩
  · intro he
    have hz := hi.toInv.wellFormed.rewound he.symm
    exact ⟨hz,by omega⟩
  · intro he
    have hz := hi.frInv.wellFormed.rewound he.symm
    exact ⟨hz,by omega⟩

theorem select_watches_sample : ∃ s, Reachable (step sampleSocket.fd) (init sampleMem sampleMem) s ∧
    bytesWritten stdoutFileno s.log = [7,8] ∧ s.frBuf.iptr = 0 ∧ s.frBuf.optr = 0 := by
  obtain ⟨s,hs,hp⟩ := exists_reachable (step sampleSocket.fd) (init sampleMem sampleMem)
    samplePasses (fun s => decide (bytesWritten stdoutFileno s.log = [7,8] ∧
      s.frBuf.iptr = s.frBuf.optr)) (by decide)
  have hend : bytesWritten stdoutFileno s.log = [7,8] ∧ s.frBuf.iptr = s.frBuf.optr :=
    of_decide_eq_true hp
  exact ⟨s,hs,hend.1,(select_watches sampleSocket _ _ s hs).2.2 hend.2⟩

end UnlockStrCli
end CPrograming
