import CPrograming.UnlockStrCliInvariant

/-!
# What a normal return of the relay leaves behind

The end of the socket's stream makes `unlock_str_cli` return at once, without a
look at the buffer for standard output. What that buffer still holds is decided
by the last `write` to standard output: whatever arrives from the socket is
offered in the same pass, together with everything left over.
-/

namespace CPrograming
namespace UnlockStrCli

open Runs

def Call.writeTo (fd : ℤ) : Call → Option (List UInt8 × WriteAnswer)
  | .write fd' bytes got => if fd' = fd then some (bytes,got) else none
  | _ => none

def lastWrite (fd : ℤ) (log : List Call) : Option (List UInt8 × WriteAnswer) :=
  (log.filterMap (Call.writeTo fd)).getLast?

/-- The last write to `fd`, if there was one, was accepted in full. -/
def LastWriteComplete (fd : ℤ) (log : List Call) : Prop :=
  ∀ w, lastWrite fd log = some w → w.2 = .accepted w.1.length

theorem lastWrite_frame {fd : ℤ} {c : Call} (hc : c.writeTo fd = none) (log : List Call) :
    lastWrite fd (log ++ [c]) = lastWrite fd log := by
  simp [lastWrite,List.filterMap_append,hc]

theorem lastWrite_write (fd : ℤ) (log : List Call) (bytes : List UInt8) (got : WriteAnswer) :
    lastWrite fd (log ++ [.write fd bytes got]) = some (bytes,got) := by
  simp [lastWrite,Call.writeTo]

def Synced (b : LinearBuffer UInt8) (log : List Call) : Prop :=
  LastWriteComplete stdoutFileno log ↔ b.optr = b.iptr

theorem Synced.frame {b : LinearBuffer UInt8} {log : List Call} {c : Call} (h : Synced b log)
    (hc : c.writeTo stdoutFileno = none) : Synced b (log ++ [c]) := by
  simp only [Synced,LastWriteComplete] at *
  rw [lastWrite_frame hc]
  exact h

/-- A write of everything that is buffered settles the matter, whatever its answer. -/
theorem synced_fail {b : LinearBuffer UInt8} (hb : b.optr < b.iptr) (log : List Call) (e : Errno) :
    Synced b (log ++ [.write stdoutFileno b.pending (.fail e)]) := by
  simp only [Synced,LastWriteComplete]
  rw [lastWrite_write]
  constructor
  · intro h
    have hw := h _ rfl
    simp at hw
  · intro he
    omega

theorem synced_accepted (b : LinearBuffer UInt8) {k : ℕ} (hb : b.optr < b.iptr)
    (hk : k ≤ b.iptr-b.optr) (log : List Call) :
    Synced (b.drain k) (log ++ [.write stdoutFileno b.pending (.accepted k)]) := by
  simp only [Synced,LastWriteComplete]
  rw [lastWrite_write,LinearBuffer.drain_empty_iff]
  constructor
  · intro h
    have hw : k = b.pending.length := WriteAnswer.accepted.inj (h _ rfl)
    rw [LinearBuffer.pending_length] at hw
    omega
  · rintro he w hw
    obtain rfl := Option.some.inj hw
    have hlen : k = b.pending.length := by rw [LinearBuffer.pending_length]; omega
    simp only [hlen]

section Blocks

variable (sock : Socket)

theorem select_synced (a : SelectAnswer) {s : State} (h : Synced s.frBuf s.log) :
    Synced (select sock.fd a (interest sock.fd s)).frBuf
      (select sock.fd a (interest sock.fd s)).log :=
  (h.frame rfl).frame rfl

theorem readStdin_synced (a : ReadAnswer) {s : State} (h : Synced s.frBuf s.log) :
    Synced (readStdin sock.fd a s).frBuf (readStdin sock.fd a s).log := by
  rw [(readStdin_frame sock a s).1]
  unfold readStdin
  split_ifs with hm
  swap
  · exact h
  dsimp only
  cases a.upTo (maxLine-s.toBuf.iptr) with
  | fail e =>
    dsimp only
    split_ifs
    · exact (h.frame rfl).frame rfl
    · exact h.frame rfl
  | data bytes =>
    cases bytes with
    | nil =>
      dsimp only
      split_ifs
      · exact ((h.frame rfl).frame rfl).frame rfl
      · exact (h.frame rfl).frame rfl
    | cons b bs => exact (h.frame rfl).frame rfl

/-- Data from the socket makes the same pass write to standard output. -/
theorem readSocket_synced (a : ReadAnswer) {s : State} (h : Synced s.frBuf s.log)
    (hs : s.status = .running) (hb : s.frBuf.optr ≤ s.frBuf.iptr) :
    Synced (readSocket sock.fd a s).frBuf (readSocket sock.fd a s).log ∨
      ((readSocket sock.fd a s).status = .running ∧
        stdoutFileno ∈ (readSocket sock.fd a s).wset ∧
        (readSocket sock.fd a s).frBuf.optr < (readSocket sock.fd a s).frBuf.iptr) := by
  unfold readSocket
  split_ifs with hm
  swap
  · exact Or.inl h
  dsimp only
  cases a.upTo (maxLine-s.frBuf.iptr) with
  | fail e =>
    left
    dsimp only
    split_ifs
    · exact (h.frame rfl).frame rfl
    · exact h.frame rfl
  | data bytes =>
    cases bytes with
    | nil =>
      left
      dsimp only
      split_ifs
      · exact (h.frame rfl).frame rfl
      · exact ((h.frame rfl).frame rfl).frame rfl
    | cons b bs =>
      right
      refine ⟨hs,Finset.mem_insert_self _ _,?_⟩
      simp only [State.record,LinearBuffer.fill,List.length_cons]
      omega

theorem writeStdout_synced (a : WriteAnswer) {s : State}
    (h : Synced s.frBuf s.log ∨ (stdoutFileno ∈ s.wset ∧ s.frBuf.optr < s.frBuf.iptr)) :
    Synced (writeStdout a s).frBuf (writeStdout a s).log := by
  simp only [writeStdout]
  split_ifs with hm
  swap
  · rcases h with h | ⟨hw,hlt⟩
    · exact h
    · exact absurd ⟨hw,Nat.sub_pos_of_lt hlt⟩ hm
  have hlt : s.frBuf.optr < s.frBuf.iptr := Nat.lt_of_sub_pos hm.2
  cases hgot : a.upTo (s.frBuf.iptr-s.frBuf.optr) with
  | fail e =>
    have hw := synced_fail hlt s.log e
    dsimp only
    split_ifs
    · exact hw.frame rfl
    · exact hw
  | accepted k => exact (synced_accepted s.frBuf hlt (WriteAnswer.upTo_le hgot) s.log).frame rfl

theorem writeSocket_synced (a : WriteAnswer) {s : State} (h : Synced s.frBuf s.log) :
    Synced (writeSocket sock.fd a s).frBuf (writeSocket sock.fd a s).log := by
  simp only [writeSocket]
  split_ifs with hm
  swap
  · exact h
  have hw (got : WriteAnswer) : (Call.write sock.fd
      (s.toBuf.mem.load s.toBuf.optr (s.toBuf.iptr-s.toBuf.optr)) got).writeTo stdoutFileno =
      none := by
    simp [Call.writeTo,sock.ne_stdout]
  cases a.upTo (s.toBuf.iptr-s.toBuf.optr) with
  | fail e =>
    dsimp only
    split_ifs
    · exact (h.frame (hw _)).frame rfl
    · exact h.frame (hw _)
  | accepted k =>
    dsimp only
    split_ifs
    · exact ((h.frame (hw _)).frame rfl).frame rfl
    · exact (h.frame (hw _)).frame rfl

theorem andThen_synced {s : State} {f : State → State} (h : Synced s.frBuf s.log)
    (hf : Synced (f s).frBuf (f s).log) : Synced (s.andThen f).frBuf (s.andThen f).log := by
  simp only [State.andThen]
  split_ifs
  · exact hf
  · exact h

theorem iteration_synced (a : Answers) {s : State} (hi : Inv sock.fd s)
    (h : Synced s.frBuf s.log) :
    Synced (iteration sock.fd a s).frBuf (iteration sock.fd a s).log := by
  simp only [iteration]
  have hsel := select_synced sock a.sel h
  have hb : (select sock.fd a.sel (interest sock.fd s)).frBuf = s.frBuf := rfl
  generalize select sock.fd a.sel (interest sock.fd s) = u at hsel hb ⊢
  have hstdin := andThen_synced hsel (readStdin_synced sock a.stdin hsel)
  have hb' : (u.andThen (readStdin sock.fd a.stdin)).frBuf = s.frBuf := by
    simp only [State.andThen]
    split_ifs
    · rw [(readStdin_frame sock a.stdin u).1,hb]
    · exact hb
  generalize u.andThen (readStdin sock.fd a.stdin) = v at hstdin hb' ⊢
  have hout : Synced ((v.andThen (readSocket sock.fd a.sock)).andThen (writeStdout a.stdout)).frBuf
      ((v.andThen (readSocket sock.fd a.sock)).andThen (writeStdout a.stdout)).log := by
    by_cases hv : v.status = .running
    · have hread : v.andThen (readSocket sock.fd a.sock) = readSocket sock.fd a.sock v := if_pos hv
      rw [hread]
      have hle : v.frBuf.optr ≤ v.frBuf.iptr := by rw [hb']; exact hi.frInv.wellFormed.ordered
      rcases readSocket_synced sock a.sock hstdin hv hle with hs | ⟨hrun,hw⟩
      · exact andThen_synced hs (writeStdout_synced a.stdout (Or.inl hs))
      · have hwrite : (readSocket sock.fd a.sock v).andThen (writeStdout a.stdout) =
            writeStdout a.stdout (readSocket sock.fd a.sock v) := if_pos hrun
        rw [hwrite]
        exact writeStdout_synced a.stdout (Or.inr hw)
    · have hread : v.andThen (readSocket sock.fd a.sock) = v := if_neg hv
      rw [hread]
      exact andThen_synced hstdin (writeStdout_synced a.stdout (Or.inl hstdin))
  exact andThen_synced hout (writeSocket_synced sock a.sockOut hout)

theorem reachable_synced {toMem frMem : Memory UInt8} {s : State}
    (h : Reachable (step sock.fd) (init toMem frMem) s) : Synced s.frBuf s.log := by
  have hinit : Synced (init toMem frMem).frBuf (init toMem frMem).log := by
    simp [Synced,LastWriteComplete,lastWrite,init]
  have hall : Inv sock.fd s ∧ Synced s.frBuf s.log := by
    apply h.invariant ⟨init_inv sock.fd toMem frMem,hinit⟩
    rintro a x y ⟨hx,hs⟩ hy
    simp only [step] at hy
    split_ifs at hy
    cases hy
    exact ⟨iteration_inv sock a hx,iteration_synced sock a hx hs⟩
  exact hall.2

end Blocks

/-- A normal return has delivered everything, in order, exactly if standard output
took all of the last write. -/
theorem returned_delivered_iff (sock : Socket) (toMem frMem : Memory UInt8) (s : State)
    (h : Reachable (step sock.fd) (init toMem frMem) s) :
    s.status = .returned →
    ((s.frBuf.optr = s.frBuf.iptr ∧
      bytesWritten stdoutFileno s.log = bytesRead sock.fd s.log) ↔
    LastWriteComplete stdoutFileno s.log) := by
  intro _
  have hi := (reachable_inv sock h).frInv
  constructor
  · rintro ⟨hempty,-⟩
    exact (reachable_synced sock h).mpr hempty
  · intro hlast
    have hempty := (reachable_synced sock h).mp hlast
    have hp := (LinearBuffer.pending_eq_nil hi.wellFormed).mpr hempty
    have hbytes := hi.bytes
    rw [hp,List.append_nil] at hbytes
    exact ⟨hempty,hbytes.symm⟩

/-- Three bytes arrive with the end of input, then the socket ends. -/
def returnPasses (stdout : WriteAnswer) : List Answers :=
  [⟨.ready {0,3} {1,3},.data [],.data [1,2,3],stdout,.accepted 0⟩,
    ⟨.ready {3} {1,3},.data [],.data [],.accepted 0,.accepted 0⟩]

theorem returned_delivered_iff_sample : ∃ s,
    Reachable (step sampleSocket.fd) (init sampleMem sampleMem) s ∧
    s.status = .returned ∧ LastWriteComplete stdoutFileno s.log := by
  obtain ⟨s,hs,hp⟩ := exists_reachable (step sampleSocket.fd) (init sampleMem sampleMem)
    (returnPasses (.accepted 3)) (fun s => decide (s.status = .returned ∧
      s.frBuf.optr = s.frBuf.iptr ∧
      bytesWritten stdoutFileno s.log = bytesRead sampleSocket.fd s.log)) (by decide)
  obtain ⟨hret,hall⟩ := of_decide_eq_true hp
  exact ⟨s,hs,hret,(returned_delivered_iff sampleSocket _ _ s hs hret).mp hall⟩

/-- Standard output refuses the three bytes, and the return leaves them behind. -/
theorem returned_with_pending_bytes : ∃ s,
    Reachable (step sampleSocket.fd) (init sampleMem sampleMem) s ∧
    s.status = .returned ∧ s.frBuf.optr ≠ s.frBuf.iptr ∧
    bytesRead sampleSocket.fd s.log = [1,2,3] ∧ bytesWritten stdoutFileno s.log = [] := by
  obtain ⟨s,hs,hp⟩ := exists_reachable (step sampleSocket.fd) (init sampleMem sampleMem)
    (returnPasses (.fail .ewouldblock)) (fun s => decide (s.status = .returned ∧
      s.frBuf.optr ≠ s.frBuf.iptr ∧ bytesRead sampleSocket.fd s.log = [1,2,3] ∧
      bytesWritten stdoutFileno s.log = [])) (by decide)
  exact ⟨s,hs,of_decide_eq_true hp⟩

end UnlockStrCli
end CPrograming
