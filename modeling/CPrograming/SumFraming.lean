import CPrograming.Sum

/-!
# Records and results of `number_echo`

Wherever the byte stream is cut into pieces, `number_echo` writes one result for each
complete record. What it will still write is a function of its state and of the bytes to
come, and a rank bounds the calls it still makes.
-/

namespace CPrograming
namespace Sum

open Connection Libc SocketFunc Runs

def replies (bytes : List UInt8) : List UInt8 :=
  if sizeofArgs ≤ bytes.length then
    longBytes (answer (argsOf (bytes.take sizeofArgs))) ++ replies (bytes.drop sizeofArgs)
  else []
termination_by bytes.length
decreasing_by
  rw [List.length_drop]
  simp only [sizeofArgs] at *
  omega

theorem replies_short {bytes : List UInt8} (h : bytes.length < sizeofArgs) :
    replies bytes = [] := by
  rw [replies,if_neg (by omega)]

theorem replies_record {record : List UInt8} (h : record.length = sizeofArgs)
    (rest : List UInt8) :
    replies (record ++ rest) = longBytes (answer (argsOf record)) ++ replies rest := by
  rw [replies,if_pos (by rw [List.length_append]; omega),List.take_left' h,List.drop_left' h]

theorem replies_records (records : List (Long × Long)) {tail : List UInt8}
    (htail : tail.length < sizeofArgs) :
    replies (records.flatMap argsBytes ++ tail) =
      records.flatMap fun args => longBytes (answer args) := by
  induction records with
  | nil => exact replies_short htail
  | cons args records ih =>
    rw [List.flatMap_cons,List.append_assoc,replies_record (argsBytes_length args),ih,
      argsOf_argsBytes,List.flatMap_cons]

section Server

def Server.Sound (s : Server) : Prop :=
  match s.place with
  | .reading call =>
    s.args = call.dst ∧ ∃ got, call.Holds sizeofArgs got ∧ got.length < sizeofArgs
  | .writing call => ∃ k < sizeofResult, call = Writing.after sizeofResult k
  | .returned _ => True

/-- What it still writes if `bytes` and then end of file come. -/
def Server.future (s : Server) (bytes : List UInt8) : List UInt8 :=
  match s.place with
  | .reading call => replies (call.dst.load 0 call.off ++ bytes)
  | .writing call => (longBytes s.sum).drop call.off ++ replies bytes
  | .returned _ => []

variable {s : Server} {call : Readn} {got : List UInt8}

theorem head_incomplete (h : call.Holds sizeofArgs got) (hlt : got.length < sizeofArgs) :
    s.head call = { s with place := .reading call, args := call.dst } := by
  have hret : call.ret = none := by simp [h.ret,hlt]
  simp only [Server.head,hret]

theorem head_complete (h : call.Holds sizeofArgs got) (hall : got.length = sizeofArgs) :
    (s.head call).place = .writing (Writing.after sizeofResult 0) ∧
      (s.head call).sum = answer (argsOf got) := by
  have hret : call.ret = some (sizeofArgs : ℤ) := by simp [h.ret,hall]
  have hload : call.dst.load 0 sizeofArgs = got := hall ▸ h.dst
  simp only [Server.head,hret,hload,answer]
  rw [if_pos (by decide)]
  exact ⟨congrArg _ (Writing.enter_eq_after sizeofResult),rfl⟩

/-- At the head of the loop the future is that of the bytes `readn` holds. -/
theorem head_future (h : call.Holds sizeofArgs got) :
    (s.head call).Sound ∧ ∀ bytes, (s.head call).future bytes = replies (got ++ bytes) := by
  rcases Nat.lt_or_eq_of_le h.fits with hlt | hall
  · rw [head_incomplete h hlt]
    refine ⟨⟨rfl,got,h,hlt⟩,?_⟩
    intro bytes
    simp only [Server.future,h.off,h.dst]
  · obtain ⟨hplace,hsum⟩ := head_complete (s := s) h hall
    refine ⟨?_,?_⟩
    · simp only [Server.Sound,hplace]
      exact ⟨0,by decide,rfl⟩
    · intro bytes
      simp only [Server.future,hplace,hsum,Writing.after,List.drop_zero]
      rw [replies_record hall]

theorem start_sound (sockfd : ℤ) (args : Memory UInt8) (sum : Long) :
    (Server.start sockfd args sum).Sound ∧
      ∀ bytes, (Server.start sockfd args sum).future bytes = replies bytes :=
  head_future (Readn.enter_holds sizeofArgs args)

theorem reading_of_pending {len : ℕ} (hs : s.Sound) (h : numberEcho.pending s = .read len) :
    ∃ call got, s.place = .reading call ∧ s.args = call.dst ∧ call.Holds sizeofArgs got ∧
      got.length < sizeofArgs ∧ len = sizeofArgs-got.length := by
  cases hplace : s.place with
  | reading call =>
    simp only [Server.Sound,hplace] at hs
    obtain ⟨hargs,got,hgot,hlt⟩ := hs
    simp only [numberEcho,hplace,Pending.read.injEq] at h
    exact ⟨call,got,rfl,hargs,hgot,hlt,by rw [← h,hgot.left]⟩
  | writing call => simp [numberEcho,hplace] at h
  | returned n => simp [numberEcho,hplace] at h

theorem writing_of_pending {bytes : List UInt8} (hs : s.Sound)
    (h : numberEcho.pending s = .write bytes) :
    ∃ k < sizeofResult, s.place = .writing (Writing.after sizeofResult k) ∧
      bytes = (longBytes s.sum).drop k := by
  cases hplace : s.place with
  | reading call => simp [numberEcho,hplace] at h
  | writing call =>
    simp only [Server.Sound,hplace] at hs
    obtain ⟨k,hk,rfl⟩ := hs
    simp only [numberEcho,hplace,Pending.write.injEq] at h
    exact ⟨k,hk,rfl,h.symm⟩
  | returned n => simp [numberEcho,hplace] at h

theorem sent_lengths {sum : Long} {k : ℕ} {sent rest : List UInt8}
    (h : sent ++ rest = (longBytes sum).drop k) : sent.length+rest.length = sizeofResult-k := by
  have hlength := congrArg List.length h
  rwa [List.length_append,List.length_drop,longBytes_length] at hlength

theorem onWrite_sent {k j : ℕ} (hplace : s.place = .writing (Writing.after sizeofResult k))
    (hj : 0 < j) (hle : k+j ≤ sizeofResult) :
    numberEcho.onWrite s (.accepted j) =
      if k+j < sizeofResult then { s with place := .writing (Writing.after sizeofResult (k+j)) }
      else s.head (Readn.enter sizeofArgs s.args) := by
  simp only [numberEcho,hplace,Writing.body_accepted hj hle]
  by_cases hlt : k+j < sizeofResult
  · simp only [Writing.after,hlt,if_true]
  · simp only [Writing.after,hlt,if_false]

theorem numberEcho_transducer : Transducer numberEcho Server.Sound Server.future where
  asks s len hs h := by
    obtain ⟨call,got,-,-,-,hlt,rfl⟩ := reading_of_pending hs h
    omega
  offers s bytes hs h := by
    obtain ⟨k,hk,-,rfl⟩ := writing_of_pending hs h
    simpa [sizeofResult] using hk
  data s len new rest hs h hne hlen := by
    obtain ⟨call,got,hplace,-,hgot,hlt,rfl⟩ := reading_of_pending hs h
    obtain ⟨hsound,hfuture⟩ := head_future (s := s) (hgot.data hne (by omega))
    have hread : numberEcho.onRead s (.data new) = s.head (call.body sizeofArgs (.data new)) := by
      simp only [numberEcho,hplace]
    rw [hread]
    refine ⟨hsound,?_⟩
    rw [hfuture,List.append_assoc]
    simp only [Server.future,hplace,hgot.off,hgot.dst]
  eof s len hs h := by
    obtain ⟨call,got,hplace,-,hgot,hlt,rfl⟩ := reading_of_pending hs h
    have hread : (numberEcho.onRead s (.data [])).place = .returned 0 := by
      simp [numberEcho,hplace,Readn.body_eof,Server.head]
    refine ⟨by simp [Server.Sound,hread],?_⟩
    simp only [Server.future,hread,hplace,hgot.off,hgot.dst,List.append_nil]
    exact (replies_short hlt).symm
  sent s sent rest bytes hs h hne := by
    obtain ⟨k,hk,hplace,hbytes⟩ := writing_of_pending hs h
    have hpos := List.length_pos_iff.mpr hne
    have hlen := sent_lengths hbytes
    rw [onWrite_sent hplace hpos (by omega)]
    have hnow : s.future bytes = sent ++ rest ++ replies bytes := by
      simp only [Server.future,hplace,Writing.after,hbytes]
    rw [hnow]
    split_ifs with hlt
    · refine ⟨⟨k+sent.length,hlt,rfl⟩,?_⟩
      simp only [Server.future,Writing.after,← List.drop_drop,← hbytes,List.drop_left,
        List.append_assoc]
    · obtain ⟨hsound,hfuture⟩ := head_future (s := s) (Readn.enter_holds sizeofArgs s.args)
      obtain rfl : rest = [] := List.length_eq_zero_iff.mp (by omega)
      exact ⟨hsound,by rw [hfuture,List.append_nil,List.nil_append]⟩
  interrupted s len hs h := by
    obtain ⟨call,got,hplace,hargs,hgot,hlt,rfl⟩ := reading_of_pending hs h
    have hread : numberEcho.onRead s (.fail .eintr) = s.head call := by
      simp only [numberEcho,hplace,hgot.interrupted hlt]
    rw [hread,head_incomplete hgot hlt,← hplace,← hargs]
  interrupted_write s bytes hs h := by
    obtain ⟨k,hk,hplace,-⟩ := writing_of_pending hs h
    have hret : (Writing.after sizeofResult k).ret = none := if_pos hk
    simp only [numberEcho,hplace,Writing.body_interrupted hk,hret]
    rw [← hplace]
  compute s bytes hs h := ⟨hs,rfl⟩

/-- A bound for the calls that `number_echo` still makes: a byte that it reads costs at most
one call, and a record eight more for its result. -/
def rank (e : Endpoint Server) : ℕ :=
  match e.proc.place with
  | .reading _ => 9*e.inp.bytes.length+1
  | .writing call => 9*e.inp.bytes.length+(sizeofResult-call.off)+1
  | .returned _ => 0

theorem head_rank (h : call.Holds sizeofArgs got) (inp out : Pipe) :
    rank ⟨s.head call,inp,out⟩ ≤ 9*inp.bytes.length+9 := by
  rcases Nat.lt_or_eq_of_le h.fits with hlt | hall
  · simp only [rank,head_incomplete h hlt]
    omega
  · simp only [rank,(head_complete (s := s) h hall).1,Writing.after,sizeofResult]
    omega

theorem head_enter_rank (args : Memory UInt8) (inp out : Pipe) :
    rank ⟨s.head (Readn.enter sizeofArgs args),inp,out⟩ = 9*inp.bytes.length+1 := by
  simp only [rank,head_incomplete (Readn.enter_holds sizeofArgs args) (by decide)]

theorem rank_step {e t : Endpoint Server} {a : Io} (hs : e.proc.Sound)
    (hstep : restrict (fun _ a => Io.smooth a = true) numberEcho.io e a = some t) :
    rank t+(if a.busy then 1 else 0) ≤ rank e := by
  obtain ⟨hsmooth,hio⟩ := restrict_eq_some.mp hstep
  cases io_moved hio with
  | @data len k new rest hp hin hne hlen =>
    obtain ⟨call,got,hplace,-,hgot,hlt,rfl⟩ := reading_of_pending hs hp
    have hnew := List.length_pos_iff.mpr (hne (by omega))
    have hread : numberEcho.onRead e.proc (.data new) =
        e.proc.head (call.body sizeofArgs (.data new)) := by
      simp only [numberEcho,hplace]
    have hhead := head_rank (s := e.proc) (hgot.data (hne (by omega)) (by omega))
      ⟨rest,e.inp.closed⟩ e.out
    rw [hread]
    simp only [Io.busy,if_true]
    have hrank : rank e = 9*(new.length+rest.length)+1 := by
      simp only [rank,hplace,hin,List.length_append]
    simp only at hhead
    omega
  | eof hp hin hclosed =>
    obtain ⟨call,got,hplace,-,-,-,rfl⟩ := reading_of_pending hs hp
    have hread : (numberEcho.onRead e.proc (.data [])).place = .returned 0 := by
      simp [numberEcho,hplace,Readn.body_eof,Server.head]
    simp [rank,hread,hplace,hin,Io.busy]
  | readFail hp =>
    obtain rfl : _ = Errno.eintr := of_decide_eq_true hsmooth
    rw [numberEcho_transducer.interrupted e.proc _ hs hp]
    exact le_refl _
  | @sent k sent rest hp hne hopen =>
    obtain ⟨k,hk,hplace,hbytes⟩ := writing_of_pending hs hp
    have hsent : sent ≠ [] := hne (numberEcho_transducer.offers e.proc _ hs hp)
    have hpos := List.length_pos_iff.mpr hsent
    have hlen := sent_lengths hbytes
    have hrank : rank e = 9*e.inp.bytes.length+(sizeofResult-k)+1 := by
      simp only [rank,hplace,Writing.after]
    rw [onWrite_sent hplace hpos (by omega),hrank]
    simp only [Io.busy,if_true]
    split_ifs with hlt
    · simp only [rank,Writing.after]
      omega
    · rw [head_enter_rank]
      omega
  | writeFail hp =>
    obtain rfl : _ = Errno.eintr := of_decide_eq_true hsmooth
    rw [numberEcho_transducer.interrupted_write e.proc _ hs hp]
    simp [rank,Io.busy]
  | compute hp =>
    cases hplace : e.proc.place <;> simp [numberEcho,hplace] at hp
  | close hp => simp [rank,Io.busy]

/-- Where no call can get on, nothing is left to write, and `number_echo` has returned or
waits for the peer. -/
theorem future_of_stuck {e : Endpoint Server} (hs : e.proc.Sound)
    (hopen : e.out.closed = true → numberEcho.pending e.proc = .exited)
    (hstuck : ∀ a, a.busy = true →
      restrict (fun _ a => Io.smooth a = true) numberEcho.io e a = none) :
    e.proc.future e.inp.bytes = [] ∧
      (e.inp.closed = true → ∃ n, e.proc.place = .returned n) := by
  cases hplace : e.proc.place with
  | reading call =>
    have hread := hstuck (.read 0) rfl
    simp only [Server.Sound,hplace] at hs
    obtain ⟨-,got,hgot,hlt⟩ := hs
    simp only [restrict,Io.smooth,if_true,Process.io,numberEcho,hplace] at hread
    split_ifs at hread with hne hclosed
    refine ⟨?_,fun h => absurd h hclosed⟩
    simp only [Server.future,hplace,hgot.off,hgot.dst,not_not.mp hne,List.append_nil]
    exact replies_short hlt
  | writing call =>
    have hwrite := hstuck (.write 0) rfl
    simp only [restrict,Io.smooth,if_true,Process.io,numberEcho,hplace] at hwrite
    split_ifs at hwrite with hclosed
    simp [numberEcho,hplace] at hopen
    exact absurd hclosed (by simp [hopen])
  | returned n => exact ⟨by simp only [Server.future,hplace],fun _ => ⟨n,rfl⟩⟩

end Server

def served (sockfd : ℤ) (args : Memory UInt8) (sum : Long) (stream : List UInt8) (ended : Bool) :
    Endpoint Server :=
  ⟨Server.start sockfd args sum,⟨stream,ended⟩,⟨[],false⟩⟩

/-- Whichever way the stream is cut into reads and the results into writes, and wherever calls
are interrupted: the output is always a first part of the results of the complete records, the
calls that are not interrupted are bounded in number, and when none can get on all results are
written and, after end of file, `number_echo` has returned. -/
theorem number_echo_framing (sockfd : ℤ) (args : Memory UInt8) (sum : Long)
    (records : List (Long × Long)) (tail : List UInt8) (ended : Bool)
    (htail : tail.length < sizeofArgs) :
    let stream := records.flatMap argsBytes ++ tail
    let results := records.flatMap fun r => longBytes (r.1+r.2+100)
    let step := restrict (fun _ a => Io.smooth a = true) numberEcho.io
    let e := served sockfd args sum stream ended
    (∀ t, Reachable step e t → t.out.bytes <+: results ∧
      ((∀ a, a.busy = true → step t a = none) →
        t.out.bytes = results ∧ (ended = true → ∃ n, t.proc.place = .returned n))) ∧
    ∀ as t, exec step e as = some t → as.countP Io.busy ≤ 9*stream.length+1 := by
  intro stream results step e
  obtain ⟨hsound,hfuture⟩ := start_sound sockfd args sum
  have hresults : e.out.bytes ++ e.proc.future e.inp.bytes = results :=
    (hfuture stream).trans (replies_records records htail)
  refine ⟨?_,?_⟩
  · intro t hreach
    obtain ⟨ht,hsame⟩ := numberEcho_transducer.run hsound hreach
    rw [hresults] at hsame
    refine ⟨⟨_,hsame⟩,?_⟩
    intro hstuck
    have hclosed : t.inp.closed = ended ∧
        (t.out.closed = true → numberEcho.pending t.proc = .exited) := by
      refine hreach.invariant (I := fun x => x.inp.closed = ended ∧
        (x.out.closed = true → numberEcho.pending x.proc = .exited)) ⟨rfl,by simp [e,served]⟩ ?_
      rintro a x y ⟨hin,hout⟩ hxy
      obtain ⟨hsame,hy⟩ := closed_step hout hxy
      exact ⟨hsame.trans hin,hy⟩
    obtain ⟨hnil,hreturned⟩ := future_of_stuck ht hclosed.2 hstuck
    rw [hnil,List.append_nil] at hsame
    exact ⟨hsame,fun h => hreturned (hclosed.1.trans h)⟩
  · intro as t hexec
    have hbound := exec_busy (I := fun x => x.proc.Sound) rank Io.busy
      (fun _ _ _ hx hxy => ⟨(numberEcho_transducer.step hx hxy).1,rank_step hx hxy⟩) hsound hexec
    have hrank : rank e = 9*stream.length+1 := head_enter_rank args ⟨stream,ended⟩ ⟨[],false⟩
    omega

/-- Two records and one byte of a third, read and written in pieces. -/
theorem number_echo_framing_pieces :
    ∃ t, Reachable (restrict (fun _ a => Io.smooth a = true) numberEcho.io)
        (served 4 (fun _ => 0) 0 ([(1,2),(5,-200)].flatMap argsBytes ++ [7]) true) t ∧
      t.out.bytes = longBytes 103 ++ longBytes (-95) ∧
      t.out.bytes <+: [(1,2),(5,-200)].flatMap fun r : Long × Long => longBytes (r.1+r.2+100) := by
  obtain ⟨t,hreach,ht⟩ := exists_reachable
    (restrict (fun _ a => Io.smooth a = true) numberEcho.io)
    (served 4 (fun _ => 0) 0 ([(1,2),(5,-200)].flatMap argsBytes ++ [7]) true)
    [.read 4,.readFail .eintr,.read 99,.write 2,.writeFail .eintr,.write 99,.read 99,.write 99,
      .read 99,.read 0]
    (fun t => t.out.bytes = longBytes 103 ++ longBytes (-95)) (by decide +kernel)
  have hframing := (number_echo_framing 4 (fun _ => 0) 0 [(1,2),(5,-200)] [7] true (by decide)).1
  exact ⟨t,hreach,of_decide_eq_true ht,(hframing t hreach).1⟩

end Sum
end CPrograming
