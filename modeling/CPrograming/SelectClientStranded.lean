import CPrograming.SelectClient

/-!
# Input that `select` does not see

A `read` of the standard input that gives more than the end of one piece leaves the rest in
the buffer of `file`. The client comes back to it only when a descriptor is ready again.
-/

namespace CPrograming
namespace SelectClient

open Connection Libc SocketFunc Readline Runs

/-- The part of a segment behind the piece that it completes, when the bytes before it have been
read. -/
def behind (before segment : List UInt8) : List UInt8 :=
  (copyLine (maxLine-1-unfinished maxLine 0 before) segment).2

section Pieces

variable {used got rest line : List UInt8}

theorem unfinished_used (hused : unfinished maxLine 0 used = 0) (h : Open maxLine got) :
    unfinished maxLine 0 (used ++ got) = got.length := by
  rw [unfinished_append,hused,h.unfinished]

theorem used_whole (hused : unfinished maxLine 0 used = 0) (h : Whole maxLine line) :
    unfinished maxLine 0 (used ++ line) = 0 := by
  rw [unfinished_append,hused,h.unfinished]

theorem behind_eq (hused : unfinished maxLine 0 used = 0) (h : Open maxLine got)
    (segment : List UInt8) :
    behind (used ++ got) segment = (takeLine maxLine got segment).2 := by
  rw [behind,unfinished_used hused h,takeLine]

theorem behind_suffix (before segment : List UInt8) : behind before segment <:+ segment :=
  ⟨_,copyLine_append _ segment⟩

end Pieces

section Invariant

/-- The buffer of `file` holds the end of the segment read last. -/
def Leftover (read : List Segment) (stdio : List UInt8) : Prop :=
  stdio = [] ∨ ∃ before seg, read = before ++ [seg] ∧ stdio <:+ behind (bytes before) seg.1

def Between (read : List Segment) (stdio : List UInt8) : Prop :=
  Leftover read stdio ∧ ∃ used, unfinished maxLine 0 used = 0 ∧ used ++ stdio = bytes read

def Tracks (read : List Segment) (c : Client) : Prop :=
  match c.place with
  | .fgets got => Open maxLine got ∧ c.stdio = [] ∧
      ∃ used, unfinished maxLine 0 used = 0 ∧ used ++ got = bytes read
  | .returned _ => True
  | .select | .readline | .writing _ => Between read c.stdio

variable {read : List Segment} {c : Client} {got : List UInt8}

theorem Leftover.suffix {stdio rest : List UInt8} (h : Leftover read stdio)
    (hrest : rest <:+ stdio) : Leftover read rest := by
  rcases h with rfl | ⟨before,seg,hread,hsuffix⟩
  · exact Or.inl (List.suffix_nil.mp hrest)
  · exact Or.inr ⟨before,seg,hread,hrest.trans hsuffix⟩

theorem send_tracks (h : Between read c.stdio) (call : Writing) : Tracks read (c.send call) := by
  cases hret : call.ret with
  | none =>
    simp only [Client.send,hret]
    exact h
  | some n =>
    simp only [Client.send,hret]
    exact h

theorem fill_tracks {used : List UInt8} (hopen : Open maxLine got)
    (hused : unfinished maxLine 0 used = 0) (hread : used ++ got ++ c.stdio = bytes read)
    (hleft : Leftover read (takeLine maxLine got c.stdio).2) : Tracks read (c.fill got) := by
  rcases takeLine_cases hopen c.stdio with ⟨hopen',htake⟩ | hwhole
  · rw [fill_open hopen' htake]
    exact ⟨hopen',rfl,used,hused,by rw [← List.append_assoc,hread]⟩
  · rw [fill_whole hwhole]
    refine send_tracks ⟨hleft,_,used_whole hused hwhole,?_⟩ _
    rw [List.append_assoc,takeLine_append,← List.append_assoc,hread]

theorem input_tracks (h : Between read c.stdio) : Tracks read c.input := by
  obtain ⟨hleft,used,hused,hread⟩ := h
  simp only [Client.input]
  split_ifs
  · have hsuffix : (takeLine maxLine [] c.stdio).2 <:+ c.stdio :=
      ⟨_,takeLine_append maxLine [] c.stdio⟩
    exact fill_tracks ⟨List.not_mem_nil,by decide⟩ hused (by simpa using hread)
      (hleft.suffix hsuffix)
  · exact ⟨hleft,used,hused,hread⟩

theorem receive_tracks (h : Between read c.stdio) : Tracks read c.receive := by
  simp only [Client.receive]
  split
  · exact h
  · exact input_tracks h

theorem selected_tracks (h : Between read c.stdio) (rset : Rset) :
    Tracks read (c.selected rset) := by
  simp only [Client.selected]
  split_ifs
  · exact receive_tracks h
  · exact input_tracks h

theorem refill_tracks {seg : Segment} (hplace : c.place = .fgets got) (h : Tracks read c) :
    Tracks (read ++ [seg]) ({ c with stdio := seg.1 }.fill got) := by
  simp only [Tracks,hplace] at h
  obtain ⟨hopen,-,used,hused,hread⟩ := h
  refine fill_tracks hopen hused (by simp [hread]) ?_
  right
  refine ⟨read,seg,rfl,?_⟩
  rw [← hread,behind_eq hused hopen]

theorem ClientMove.tracks {c' : Client} (hmove : ClientMove c c') (h : Tracks read c) :
    Tracks read c' := by
  cases hmove with
  | none => exact h
  | read a hplace =>
    simp only [Tracks,hplace] at h
    exact receive_tracks h
  | write next taken hplace =>
    simp only [Tracks,hplace] at h
    exact send_tracks (c := { c with sent := c.sent ++ taken }) h next

variable {T : Type*} {Q : Process T} {segs : List Segment} {s t : State T}

def Fed (segs : List Segment) (s : State T) : Prop :=
  s.ended = true ∨ ∃ read, segs = read ++ s.queue ++ s.incoming ∧ Tracks read s.client

theorem Fed.step {a : Action} (h : Fed segs s) (hstep : step Q s a = some t) : Fed segs t := by
  rcases h with hended | ⟨read,hsegs,htracks⟩
  · left
    cases step_cases hstep with
    | hangUp => rfl
    | io | arrive | select | selectFail | refill | eof | stdinFail => exact hended
  · cases step_cases hstep with
    | io hconn => exact Or.inr ⟨read,hsegs,(client_move hconn).tracks htracks⟩
    | arrive hin =>
      refine Or.inr ⟨read,?_,htracks⟩
      rw [hsegs,hin]
      simp
    | hangUp => exact Or.inl rfl
    | select hplace =>
      simp only [Tracks,hplace] at htracks
      exact Or.inr ⟨read,hsegs,selected_tracks htracks _⟩
    | selectFail hplace =>
      simp only [Tracks,hplace] at htracks
      exact Or.inr ⟨read,hsegs,selected_tracks htracks _⟩
    | @refill got seg rest hplace hqueue =>
      refine Or.inr ⟨read ++ [seg],?_,refill_tracks hplace htracks⟩
      rw [hsegs,hqueue]
      simp [State.put]
    | eof hplace hended => exact Or.inl hended
    | stdinFail hplace => exact Or.inr ⟨read,hsegs,trivial⟩

end Invariant

section Runs

variable {T : Type*} {Q : Process T} {s : State T} {c : Client}

/-- Pass after pass takes a piece, until the last segment that waits is read. -/
theorem passes_run (used out : List UInt8) (hquiet : s.conn.toLeft = ⟨[],false⟩)
    (hplace : c.place = .select) (hused : unfinished maxLine 0 used = 0)
    {before : List Segment} {seg : Segment}
    (hmem : newline ∈ behind (used ++ c.stdio ++ bytes before) seg.1) : ∃ c' out',
    Reachable (restrict (fun _ a => Action.smooth a = true) (step Q))
      (s.goto c out (before ++ [seg])) (s.goto c' out' []) ∧ c'.place = .select ∧
      c'.stdio = behind (used ++ c.stdio ++ bytes before) seg.1 := by
  induction hn : (c.stdio ++ bytes before).length using Nat.strong_induction_on
    generalizing c used before out with
  | _ n ih =>
    have hstart := select_run (Q := Q) out (before ++ [seg]) hplace hquiet
      (Or.inl (List.append_ne_nil_of_right_ne_nil before (List.cons_ne_nil seg [])))
    rcases fgets_run (Q := Q) s { c with rset := ⟨true,false⟩ } out (before ++ [seg])
      ⟨List.not_mem_nil,by decide⟩ with
      ⟨line,rest,queue',hwhole,happend,hrest,hreach⟩ | ⟨hopen,-⟩
    · obtain ⟨out',hsend⟩ := sendLine_run (Q := Q) s { c with rset := ⟨true,false⟩, stdio := rest }
        line out queue'
      have hsu := (hstart.trans hreach).trans hsend
      rcases List.eq_nil_or_concat queue' with rfl | ⟨before',seg',rfl⟩
      · refine ⟨_,out',hsu,rfl,?_⟩
        rcases hrest with ⟨hqueue,-⟩ | ⟨before',seg',hqueue,hopen,hrest⟩
        · simp at hqueue
        · obtain ⟨rfl,hseg⟩ := List.append_inj' hqueue rfl
          obtain rfl : seg = seg' := by simpa using hseg
          rw [List.nil_append] at hopen hrest
          rw [List.append_assoc,behind_eq hused hopen]
          exact hrest
      · rw [List.concat_eq_append] at happend hrest hsu
        have hsuffix : before' ++ [seg'] <:+ before ++ [seg] := by
          rcases hrest with ⟨hqueue,-⟩ | ⟨between,first,hqueue,-,-⟩
          · rw [hqueue]
          · rw [hqueue]
            exact ⟨between ++ [first],by simp⟩
        obtain ⟨taken,htaken⟩ := hsuffix
        rw [← List.append_assoc] at htaken
        obtain ⟨-,hseg⟩ := List.append_inj' htaken rfl
        obtain rfl : seg' = seg := by simpa using hseg
        have hsame : line ++ (rest ++ bytes before') = c.stdio ++ bytes before := by
          rw [List.nil_append,bytes_append,bytes_append,← List.append_assoc,← List.append_assoc]
            at happend
          rw [← List.append_assoc]
          exact List.append_cancel_right happend
        have hinput : used ++ line ++ rest ++ bytes before' = used ++ c.stdio ++ bytes before := by
          simp only [List.append_assoc,hsame]
        have hlt : (rest ++ bytes before').length < n := by
          have hpos := List.length_pos_iff.mpr (hwhole.ne_nil (by decide))
          have hlen := congrArg List.length hsame
          rw [List.length_append] at hlen
          omega
        rw [← hinput] at hmem ⊢
        generalize hnext : Client.head _ = c' at hsu
        have hstdio : c'.stdio = rest := by rw [← hnext,Client.head]
        rw [← hstdio] at hlt hmem ⊢
        obtain ⟨c'',out'',hrun,hend⟩ :=
          ih _ hlt _ _ (by rw [← hnext,Client.head]) (used_whole hused hwhole) hmem rfl
        exact ⟨c'',out'',hsu.trans hrun,hend⟩
    · have hseg := (behind_suffix _ seg.1).subset hmem
      exact absurd (by simp [hseg]) hopen.1

end Runs

/-- However the standard input is cut into segments, the client never waits in `select` with a
line in the buffer of `file` exactly if no segment has a newline behind the piece that it
completes. It may then be interrupted and fail anywhere, against any peer. -/
theorem never_stranded_iff {T : Type*} (Q : Process T) (sock : ℤ) (recvline : Memory UInt8)
    (segs : List Segment) (peer : T) :
    (∀ s, Reachable (step Q) (start sock recvline segs peer) s → ¬ Stranded s) ↔
      ∀ before seg after, segs = before ++ seg :: after →
        newline ∉ behind (bytes before) seg.1 := by
  constructor
  · rintro hnever before seg after rfl hmem
    have harrive := arrive_run (Q := Q) (s := start sock recvline (before ++ seg :: after) peer)
      (before ++ [seg]) after []
    rw [List.nil_append,List.append_assoc,List.singleton_append] at harrive
    obtain ⟨c,out,hrun,hplace,hstdio⟩ := passes_run (Q := Q) [] []
      (s := ⟨⟨Client.start sock recvline,peer,⟨[],false⟩,⟨[],false⟩⟩,after,before ++ [seg],false⟩)
      (c := Client.start sock recvline) rfl rfl rfl hmem
    refine hnever _ (harrive.trans hrun).of_restrict ⟨⟨hplace,rfl,rfl⟩,?_⟩
    rw [State.client,State.goto,hstdio]
    exact hmem
  · rintro hsegs s hreach ⟨⟨hplace,hfile,-⟩,hmem⟩
    have hfed : Fed segs s := hreach.invariant (I := Fed segs)
      (Or.inr ⟨[],by simp [start],Or.inl rfl,[],rfl,rfl⟩) fun a x y hx hxy => hx.step hxy
    obtain ⟨hqueue,hended⟩ : s.queue = [] ∧ s.ended = false := by
      simpa [State.fileReady] using hfile
    rcases hfed with hover | ⟨read,hread,htracks⟩
    · simp [hended] at hover
    · simp only [Tracks,hplace] at htracks
      rcases htracks.1 with hnil | ⟨before,seg,rfl,hsuffix⟩
      · simp [hnil] at hmem
      · exact hsegs before seg s.incoming (by simp [hread,hqueue]) (hsuffix.subset hmem)

/-- Both lines come with one `read`. The client sends the first and waits. -/
theorem second_line_stranded : ∃ s,
    Reachable (step (echoPeer maxLine).proc)
      (start 3 (fun _ => 0) [⟨[97,10,98,10],by simp⟩] (echoPeer maxLine).init) s ∧ Stranded s := by
  obtain ⟨t,hreach,ht⟩ := exists_reachable (step (echoPeer maxLine).proc)
    (start 3 (fun _ => 0) [⟨[97,10,98,10],by simp⟩] (echoPeer maxLine).init)
    [.arrive,.select,.stdin,.io (.left (.write 1))]
    (fun t => (t.client.place = .select ∧ t.fileReady = false ∧ t.sockReady = false) ∧
      newline ∈ t.client.stdio) (by decide +kernel)
  obtain ⟨hblocked,hmem⟩ := of_decide_eq_true ht
  exact ⟨t,hreach,hblocked,hmem⟩

end SelectClient
end CPrograming
