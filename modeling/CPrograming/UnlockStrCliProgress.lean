import CPrograming.UnlockStrCliSession

/-!
# The relay never gets stuck

The two directions of the connection hold a bounded number of bytes, so a full direction
keeps its writer waiting. Wherever the relay and the echo server are, some of them can
move, and they can go on until all of the input is on standard output.
-/

namespace CPrograming
namespace UnlockStrCli

open Runs Connection

variable {S : Type*}

def World.Fits (cap : ℕ) (w : World S) : Prop :=
  w.toPeer.bytes.length ≤ cap ∧ w.toRelay.bytes.length ≤ cap

instance (cap : ℕ) (w : World S) : Decidable (w.Fits cap) :=
  inferInstanceAs (Decidable (_ ∧ _))

def World.boundedStep (cap : ℕ) (sockfd : ℤ) (Q : Process S) (w : World S) (a : Act) :
    Option (World S) :=
  (w.step sockfd Q a).filter fun t => decide (t.Fits cap)

theorem boundedStep_eq_some {cap : ℕ} {sockfd : ℤ} {Q : Process S} {w t : World S} {a : Act} :
    w.boundedStep cap sockfd Q a = some t ↔ w.step sockfd Q a = some t ∧ t.Fits cap := by
  simp [World.boundedStep,Option.filter_eq_some_iff]

/-- The runs of the relay and its peer in which nothing fails. -/
def Runs (cap : ℕ) (sockfd : ℤ) (Q : Process S) : World S → World S → Prop :=
  Reachable (restrict (fun _ a => Act.smooth a = true) (World.boundedStep cap sockfd Q))

section Idle

structure Call.Idle (sockfd : ℤ) (c : Call) : Prop where
  input : ∀ fd, c.input fd = []
  output : ∀ fd, c.output fd = []
  notShut : c ≠ .shutdownWr sockfd

structure World.Same (w t : World S) : Prop where
  toBuf : t.relay.toBuf = w.relay.toBuf
  frBuf : t.relay.frBuf = w.relay.frBuf
  stdineof : t.relay.stdineof = w.relay.stdineof
  status : t.relay.status = w.relay.status
  read : ∀ fd, bytesRead fd t.relay.log = bytesRead fd w.relay.log
  written : ∀ fd, bytesWritten fd t.relay.log = bytesWritten fd w.relay.log
  input : t.input = w.input
  toPeer : t.toPeer = w.toPeer
  toRelay : t.toRelay = w.toRelay
  peer : t.peer = w.peer

theorem World.Same.refl (w : World S) : w.Same w := by
  constructor <;> first | rfl | exact fun _ => rfl

theorem World.Same.trans {w t u : World S} (h : w.Same t) (h' : t.Same u) : w.Same u where
  toBuf := h'.toBuf.trans h.toBuf
  frBuf := h'.frBuf.trans h.frBuf
  stdineof := h'.stdineof.trans h.stdineof
  status := h'.status.trans h.status
  read fd := (h'.read fd).trans (h.read fd)
  written fd := (h'.written fd).trans (h.written fd)
  input := h'.input.trans h.input
  toPeer := h'.toPeer.trans h.toPeer
  toRelay := h'.toRelay.trans h.toRelay
  peer := h'.peer.trans h.peer

theorem bytesRead_idle {sockfd : ℤ} {calls : List Call} (h : ∀ c ∈ calls, c.Idle sockfd) (fd : ℤ) :
    bytesRead fd calls = [] :=
  List.flatMap_eq_nil_iff.mpr fun c hc => (h c hc).input fd

theorem bytesWritten_idle {sockfd : ℤ} {calls : List Call} (h : ∀ c ∈ calls, c.Idle sockfd)
    (fd : ℤ) : bytesWritten fd calls = [] :=
  List.flatMap_eq_nil_iff.mpr fun c hc => (h c hc).output fd

variable {Q : EchoPeer S} {sock : Socket} {input : List UInt8} {w : World S} {calls : List Call}

def World.idled (w : World S) (calls : List Call) (rset wset : FdSet) : World S :=
  { w with relay := { w.relay with log := w.relay.log ++ calls, rset := rset, wset := wset } }

theorem Sound.same (h : Sound Q sock.fd input w) (hcalls : ∀ c ∈ calls, c.Idle sock.fd)
    (rset wset : FdSet) (place : Place) :
    w.Same ((w.idled calls rset wset).settle sock.fd place) where
  toBuf := rfl
  frBuf := rfl
  stdineof := rfl
  status := rfl
  read fd := by
    have hnil := bytesRead_idle hcalls fd
    simp only [World.settle,World.idled,bytesRead] at hnil ⊢
    rw [List.flatMap_append,hnil,List.append_nil]
  written fd := by
    have hnil := bytesWritten_idle hcalls fd
    simp only [World.settle,World.idled,bytesWritten] at hnil ⊢
    rw [List.flatMap_append,hnil,List.append_nil]
  input := rfl
  toPeer := by
    have hmem : Call.shutdownWr sock.fd ∈ w.relay.log ++ calls ↔
        .shutdownWr sock.fd ∈ w.relay.log := by
      rw [List.mem_append]
      exact or_iff_left fun hc => (hcalls _ hc).notShut rfl
    have hclosed : decide (Call.shutdownWr sock.fd ∈ w.relay.log ++ calls) = w.toPeer.closed := by
      rw [Bool.eq_iff_iff,h.shut,← shut_iff sock h.inv,decide_eq_true_iff,decide_eq_true_iff,hmem]
    exact Pipe.ext rfl hclosed
  toRelay := rfl
  peer := rfl

def Place.next : Place → Place
  | .select => .stdin
  | .stdin => .sock
  | .sock => .stdout
  | .stdout => .sockOut
  | .sockOut => .select

theorem call_none (sock : Socket) (P : Process S) (hrun : w.relay.status = .running)
    (hplace : w.place ≠ .select) :
    ∃ calls, (∀ c ∈ calls, Call.Idle sock.fd c) ∧ w.step sock.fd P (.call none) =
      some ((w.idled calls w.relay.rset w.relay.wset).settle sock.fd w.place.next) := by
  have hskip : w = w.idled [] w.relay.rset w.relay.wset := by simp [World.idled]
  have hidle (c : Call) (hc : c.Idle sock.fd) : ∀ d ∈ [c], Call.Idle sock.fd d := by
    simpa using hc
  simp only [World.step,if_pos hrun,World.call]
  cases hp : w.place with
  | select => exact absurd hp hplace
  | stdin =>
    by_cases hm : stdinFileno ∈ w.relay.rset
    · refine ⟨_,hidle (.read stdinFileno w.relay.toBuf.iptr (maxLine-w.relay.toBuf.iptr)
        (.fail .ewouldblock)) ⟨fun _ => rfl,fun _ => rfl,by simp⟩,?_⟩
      simp only [World.stdin,if_pos hm,readStdin_blocked sock hm,Place.next]
      rfl
    · refine ⟨[],by simp,?_⟩
      simp only [World.stdin,if_neg hm,Place.next]
      rw [← hskip]
  | sock =>
    by_cases hm : sock.fd ∈ w.relay.rset
    · refine ⟨_,hidle (.read sock.fd w.relay.frBuf.iptr (maxLine-w.relay.frBuf.iptr)
        (.fail .ewouldblock)) ⟨fun _ => rfl,fun _ => rfl,by simp⟩,?_⟩
      simp only [World.sock,if_pos hm,readSocket_blocked sock hm,Place.next,Option.map_some]
      rfl
    · refine ⟨[],by simp,?_⟩
      simp only [World.sock,if_neg hm,Place.next,Option.map_some]
      rw [← hskip]
  | stdout =>
    by_cases hm : stdoutFileno ∈ w.relay.wset ∧ 0 < w.relay.frBuf.iptr-w.relay.frBuf.optr
    · refine ⟨_,hidle (.write stdoutFileno w.relay.frBuf.pending (.fail .ewouldblock))
        ⟨fun _ => rfl,fun _ => rfl,by simp⟩,?_⟩
      simp [World.stdout,writeStdout,hm,accepts,WriteAnswer.upTo,Place.next,State.record,
        World.idled,LinearBuffer.pending]
    · refine ⟨[],by simp,?_⟩
      simp only [World.stdout,writeStdout,if_neg hm,Place.next]
      rw [← hskip]
  | sockOut =>
    by_cases hm : sock.fd ∈ w.relay.wset ∧ 0 < w.relay.toBuf.iptr-w.relay.toBuf.optr
    · refine ⟨_,hidle (.write sock.fd w.relay.toBuf.pending (.fail .ewouldblock))
        ⟨fun _ => rfl,fun _ => rfl,by simp⟩,?_⟩
      simp [World.sockOut,writeSocket,hm,accepts,WriteAnswer.upTo,Place.next,State.record,
        World.idled,LinearBuffer.pending]
    · refine ⟨[],by simp,?_⟩
      simp only [World.sockOut,writeSocket,if_neg hm,Place.next]
      simp [World.idled]

end Idle

section Passes

variable {Q : EchoPeer S} {sock : Socket} {input : List UInt8} {cap : ℕ} {w t : World S}

theorem World.Same.fits (h : w.Same t) (hfit : w.Fits cap) : t.Fits cap := by
  simp only [World.Fits,h.toPeer,h.toRelay]
  exact hfit

theorem runs_step {a : Act} (hsmooth : a.smooth = true) (hstep : w.step sock.fd Q.proc a = some t)
    (hfit : t.Fits cap) : Runs cap sock.fd Q.proc w t :=
  (Reachable.refl w).tail (restrict_eq_some.mpr ⟨hsmooth,boundedStep_eq_some.mpr ⟨hstep,hfit⟩⟩)

structure Kept (Q : EchoPeer S) (cap : ℕ) (sockfd : ℤ) (input : List UInt8) (w : World S) :
    Prop where
  sound : Sound Q sockfd input w
  fits : w.Fits cap

theorem Kept.runs (hQ : Faithful Q) (h : Kept Q cap sock.fd input w)
    (hruns : Runs cap sock.fd Q.proc w t) : Kept Q cap sock.fd input t := by
  refine Reachable.invariant hruns h ?_
  intro a x y hx hxy
  obtain ⟨hsmooth,hbounded⟩ := restrict_eq_some.mp hxy
  obtain ⟨hstep,hfit⟩ := boundedStep_eq_some.mp hbounded
  exact ⟨hx.sound.step hQ (restrict_eq_some.mpr ⟨hsmooth,hstep⟩),hfit⟩

theorem Kept.hop (h : Kept Q cap sock.fd input w) (hrun : w.relay.status = .running)
    (hplace : w.place ≠ .select) : ∃ t, Runs cap sock.fd Q.proc w t ∧ w.Same t ∧
      t.relay.rset = w.relay.rset ∧ t.relay.wset = w.relay.wset ∧ t.place = w.place.next := by
  obtain ⟨calls,hcalls,hstep⟩ := call_none sock Q.proc hrun hplace
  have hsame := h.sound.same hcalls w.relay.rset w.relay.wset w.place.next
  exact ⟨_,runs_step rfl hstep (hsame.fits h.fits),hsame,rfl,rfl,rfl⟩

theorem Kept.hops (hQ : Faithful Q) (h : Kept Q cap sock.fd input w)
    (hrun : w.relay.status = .running) (n : ℕ)
    (hplace : ∀ i < n, Place.next^[i] w.place ≠ .select) :
    ∃ t, Runs cap sock.fd Q.proc w t ∧ w.Same t ∧ t.relay.rset = w.relay.rset ∧
      t.relay.wset = w.relay.wset ∧ t.place = Place.next^[n] w.place := by
  induction n with
  | zero => exact ⟨w,.refl w,.refl w,rfl,rfl,rfl⟩
  | succ n ih =>
    obtain ⟨t,hruns,hsame,hrset,hwset,ht⟩ := ih fun i hi => hplace i (by omega)
    obtain ⟨u,hu,hsame',hrset',hwset',hnext⟩ := (h.runs hQ hruns).hop (hsame.status.trans hrun)
      (ht ▸ hplace n (by omega))
    refine ⟨u,hruns.trans hu,hsame.trans hsame',hrset'.trans hrset,hwset'.trans hwset,?_⟩
    rw [hnext,ht,Function.iterate_succ_apply']

def Place.rest : Place → ℕ
  | .select => 0
  | .stdin => 4
  | .sock => 3
  | .stdout => 2
  | .sockOut => 1

def selectCalls (sockfd : ℤ) (s : State) : List Call :=
  let rset := (interest sockfd s).rset
  let wset := (interest sockfd s).wset
  [.select (maxfd sockfd) rset wset,
    .print "nready = %d\n" [(SelectAnswer.ready rset wset).nready rset wset]]

theorem selectCalls_idle (sockfd : ℤ) (s : State) :
    ∀ c ∈ selectCalls sockfd s, c.Idle sockfd := by
  intro c hc
  rcases List.mem_pair.mp hc with rfl | rfl
  · exact ⟨fun _ => rfl,fun _ => rfl,by simp⟩
  · exact ⟨fun _ => rfl,fun _ => rfl,by simp⟩

/-- A pass that reaches any of its calls with the sets that `select` was given. -/
theorem Kept.pass (hQ : Faithful Q) (h : Kept Q cap sock.fd input w)
    (hrun : w.relay.status = .running) (n : ℕ)
    (hn : ∀ i < n, Place.next^[i] .stdin ≠ .select) :
    ∃ t, Runs cap sock.fd Q.proc w t ∧ w.Same t ∧
      t.relay.rset = (interest sock.fd w.relay).rset ∧
      t.relay.wset = (interest sock.fd w.relay).wset ∧ t.place = Place.next^[n] .stdin := by
  have hrest : (∀ i < w.place.rest, Place.next^[i] w.place ≠ .select) ∧
      Place.next^[w.place.rest] w.place = .select := by
    cases w.place <;> decide
  obtain ⟨t,hruns,hsame,-,-,hselect⟩ := h.hops hQ hrun w.place.rest hrest.1
  have ht := h.runs hQ hruns
  have hstatus := hsame.status.trans hrun
  have hset : (interest sock.fd t.relay).rset = (interest sock.fd w.relay).rset ∧
      (interest sock.fd t.relay).wset = (interest sock.fd w.relay).wset := by
    simp only [interest,hsame.toBuf,hsame.frBuf,hsame.stdineof]
    exact ⟨trivial,trivial⟩
  have hstep : t.step sock.fd Q.proc
      (.select (.ready (interest sock.fd t.relay).rset (interest sock.fd t.relay).wset)) =
      some ((t.idled (selectCalls sock.fd t.relay) (interest sock.fd t.relay).rset
        (interest sock.fd t.relay).wset).settle sock.fd .stdin) := by
    have hplace : t.place = .select := hselect.trans hrest.2
    simp only [World.step,if_pos (And.intro hstatus hplace),World.select,UnlockStrCli.select,
      State.record,SelectAnswer.rset,SelectAnswer.wset,Finset.inter_self,World.idled,selectCalls]
    simp [interest]
  have hsame' := ht.sound.same (selectCalls_idle sock.fd t.relay) (interest sock.fd t.relay).rset
    (interest sock.fd t.relay).wset .stdin
  have hrunsel := runs_step rfl hstep (hsame'.fits ht.fits)
  obtain ⟨u,hu,hsame'',hrset,hwset,hplace⟩ := (ht.runs hQ hrunsel).hops hQ
    (hsame'.status.trans hstatus) n hn
  exact ⟨u,(hruns.trans hrunsel).trans hu,(hsame.trans hsame').trans hsame'',
    hrset.trans hset.1,hwset.trans hset.2,hplace⟩

end Passes

section Progress

variable {sock : Socket} {input : List UInt8} {cap size : ℕ} {w t : World (List UInt8 × Bool)}

/-- How far the session is: the bytes that have passed each of six points, and the four
things that happen once. -/
def World.progress (sockfd : ℤ) (w : World (List UInt8 × Bool)) : ℕ :=
  (bytesRead stdinFileno w.relay.log).length+(bytesWritten sockfd w.relay.log).length+
    ((bytesWritten sockfd w.relay.log).length-w.toPeer.bytes.length)+
    ((bytesRead sockfd w.relay.log).length+w.toRelay.bytes.length)+
    (bytesRead sockfd w.relay.log).length+(bytesWritten stdoutFileno w.relay.log).length+
    (w.relay.stdineof.toNat+w.peer.2.toNat+w.toRelay.closed.toNat+
      (decide (w.relay.status ≠ .running)).toNat)

theorem World.Same.progress (h : w.Same t) (sockfd : ℤ) :
    t.progress sockfd = w.progress sockfd := by
  simp only [World.progress,h.read,h.written,h.toPeer,h.toRelay,h.peer,h.stdineof,h.status]

theorem Sound.progress_le (h : Sound (echoPeer size) sock.fd input w) :
    w.progress sock.fd ≤ 6*input.length+4 := by
  have htaken := congrArg List.length h.taken
  have hthere := congrArg List.length h.there
  have hto := congrArg List.length h.inv.toInv.bytes
  have hfr := congrArg List.length h.inv.frInv.bytes
  simp only [List.length_append] at htaken hthere hto hfr
  have hstdin := Bool.toNat_le w.relay.stdineof
  have hended := Bool.toNat_le w.peer.2
  have hclosed := Bool.toNat_le w.toRelay.closed
  have hstatus := Bool.toNat_le (decide (w.relay.status ≠ .running))
  simp only [World.progress]
  omega

def World.Well (input : List UInt8) (w : World S) : Prop :=
  w.relay.status = .running ∨
    w.relay.status = .returned ∧ bytesWritten stdoutFileno w.relay.log = input

def Further (cap size : ℕ) (sockfd : ℤ) (input : List UInt8) (w : World (List UInt8 × Bool)) :
    Prop :=
  ∃ t, Runs cap sockfd (echoPeer size).proc w t ∧ t.Well input ∧
    w.progress sockfd < t.progress sockfd

theorem Further.of_same (hruns : Runs cap sock.fd (echoPeer size).proc w t) (hsame : w.Same t)
    (h : Further cap size sock.fd input t) : Further cap size sock.fd input w := by
  obtain ⟨u,hu,hwell,hlt⟩ := h
  exact ⟨u,hruns.trans hu,hwell,by rwa [hsame.progress] at hlt⟩

theorem length_take_one {bytes : List UInt8} (hne : bytes ≠ []) : (bytes.take 1).length = 1 := by
  have hpos := List.length_pos_iff.mpr hne
  rw [List.length_take]
  omega

theorem Kept.further_stdout (h : Kept (echoPeer size) cap sock.fd input w)
    (hrun : w.relay.status = .running) (hsize : 0 < size) (hfr : w.relay.frBuf.pending ≠ []) :
    Further cap size sock.fd input w := by
  obtain ⟨t,hruns,hsame,-,hwset,hplace⟩ := h.pass (echoPeer_faithful hsize) hrun 2 (by decide)
  refine Further.of_same hruns hsame ?_
  have ht := hsame.status.trans hrun
  have hne : w.relay.frBuf.iptr ≠ w.relay.frBuf.optr := by
    intro heq
    exact hfr ((LinearBuffer.pending_eq_nil h.sound.inv.frInv.wellFormed).mpr heq.symm)
  have hm : stdoutFileno ∈ t.relay.wset := by
    rw [hwset,mem_interest_stdout]
    exact hne
  have hstep : t.step sock.fd (echoPeer size).proc (.call (some 0)) =
      some ((t.stdout (some 0)).settle sock.fd .sockOut) := by
    simp only [World.step,if_pos ht,World.call,hplace]
    rfl
  obtain ⟨hread,hsock,hwritten,hstatus,heof,-⟩ := writeStdout_accepts sock (s := t.relay) (some 0)
  refine ⟨_,runs_step rfl hstep (hsame.fits h.fits),Or.inl (hstatus.trans ht),?_⟩
  have hout := congrArg List.length (writeStdout_writes (some 0) hm)
  have hone := length_take_one (hsame.frBuf ▸ hfr)
  simp only [List.length_append,Option.elim_some,Nat.zero_add,hone] at hout
  simp only [World.progress,World.settle,World.stdout,hread,hsock,hwritten,hstatus,heof,hout]
  omega

theorem Kept.further_sock (h : Kept (echoPeer size) cap sock.fd input w)
    (hrun : w.relay.status = .running) (hsize : 0 < size) (hroom : w.relay.frBuf.iptr < maxLine)
    (hbytes : w.toRelay.bytes ≠ []) : Further cap size sock.fd input w := by
  obtain ⟨t,hruns,hsame,hrset,-,hplace⟩ := h.pass (echoPeer_faithful hsize) hrun 1 (by decide)
  refine Further.of_same hruns hsame ?_
  have ht := hsame.status.trans hrun
  have hm : sock.fd ∈ t.relay.rset := by
    rw [hrset,mem_interest_sock]
    exact hroom
  have hmin : min (0+1) (maxLine-t.relay.frBuf.iptr) = 1 := by
    rw [hsame.frBuf]
    omega
  have havail : t.toRelay.bytes ≠ [] := hsame.toRelay ▸ hbytes
  have hone := length_take_one havail
  obtain ⟨hread,hsock,hwritten,hout,hstatus,heof,-⟩ := readSocket_data sock (t.toRelay.bytes.take 1)
    hm (by rw [hone,hsame.frBuf]; omega)
  have hstep : t.step sock.fd (echoPeer size).proc (.call (some 0)) =
      some (World.settle sock.fd { t with
        relay := readSocket sock.fd (.data (t.toRelay.bytes.take 1)) t.relay
        toRelay := ⟨t.toRelay.bytes.drop 1,t.toRelay.closed⟩ } .stdout) := by
    simp only [World.step,if_pos ht,World.call,hplace,World.sock]
    simp only [Function.iterate_succ,Function.iterate_zero,Function.comp_apply,id_eq,Place.next,
      if_pos hm,hmin,if_pos (Or.inl havail),Option.map_some]
  have hne : t.toRelay.bytes.take 1 ≠ [] := List.ne_nil_of_length_pos (by omega)
  rw [if_neg hne] at hstatus
  refine ⟨_,runs_step rfl hstep ?_,Or.inl (hstatus.trans ht),?_⟩
  · have hfit := hsame.fits h.fits
    refine ⟨hfit.1,?_⟩
    simp only [World.settle,List.length_drop]
    exact (Nat.sub_le _ _).trans hfit.2
  · have hlen := congrArg List.length hsock
    have hpos := List.length_pos_iff.mpr havail
    simp only [List.length_append,hone] at hlen
    simp only [World.progress,World.settle,hread,hlen,hwritten,hout,hstatus,heof,List.length_drop]
    omega

theorem Kept.further_sockOut (h : Kept (echoPeer size) cap sock.fd input w)
    (hrun : w.relay.status = .running) (hsize : 0 < size) (hcap : 0 < cap)
    (hto : w.relay.toBuf.pending ≠ []) (hbytes : w.toPeer.bytes = []) :
    Further cap size sock.fd input w := by
  obtain ⟨t,hruns,hsame,-,hwset,hplace⟩ := h.pass (echoPeer_faithful hsize) hrun 3 (by decide)
  refine Further.of_same hruns hsame ?_
  have ht := hsame.status.trans hrun
  have hm : sock.fd ∈ t.relay.wset := by
    rw [hwset,mem_interest_sockOut]
    intro heq
    exact hto ((LinearBuffer.pending_eq_nil h.sound.inv.toInv.wellFormed).mpr heq)
  have hone := length_take_one (hsame.toBuf ▸ hto)
  have hstep : t.step sock.fd (echoPeer size).proc (.call (some 0)) =
      some (World.settle sock.fd { t with
        relay := writeSocket sock.fd (accepts (some 0)) t.relay
        toPeer := ⟨t.relay.toBuf.pending.take 1,t.toPeer.closed⟩ } .select) := by
    simp only [World.step,if_pos ht,World.call,hplace,World.sockOut]
    simp [Place.next,hm,hsame.toPeer,hbytes]
  obtain ⟨hread,hsock,hwritten,hout,hstatus,heof⟩ := writeSocket_accepts sock (some 0) hm
  refine ⟨_,runs_step rfl hstep ?_,Or.inl (hstatus.trans ht),?_⟩
  · refine ⟨?_,(hsame.fits h.fits).2⟩
    simp only [World.settle,hone]
    exact hcap
  · have hlen := congrArg List.length hwritten
    simp only [List.length_append,Option.elim_some,Nat.zero_add,hone] at hlen
    simp only [World.progress,World.settle,hread,hsock,hlen,hout,hstatus,heof,hone,hsame.toPeer,
      hbytes,List.length_nil]
    omega

theorem Kept.further_stdin (h : Kept (echoPeer size) cap sock.fd input w)
    (hrun : w.relay.status = .running) (hsize : 0 < size) (hopen : w.relay.stdineof = false)
    (hroom : w.relay.toBuf.iptr < maxLine) : Further cap size sock.fd input w := by
  obtain ⟨t,hruns,hsame,hrset,-,hplace⟩ := h.pass (echoPeer_faithful hsize) hrun 0 (by decide)
  refine Further.of_same hruns hsame ?_
  have ht := hsame.status.trans hrun
  have hm : stdinFileno ∈ t.relay.rset := by
    rw [hrset,mem_interest_stdin]
    exact ⟨hopen,hroom⟩
  have hmin : min (0+1) (maxLine-t.relay.toBuf.iptr) = 1 := by
    rw [hsame.toBuf]
    omega
  obtain ⟨hread,hsock,hwritten,hout,hstatus,heof⟩ := readStdin_data sock (t.input.take 1) hm
    (by rw [List.length_take,hsame.toBuf]; omega)
  have hstep : t.step sock.fd (echoPeer size).proc (.call (some 0)) =
      some (World.settle sock.fd { t with
        relay := readStdin sock.fd (.data (t.input.take 1)) t.relay
        input := t.input.drop 1 } .sock) := by
    simp only [World.step,if_pos ht,World.call,hplace,Function.iterate_zero,id_eq,World.stdin,
      if_pos hm,hmin]
  refine ⟨_,runs_step rfl hstep (hsame.fits h.fits),Or.inl (hstatus.trans ht),?_⟩
  have hlen := congrArg List.length hread
  rw [List.length_append] at hlen
  rw [hsame.stdineof,hopen,Bool.false_or] at heof
  simp only [World.progress,World.settle,hlen,hsock,hwritten,hout,hstatus,heof,hsame.stdineof,hopen]
  cases hin : t.input with
  | nil => simp
  | cons b bs => simp

theorem Kept.further_peer (h : Kept (echoPeer size) cap sock.fd input w)
    (hrun : w.relay.status = .running) {a : Io} {e : Endpoint (List UInt8 × Bool)}
    (hsmooth : a.smooth = true) (hio : (echo size).io w.endpoint a = some e)
    (hinp : e.inp.bytes.length ≤ w.toPeer.bytes.length) (hout : e.out.bytes.length ≤ cap)
    (hmore : w.toRelay.bytes.length+w.peer.2.toNat+w.toRelay.closed.toNat+
        (w.toPeer.bytes.length-e.inp.bytes.length) <
      e.out.bytes.length+e.proc.2.toNat+e.out.closed.toNat+
        2*(w.toPeer.bytes.length-e.inp.bytes.length)) :
    Further cap size sock.fd input w := by
  have hstep : w.step sock.fd (echoPeer size).proc (.peer a) =
      some { w with peer := e.proc, toPeer := e.inp, toRelay := e.out } :=
    Option.map_eq_some_iff.mpr ⟨e,hio,rfl⟩
  refine ⟨_,runs_step (a := .peer a) hsmooth hstep ⟨hinp.trans h.fits.1,hout⟩,Or.inl hrun,?_⟩
  have hthere := congrArg List.length h.sound.there
  simp only [List.length_append] at hthere
  simp only [World.progress]
  omega

theorem Kept.further_held (h : Kept (echoPeer size) cap sock.fd input w)
    (hrun : w.relay.status = .running) (hcap : 0 < cap) (hbytes : w.toRelay.bytes = [])
    (hheld : w.peer.1 ≠ []) : Further cap size sock.fd input w := by
  have hpending : (echo size).pending w.peer = .write w.peer.1 := by simp only [echo,if_pos hheld]
  have hopen : w.toRelay.closed = false := by
    by_contra hclosed
    have hexited := h.sound.exits (by simpa using hclosed)
    rw [echoPeer,hpending] at hexited
    cases hexited
  have hone := length_take_one hheld
  have hio : (echo size).io w.endpoint (.write 0) =
      some ⟨(echo size).onWrite w.peer (.accepted (w.peer.1.take 1).length),w.toPeer,
        ⟨w.toRelay.bytes ++ w.peer.1.take 1,false⟩⟩ := by
    simp [Process.io,World.endpoint,hpending,hopen]
  refine h.further_peer hrun rfl hio (le_refl _) ?_ ?_
  · simp only [hbytes,List.nil_append,hone]
    exact hcap
  · simp [hbytes,hone,hopen,echo]

theorem Kept.further_toPeer (h : Kept (echoPeer size) cap sock.fd input w)
    (hrun : w.relay.status = .running) (hsize : 0 < size) (hheld : w.peer.1 = [])
    (hbytes : w.toPeer.bytes ≠ []) : Further cap size sock.fd input w := by
  have hended : w.peer.2 = false := by
    by_contra hend
    have hpipe := h.sound.ended (by simpa [echoPeer] using hend)
    rw [hpipe] at hbytes
    exact hbytes rfl
  have hpending : (echo size).pending w.peer = .read size := by simp [echo,hheld,hended]
  have hmin : min (0+1) size = 1 := by omega
  have hpos := List.length_pos_iff.mpr hbytes
  have hio : (echo size).io w.endpoint (.read 0) =
      some ⟨(echo size).onRead w.peer (.data (w.toPeer.bytes.take 1)),
        ⟨w.toPeer.bytes.drop 1,w.toPeer.closed⟩,w.toRelay⟩ := by
    simp only [Process.io,World.endpoint,hpending,hmin,if_pos hbytes]
  refine h.further_peer hrun rfl hio (by simp) h.fits.2 ?_
  simp only [List.length_drop,hended,echo,Bool.false_or]
  have hne : (w.toPeer.bytes.take 1).isEmpty = false := by simpa using hbytes
  rw [hne]
  omega

theorem Kept.further_eof (h : Kept (echoPeer size) cap sock.fd input w)
    (hrun : w.relay.status = .running) (hheld : w.peer.1 = []) (hended : w.peer.2 = false)
    (hpipe : w.toPeer = ⟨[],true⟩) : Further cap size sock.fd input w := by
  have hpending : (echo size).pending w.peer = .read size := by simp [echo,hheld,hended]
  have hio : (echo size).io w.endpoint (.read 0) =
      some ⟨(echo size).onRead w.peer (.data []),w.toPeer,w.toRelay⟩ := by
    simp [Process.io,World.endpoint,hpending,hpipe]
  refine h.further_peer hrun rfl hio (le_refl _) h.fits.2 ?_
  simp [echo,hended]

theorem Kept.further_close (h : Kept (echoPeer size) cap sock.fd input w)
    (hrun : w.relay.status = .running) (hheld : w.peer.1 = []) (hended : w.peer.2 = true)
    (hopen : w.toRelay.closed = false) : Further cap size sock.fd input w := by
  have hpending : (echo size).pending w.peer = .exited := by simp [echo,hheld,hended]
  have hio : (echo size).io w.endpoint .close =
      some ⟨w.peer,w.toPeer,⟨w.toRelay.bytes,true⟩⟩ := by
    simp [Process.io,World.endpoint,hpending]
  refine h.further_peer hrun rfl hio (le_refl _) h.fits.2 ?_
  simp [hopen]

theorem Kept.further_return (h : Kept (echoPeer size) cap sock.fd input w)
    (hrun : w.relay.status = .running) (hsize : 0 < size) (hroom : w.relay.frBuf.iptr < maxLine)
    (hpipe : w.toRelay = ⟨[],true⟩) (hend : w.relay.stdineof = true)
    (hall : bytesWritten stdoutFileno w.relay.log = input) :
    Further cap size sock.fd input w := by
  obtain ⟨t,hruns,hsame,hrset,-,hplace⟩ := h.pass (echoPeer_faithful hsize) hrun 1 (by decide)
  refine Further.of_same hruns hsame ?_
  have ht := hsame.status.trans hrun
  have hm : sock.fd ∈ t.relay.rset := by
    rw [hrset,mem_interest_sock]
    exact hroom
  obtain ⟨hread,hsock,hwritten,hout,hstatus,heof,-⟩ := readSocket_data sock [] hm (by simp)
  rw [if_pos rfl,hsame.stdineof,if_pos hend] at hstatus
  have hstep : t.step sock.fd (echoPeer size).proc (.call (some 0)) =
      some (World.settle sock.fd { t with relay := readSocket sock.fd (.data []) t.relay }
        .stdout) := by
    simp only [World.step,if_pos ht,World.call,hplace,World.sock,hsame.toRelay,hpipe]
    simp [Place.next,hm,← hpipe,← hsame.toRelay]
  refine ⟨_,runs_step rfl hstep (hsame.fits h.fits),Or.inr ⟨hstatus,?_⟩,?_⟩
  · exact hout.trans ((hsame.written _).trans hall)
  · simp only [World.progress,World.settle,hread,hsock,hwritten,hout,hstatus,heof,ht]
    simp

/-- While the relay runs, someone can move. -/
theorem Kept.further (h : Kept (echoPeer size) cap sock.fd input w)
    (hrun : w.relay.status = .running) (hsize : 0 < size) (hcap : 0 < cap) :
    Further cap size sock.fd input w := by
  have hto := h.sound.inv.toInv.wellFormed
  have hfr := h.sound.inv.frInv.wellFormed
  by_cases hout : w.relay.frBuf.pending = []
  swap
  · exact h.further_stdout hrun hsize hout
  have hroomFr := room_of_empty hfr ((LinearBuffer.pending_eq_nil hfr).mp hout)
  by_cases hback : w.toRelay.bytes = []
  swap
  · exact h.further_sock hrun hsize hroomFr hback
  by_cases hheld : w.peer.1 = []
  swap
  · exact h.further_held hrun hcap hback hheld
  by_cases hthere : w.toPeer.bytes = []
  swap
  · exact h.further_toPeer hrun hsize hheld hthere
  by_cases hbuf : w.relay.toBuf.pending = []
  swap
  · exact h.further_sockOut hrun hsize hcap hbuf hthere
  have hempty := (LinearBuffer.pending_eq_nil hto).mp hbuf
  cases hend : w.relay.stdineof with
  | false => exact h.further_stdin hrun hsize hend (room_of_empty hto hempty)
  | true =>
    have hpipe : w.toPeer = ⟨[],true⟩ := Pipe.ext hthere (h.sound.shut.mpr ⟨hend,hempty⟩)
    cases hended : w.peer.2 with
    | false => exact h.further_eof hrun hheld hended hpipe
    | true =>
      cases hclosed : w.toRelay.closed with
      | false => exact h.further_close hrun hheld hended hclosed
      | true =>
        have hwhole := h.sound.whole
        have hnil : (echoPeer size).held w.peer = [] := hheld
        rw [hout,hback,hnil,hthere,hbuf,h.sound.eof hend] at hwhole
        exact h.further_return hrun hsize hroomFr (Pipe.ext hback hclosed) hend
          (by simpa using hwhole)

end Progress

/-- However few bytes the two directions hold, and wherever a run has come to: while the relay
is running, it can still return with all of its input on standard output. -/
theorem echo_completes {cap size : ℕ} (hcap : 0 < cap) (hsize : 0 < size) (sock : Socket)
    (input : List UInt8) (toMem frMem : Memory UInt8) (w : World (List UInt8 × Bool))
    (h : Runs cap sock.fd (echoPeer size).proc
      (World.start input toMem frMem (echoPeer size).init) w)
    (hrun : w.relay.status = .running) :
    ∃ t, Runs cap sock.fd (echoPeer size).proc w t ∧ t.relay.status = .returned ∧
      bytesWritten stdoutFileno t.relay.log = input := by
  have hstart : Kept (echoPeer size) cap sock.fd input
      (World.start input toMem frMem (echoPeer size).init) :=
    ⟨start_sound _ sock input toMem frMem,Nat.zero_le _,Nat.zero_le _⟩
  have hkept := hstart.runs (echoPeer_faithful hsize) h
  obtain ⟨t,hruns,⟨-,hwell⟩,hret⟩ := Reachable.descend
    (I := fun x => Kept (echoPeer size) cap sock.fd input x ∧ x.Well input)
    (G := fun x => x.relay.status = .returned)
    (fun x => 6*input.length+4-x.progress sock.fd)
    (by
      rintro x ⟨hx,hwell⟩ hgoal
      have hxrun := hwell.resolve_right fun hret => hgoal hret.1
      obtain ⟨y,hy,hwell',hlt⟩ := hx.further hxrun hsize hcap
      have hy' := hx.runs (echoPeer_faithful hsize) hy
      have hle := hy'.sound.progress_le
      exact ⟨y,hy,⟨hy',hwell'⟩,by omega⟩)
    ⟨hkept,Or.inl hrun⟩
  rcases hwell with hxrun | ⟨-,hall⟩
  · rw [hret] at hxrun
    cases hxrun
  · exact ⟨t,hruns,hret,hall⟩

/-- Three bytes through directions that hold one byte each. -/
theorem echo_completes_sample : ∃ t, Runs 1 sampleSocket.fd (echoPeer 1).proc
      (World.start [1,2,3] sampleMem sampleMem (echoPeer 1).init) t ∧
    t.relay.status = .returned ∧ bytesWritten stdoutFileno t.relay.log = [1,2,3] :=
  echo_completes (by decide) (by decide) sampleSocket [1,2,3] sampleMem sampleMem _ (.refl _) rfl

end UnlockStrCli
end CPrograming
