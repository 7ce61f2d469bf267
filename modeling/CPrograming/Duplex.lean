import CPrograming.Connection

/-!
# Two threads and a peer

A program has one thread that writes to a connection and another that reads from it, and
ends with the second. At the other end is a peer that reads and writes. Each direction
holds a bounded number of bytes. If each of the three does its work at some price for each
byte, and the reader and the peer go on until their input ends, then none of them waits for
ever, and the end of the writer's output passes through all of them.
-/

namespace CPrograming
namespace Duplex

open Runs Connection

variable {S A B C : Type*}

structure Past where
  got : List UInt8
  put : List UInt8
  eof : Bool

def Past.none : Past := ⟨[],[],false⟩

/-- `Keeps x s` relates a state of the process to its past, and `cost s` bounds the number of
things that it still does by itself. A byte that it reads may add `inPrice` to the cost, and a
byte that it writes has to take `outPrice` from it. -/
structure Stage (P : Process S) (inPrice outPrice : ℕ) where
  Keeps : Past → S → Prop
  cost : S → ℕ
  asks : ∀ x s len, Keeps x s → P.pending s = .read len → 0 < len
  offers : ∀ x s bytes, Keeps x s → P.pending s = .write bytes → bytes ≠ []
  data : ∀ x s len new, Keeps x s → P.pending s = .read len → new ≠ [] → new.length ≤ len →
    Keeps { x with got := x.got ++ new } (P.onRead s (.data new)) ∧
      cost (P.onRead s (.data new))+1 ≤ cost s+inPrice*new.length
  ended : ∀ x s len, Keeps x s → P.pending s = .read len →
    Keeps { x with eof := true } (P.onRead s (.data [])) ∧ cost (P.onRead s (.data []))+1 ≤ cost s
  sent : ∀ x s new rest, Keeps x s → P.pending s = .write (new ++ rest) → new ≠ [] →
    Keeps { x with put := x.put ++ new } (P.onWrite s (.accepted new.length)) ∧
      cost (P.onWrite s (.accepted new.length))+1+outPrice*new.length ≤ cost s
  interrupted : ∀ x s len, Keeps x s → P.pending s = .read len →
    Keeps x (P.onRead s (.fail .eintr)) ∧ cost (P.onRead s (.fail .eintr)) ≤ cost s
  refused : ∀ x s bytes, Keeps x s → P.pending s = .write bytes →
    Keeps x (P.onWrite s (.fail .eintr)) ∧ cost (P.onWrite s (.fail .eintr)) ≤ cost s
  computes : ∀ x s, Keeps x s → P.pending s = .compute →
    Keeps x (P.compute s) ∧ cost (P.compute s)+1 ≤ cost s

section Steps

variable {P : Process S} {inPrice outPrice : ℕ}

structure Stage.Goes (D : Stage P inPrice outPrice) (x : Past) (e t : Endpoint S) (busy : Bool)
    (y : Past) (new put : List UInt8) : Prop where
  keeps : D.Keeps y t.proc
  got : y.got = x.got ++ new
  wrote : y.put = x.put ++ put
  inp : e.inp.bytes = new ++ t.inp.bytes
  out : t.out.bytes = e.out.bytes ++ put
  eof : y.eof = true → t.inp = ⟨[],true⟩
  cost : D.cost t.proc+busy.toNat+outPrice*put.length ≤ D.cost e.proc+inPrice*new.length

variable {D : Stage P inPrice outPrice} {x : Past} {e t : Endpoint S} {a : Io}

theorem Stage.goes_quiet (heof : x.eof = true → e.inp = ⟨[],true⟩) {s : S} {busy : Bool}
    (hkeeps : D.Keeps x s) (hcost : D.cost s+busy.toNat ≤ D.cost e.proc) (closed : Bool) :
    D.Goes x e ⟨s,e.inp,⟨e.out.bytes,closed⟩⟩ busy x [] [] where
  keeps := hkeeps
  got := (List.append_nil _).symm
  wrote := (List.append_nil _).symm
  inp := rfl
  out := (List.append_nil _).symm
  eof := heof
  cost := by simpa using hcost

theorem Stage.step (D : Stage P inPrice outPrice) (h : D.Keeps x e.proc)
    (heof : x.eof = true → e.inp = ⟨[],true⟩)
    (hstep : restrict (fun _ a => Io.smooth a = true) P.io e a = some t) :
    ∃ y new put, D.Goes x e t a.busy y new put := by
  obtain ⟨hsmooth,hio⟩ := restrict_eq_some.mp hstep
  cases io_moved hio with
  | @data len k new rest hp hin hne hlen havail =>
    obtain ⟨hkeeps,hcost⟩ := D.data x _ len new h hp (hne (D.asks x _ len h hp)) hlen
    refine ⟨_,new,[],hkeeps,rfl,(List.append_nil _).symm,hin,(List.append_nil _).symm,?_,?_⟩
    · intro hended
      simp [heof hended] at havail
    · simpa [Io.busy] using hcost
  | @eof len k hp hin hclosed =>
    obtain ⟨hkeeps,hcost⟩ := D.ended x _ len h hp
    exact ⟨_,[],[],hkeeps,(List.append_nil _).symm,(List.append_nil _).symm,rfl,
      (List.append_nil _).symm,fun _ => Pipe.ext hin hclosed,by simpa [Io.busy] using hcost⟩
  | readFail hp =>
    obtain rfl : _ = Errno.eintr := of_decide_eq_true hsmooth
    obtain ⟨hkeeps,hcost⟩ := D.interrupted x _ _ h hp
    exact ⟨x,[],[],D.goes_quiet heof hkeeps (by simpa [Io.busy] using hcost) e.out.closed⟩
  | @sent k new rest hp hne hopen =>
    obtain ⟨hkeeps,hcost⟩ := D.sent x _ new rest h hp (hne (D.offers x _ _ h hp))
    exact ⟨_,[],new,hkeeps,(List.append_nil _).symm,rfl,rfl,rfl,heof,by simpa [Io.busy] using hcost⟩
  | writeFail hp =>
    obtain rfl : _ = Errno.eintr := of_decide_eq_true hsmooth
    obtain ⟨hkeeps,hcost⟩ := D.refused x _ _ h hp
    exact ⟨x,[],[],D.goes_quiet heof hkeeps (by simpa [Io.busy] using hcost) _⟩
  | compute hp =>
    obtain ⟨hkeeps,hcost⟩ := D.computes x _ h hp
    exact ⟨x,[],[],D.goes_quiet heof hkeeps (by simpa [Io.busy] using hcost) e.out.closed⟩
  | close hp => exact ⟨x,[],[],D.goes_quiet heof h (by simp [Io.busy]) true⟩

end Steps

structure World (A B C : Type*) where
  writer : A
  peer : B
  reader : C
  toPeer : Pipe
  toReader : Pipe

inductive Act
  | writer (a : Io)
  | peer (a : Io)
  | reader (a : Io)
  deriving DecidableEq, Repr

def Act.io : Act → Io
  | .writer a | .peer a | .reader a => a

def Act.smooth (a : Act) : Bool := a.io.smooth

def Act.busy (a : Act) : Bool := a.io.busy

section World

variable (W : Process A) (Q : Process B) (R : Process C)

def World.withWriter (s : World A B C) (e : Endpoint A) : World A B C :=
  { s with writer := e.proc, toPeer := e.out }

def World.withPeer (s : World A B C) (e : Endpoint B) : World A B C :=
  { s with peer := e.proc, toPeer := e.inp, toReader := e.out }

/-- The program ends with the reader, and so does the direction of the writer. -/
def World.withReader (s : World A B C) (e : Endpoint C) : World A B C :=
  { s with
    reader := e.proc
    toReader := e.inp
    toPeer := ⟨s.toPeer.bytes,s.toPeer.closed || e.out.closed⟩ }

def World.step (s : World A B C) : Act → Option (World A B C)
  | .writer a =>
    if R.pending s.reader = .exited then none
    else (W.io ⟨s.writer,⟨[],false⟩,s.toPeer⟩ a).map s.withWriter
  | .peer a => (Q.io ⟨s.peer,s.toPeer,s.toReader⟩ a).map s.withPeer
  | .reader a => (R.io ⟨s.reader,s.toReader,⟨[],false⟩⟩ a).map s.withReader

def World.Fits (cap : ℕ) (s : World A B C) : Prop :=
  s.toPeer.bytes.length ≤ cap ∧ s.toReader.bytes.length ≤ cap

instance (cap : ℕ) (s : World A B C) : Decidable (s.Fits cap) :=
  inferInstanceAs (Decidable (_ ∧ _))

/-- A step after which each direction holds at most `cap` bytes. -/
def World.boundedStep (cap : ℕ) (s : World A B C) (a : Act) : Option (World A B C) :=
  (s.step W Q R a).filter fun t => decide (t.Fits cap)

def smoothStep (cap : ℕ) : World A B C → Act → Option (World A B C) :=
  restrict (fun _ a => Act.smooth a = true) (World.boundedStep W Q R cap)

variable {W Q R}

theorem smoothStep_eq_some {cap : ℕ} {s t : World A B C} {a : Act} :
    smoothStep W Q R cap s a = some t ↔ a.smooth = true ∧ s.step W Q R a = some t ∧ t.Fits cap := by
  simp [smoothStep,World.boundedStep,Option.filter_eq_some_iff]

variable {s : World A B C} {cap : ℕ} {a : Io}

theorem smoothStep_writer {e : Endpoint A} (hrun : R.pending s.reader ≠ .exited)
    (hsmooth : a.smooth = true) (hio : W.io ⟨s.writer,⟨[],false⟩,s.toPeer⟩ a = some e)
    (hfits : (s.withWriter e).Fits cap) :
    smoothStep W Q R cap s (.writer a) = some (s.withWriter e) := by
  refine smoothStep_eq_some.mpr ⟨hsmooth,?_,hfits⟩
  simp only [World.step,if_neg hrun,hio,Option.map_some]

theorem smoothStep_peer {e : Endpoint B} (hsmooth : a.smooth = true)
    (hio : Q.io ⟨s.peer,s.toPeer,s.toReader⟩ a = some e) (hfits : (s.withPeer e).Fits cap) :
    smoothStep W Q R cap s (.peer a) = some (s.withPeer e) := by
  refine smoothStep_eq_some.mpr ⟨hsmooth,?_,hfits⟩
  simp only [World.step,hio,Option.map_some]

theorem smoothStep_reader {e : Endpoint C} (hsmooth : a.smooth = true)
    (hio : R.io ⟨s.reader,s.toReader,⟨[],false⟩⟩ a = some e) (hfits : (s.withReader e).Fits cap) :
    smoothStep W Q R cap s (.reader a) = some (s.withReader e) := by
  refine smoothStep_eq_some.mpr ⟨hsmooth,?_,hfits⟩
  simp only [World.step,hio,Option.map_some]

end World

/-- The three processes as stages: a byte costs the same at both ends of a direction. The writer
does not read, and the other two exit only at the end of their input. -/
structure Trio (W : Process A) (Q : Process B) (R : Process C) where
  toPeer : ℕ
  toReader : ℕ
  writer : Stage W 0 toPeer
  peer : Stage Q toPeer toReader
  reader : Stage R toReader 0
  mute : ∀ x s len, writer.Keeps x s → W.pending s ≠ .read len
  peer_exits : ∀ x s, peer.Keeps x s → Q.pending s = .exited → x.eof = true
  reader_exits : ∀ x s, reader.Keeps x s → R.pending s = .exited → x.eof = true

section Flow

variable {W : Process A} {Q : Process B} {R : Process C}

/-- Each direction has taken what the one process has written and holds what the other has not
read, and an end is seen only behind all of the bytes. -/
structure Trio.Flows (T : Trio W Q R) (x y z : Past) (s : World A B C) : Prop where
  writer : T.writer.Keeps x s.writer
  peer : T.peer.Keeps y s.peer
  reader : T.reader.Keeps z s.reader
  there : x.put = y.got ++ s.toPeer.bytes
  back : y.put = z.got ++ s.toReader.bytes
  writer_eof : x.eof = false
  peer_eof : y.eof = true → s.toPeer = ⟨[],true⟩
  reader_eof : z.eof = true → s.toReader = ⟨[],true⟩
  shut : s.toPeer.closed = true → W.pending s.writer = .exited
  closed : s.toReader.closed = true → Q.pending s.peer = .exited

def Trio.rank (T : Trio W Q R) (s : World A B C) : ℕ :=
  T.writer.cost s.writer+(!s.toPeer.closed).toNat+T.toPeer*s.toPeer.bytes.length+
    T.peer.cost s.peer+(!s.toReader.closed).toNat+T.toReader*s.toReader.bytes.length+
    T.reader.cost s.reader

variable {T : Trio W Q R} {x y z : Past} {s t : World A B C}

theorem Trio.Flows.finished (h : T.Flows x y z s) (hexit : R.pending s.reader = .exited) :
    s.toReader = ⟨[],true⟩ ∧ s.toPeer = ⟨[],true⟩ ∧ Q.pending s.peer = .exited ∧
      W.pending s.writer = .exited := by
  have hback := h.reader_eof (T.reader_exits z _ h.reader hexit)
  have hpeer := h.closed (by rw [hback])
  have hthere := h.peer_eof (T.peer_exits y _ h.peer hpeer)
  exact ⟨hback,hthere,hpeer,h.shut (by rw [hthere])⟩

theorem closed_toNat {p q : Pipe} (h : p.closed = true → q.closed = true) :
    (!q.closed).toNat ≤ (!p.closed).toNat := by
  cases hp : p.closed
  · cases q.closed <;> simp
  · simp [h hp]

theorem out_closed {P : Process S} {e u : Endpoint S} {a : Io} (hp : P.pending e.proc = .exited)
    (hclosed : e.out.closed = true)
    (hstep : restrict (fun _ a => Io.smooth a = true) P.io e a = some u) : u.out = e.out := by
  obtain ⟨-,hio⟩ := restrict_eq_some.mp hstep
  cases io_moved hio with
  | data hp' | eof hp' | readFail hp' | sent hp' | writeFail hp' | compute hp' =>
    simp [hp] at hp'
  | close => exact Pipe.ext rfl hclosed.symm

theorem Trio.Flows.write_step (h : T.Flows x y z s) {a : Io} {e : Endpoint A}
    (hstep : restrict (fun _ a => Io.smooth a = true) W.io ⟨s.writer,⟨[],false⟩,s.toPeer⟩ a =
      some e) :
    (∃ x', T.Flows x' y z (s.withWriter e)) ∧
      T.rank (s.withWriter e)+a.busy.toNat ≤ T.rank s := by
  obtain ⟨x',new,put,hgoes⟩ := T.writer.step h.writer (by simp [h.writer_eof]) hstep
  obtain ⟨hinp,hshut⟩ := closed_step (e := ⟨s.writer,⟨[],false⟩,s.toPeer⟩) h.shut hstep
  have hstays : s.toPeer.closed = true → e.out = s.toPeer := fun hclosed =>
    out_closed (e := ⟨s.writer,⟨[],false⟩,s.toPeer⟩) (h.shut hclosed) hclosed hstep
  have hout : e.out.bytes = s.toPeer.bytes ++ put := hgoes.out
  refine ⟨⟨x',hgoes.keeps,h.peer,h.reader,?_,h.back,?_,?_,h.reader_eof,hshut,h.closed⟩,?_⟩
  · rw [hgoes.wrote,h.there,List.append_assoc,← hout]
    rfl
  · by_contra heof
    rw [hgoes.eof (by simpa using heof)] at hinp
    cases hinp
  · intro heof
    have hpeer := h.peer_eof heof
    exact (hstays (by rw [hpeer])).trans hpeer
  · have hcost : T.writer.cost e.proc+a.busy.toNat+T.toPeer*put.length ≤
        T.writer.cost s.writer := by
      simpa using hgoes.cost
    have hopen := closed_toNat fun hclosed => (hstays hclosed).symm ▸ hclosed
    simp only [Trio.rank,World.withWriter,hout,List.length_append,Nat.mul_add]
    omega

theorem Trio.Flows.peer_step (h : T.Flows x y z s) {a : Io} {e : Endpoint B}
    (hstep : restrict (fun _ a => Io.smooth a = true) Q.io ⟨s.peer,s.toPeer,s.toReader⟩ a =
      some e) :
    (∃ y', T.Flows x y' z (s.withPeer e)) ∧ T.rank (s.withPeer e)+a.busy.toNat ≤ T.rank s := by
  obtain ⟨y',new,put,hgoes⟩ := T.peer.step h.peer h.peer_eof hstep
  obtain ⟨hinp,hclosed⟩ := closed_step (e := ⟨s.peer,s.toPeer,s.toReader⟩) h.closed hstep
  have hstays : s.toReader.closed = true → e.out = s.toReader := fun hclosed =>
    out_closed (e := ⟨s.peer,s.toPeer,s.toReader⟩) (h.closed hclosed) hclosed hstep
  have hin : s.toPeer.bytes = new ++ e.inp.bytes := hgoes.inp
  have hout : e.out.bytes = s.toReader.bytes ++ put := hgoes.out
  refine ⟨⟨y',h.writer,hgoes.keeps,h.reader,?_,?_,h.writer_eof,hgoes.eof,?_,?_,hclosed⟩,?_⟩
  · rw [hgoes.got,h.there,hin,List.append_assoc]
    rfl
  · rw [hgoes.wrote,h.back,List.append_assoc,← hout]
    rfl
  · intro heof
    have hback := h.reader_eof heof
    exact (hstays (by rw [hback])).trans hback
  · intro hshut
    exact h.shut (hinp ▸ hshut)
  · have hcost := hgoes.cost
    have hopen := closed_toNat fun hclosed => (hstays hclosed).symm ▸ hclosed
    dsimp only at hinp hcost
    simp only [Trio.rank,World.withPeer,hin,hout,hinp,List.length_append,Nat.mul_add]
    omega

theorem Trio.Flows.read_step (h : T.Flows x y z s) {a : Io} {e : Endpoint C}
    (hstep : restrict (fun _ a => Io.smooth a = true) R.io ⟨s.reader,s.toReader,⟨[],false⟩⟩ a =
      some e) :
    (∃ z', T.Flows x y z' (s.withReader e)) ∧
      T.rank (s.withReader e)+a.busy.toNat ≤ T.rank s := by
  obtain ⟨z',new,put,hgoes⟩ := T.reader.step h.reader h.reader_eof hstep
  obtain ⟨hinp,hexit⟩ := closed_step (e := ⟨s.reader,s.toReader,⟨[],false⟩⟩) (by simp) hstep
  have hin : s.toReader.bytes = new ++ e.inp.bytes := hgoes.inp
  have hsame : (⟨s.toPeer.bytes,s.toPeer.closed || e.out.closed⟩ : Pipe) = s.toPeer := by
    refine Pipe.ext rfl ?_
    cases hout : e.out.closed with
    | false => simp
    | true =>
      have hback := hgoes.eof (T.reader_exits z' _ hgoes.keeps (hexit hout))
      have hp := h.closed (by rw [← hinp,hback])
      simp [h.peer_eof (T.peer_exits y _ h.peer hp)]
  rw [World.withReader,hsame]
  refine ⟨⟨z',h.writer,h.peer,hgoes.keeps,h.there,?_,h.writer_eof,h.peer_eof,hgoes.eof,h.shut,
    ?_⟩,?_⟩
  · rw [hgoes.got,h.back,hin,List.append_assoc]
  · intro hclosed
    exact h.closed (hinp ▸ hclosed)
  · have hcost := hgoes.cost
    dsimp only at hinp hcost
    simp only [Trio.rank,hin,hinp,List.length_append,Nat.mul_add]
    omega

/-- Every step keeps the flow, none adds work, and those that get on take some away. -/
theorem Trio.Flows.step (h : T.Flows x y z s) {cap : ℕ} {a : Act}
    (hstep : smoothStep W Q R cap s a = some t) :
    (∃ x' y' z', T.Flows x' y' z' t) ∧ T.rank t+a.busy.toNat ≤ T.rank s := by
  obtain ⟨hsmooth,hmove,-⟩ := smoothStep_eq_some.mp hstep
  cases a with
  | writer a =>
    simp only [World.step] at hmove
    split_ifs at hmove
    obtain ⟨e,he,rfl⟩ := Option.map_eq_some_iff.mp hmove
    obtain ⟨⟨x',hflows⟩,hrank⟩ := h.write_step (restrict_eq_some.mpr ⟨hsmooth,he⟩)
    exact ⟨⟨x',y,z,hflows⟩,hrank⟩
  | peer a =>
    obtain ⟨e,he,rfl⟩ := Option.map_eq_some_iff.mp hmove
    obtain ⟨⟨y',hflows⟩,hrank⟩ := h.peer_step (restrict_eq_some.mpr ⟨hsmooth,he⟩)
    exact ⟨⟨x,y',z,hflows⟩,hrank⟩
  | reader a =>
    obtain ⟨e,he,rfl⟩ := Option.map_eq_some_iff.mp hmove
    obtain ⟨⟨z',hflows⟩,hrank⟩ := h.read_step (restrict_eq_some.mpr ⟨hsmooth,he⟩)
    exact ⟨⟨x,y,z',hflows⟩,hrank⟩

end Flow

section Progress

variable {W : Process A} {Q : Process B} {R : Process C} {T : Trio W Q R} {x y z : Past}
  {s : World A B C} {cap : ℕ}

theorem busy_step {P : Process S} {e : Endpoint S} (hopen : e.out.closed = false)
    (hread : ∀ len, P.pending e.proc = .read len → e.inp.bytes ≠ [] ∨ e.inp.closed = true)
    (hrun : P.pending e.proc ≠ .exited) :
    ∃ a u, a.smooth = true ∧ a.busy = true ∧ P.io e a = some u ∧
      u.inp.bytes.length ≤ e.inp.bytes.length ∧ u.out.bytes.length ≤ e.out.bytes.length+1 := by
  cases hp : P.pending e.proc with
  | read len =>
    by_cases hne : e.inp.bytes = []
    · have hclosed := (hread len hp).resolve_left (not_not.mpr hne)
      have hio : P.io e (.read 0) = some ⟨P.onRead e.proc (.data []),e.inp,e.out⟩ := by
        simp only [Process.io,hp,if_neg (not_not.mpr hne),if_pos hclosed]
      exact ⟨_,_,rfl,rfl,hio,le_refl _,Nat.le_succ _⟩
    · have hio : P.io e (.read 0) =
          some ⟨P.onRead e.proc (.data (e.inp.bytes.take (min (0+1) len))),
            ⟨e.inp.bytes.drop (min (0+1) len),e.inp.closed⟩,e.out⟩ := by
        simp only [Process.io,hp,if_pos hne]
      refine ⟨_,_,rfl,rfl,hio,?_,Nat.le_succ _⟩
      simp
  | write bytes =>
    have hio : P.io e (.write 0) = some ⟨P.onWrite e.proc (.accepted (bytes.take (0+1)).length),
        e.inp,⟨e.out.bytes ++ bytes.take (0+1),false⟩⟩ := by
      simp only [Process.io,hp,hopen]
      rfl
    refine ⟨_,_,rfl,rfl,hio,le_refl _,?_⟩
    simp only [List.length_append,List.length_take]
    omega
  | compute => exact ⟨_,_,rfl,rfl,io_compute hp,le_refl _,Nat.le_succ _⟩
  | exited => exact absurd hp hrun

theorem io_close {P : Process S} {e : Endpoint S} (hp : P.pending e.proc = .exited) :
    P.io e .close = some ⟨e.proc,e.inp,⟨e.out.bytes,true⟩⟩ := by
  simp only [Process.io,hp]

theorem lower_of_busy {s t : World A B C} {a : Act} (hrank : T.rank t+a.busy.toNat ≤ T.rank s)
    (hbusy : a.busy = true) : T.rank t < T.rank s := by
  rw [hbusy] at hrank
  exact hrank

theorem Trio.Flows.reader_moves (h : T.Flows x y z s) (hfits : s.Fits cap)
    (hread : ∀ len, R.pending s.reader = .read len →
      s.toReader.bytes ≠ [] ∨ s.toReader.closed = true) (hrun : R.pending s.reader ≠ .exited) :
    ∃ a t, smoothStep W Q R cap s a = some t ∧ T.rank t < T.rank s := by
  obtain ⟨a,u,hsmooth,hbusy,hio,hin,-⟩ := busy_step (P := R)
    (e := ⟨s.reader,s.toReader,⟨[],false⟩⟩) rfl hread hrun
  have hmoves := smoothStep_reader (W := W) (Q := Q) hsmooth hio ⟨hfits.1,hin.trans hfits.2⟩
  exact ⟨_,_,hmoves,lower_of_busy (h.step hmoves).2 hbusy⟩

theorem Trio.Flows.peer_moves (h : T.Flows x y z s) (hcap : 0 < cap) (hfits : s.Fits cap)
    (hroom : s.toReader = ⟨[],false⟩)
    (hread : ∀ len, Q.pending s.peer = .read len → s.toPeer.bytes ≠ [] ∨ s.toPeer.closed = true) :
    ∃ a t, smoothStep W Q R cap s a = some t ∧ T.rank t < T.rank s := by
  by_cases hexit : Q.pending s.peer = .exited
  · have hio := io_close (P := Q) (e := ⟨s.peer,s.toPeer,s.toReader⟩) hexit
    refine ⟨_,_,smoothStep_peer rfl hio hfits,?_⟩
    simp only [Trio.rank,World.withPeer,hroom]
    simp
  · obtain ⟨a,u,hsmooth,hbusy,hio,hin,hout⟩ := busy_step (P := Q)
      (e := ⟨s.peer,s.toPeer,s.toReader⟩) (by rw [hroom]) hread hexit
    have hlen : u.out.bytes.length ≤ cap := by
      simp only [hroom,List.length_nil] at hout
      omega
    have hmoves := smoothStep_peer (W := W) (R := R) hsmooth hio ⟨hin.trans hfits.1,hlen⟩
    exact ⟨_,_,hmoves,lower_of_busy (h.step hmoves).2 hbusy⟩

theorem Trio.Flows.writer_moves (h : T.Flows x y z s) (hcap : 0 < cap) (hfits : s.Fits cap)
    (hroom : s.toPeer = ⟨[],false⟩) (hrun : R.pending s.reader ≠ .exited) :
    ∃ a t, smoothStep W Q R cap s a = some t ∧ T.rank t < T.rank s := by
  by_cases hexit : W.pending s.writer = .exited
  · have hio := io_close (P := W) (e := ⟨s.writer,⟨[],false⟩,s.toPeer⟩) hexit
    refine ⟨_,_,smoothStep_writer hrun rfl hio hfits,?_⟩
    simp only [Trio.rank,World.withWriter,hroom]
    simp
  · obtain ⟨a,u,hsmooth,hbusy,hio,hin,hout⟩ := busy_step (P := W)
      (e := ⟨s.writer,⟨[],false⟩,s.toPeer⟩) (by rw [hroom])
      (fun len hp => absurd hp (T.mute x _ len h.writer)) hexit
    have hlen : u.out.bytes.length ≤ cap := by
      simp only [hroom,List.length_nil] at hout
      omega
    have hmoves := smoothStep_writer (Q := Q) hrun hsmooth hio ⟨hlen,hfits.2⟩
    exact ⟨_,_,hmoves,lower_of_busy (h.step hmoves).2 hbusy⟩

theorem pipe_silent {p : Pipe} (h : ¬ (p.bytes ≠ [] ∨ p.closed = true)) : p = ⟨[],false⟩ := by
  rw [not_or,not_not,Bool.not_eq_true] at h
  exact Pipe.ext h.1 h.2

/-- Until the reader exits, one of the three can get on: the reader if it does not wait, else the
peer if it does not wait, else the writer. -/
theorem Trio.Flows.moves (h : T.Flows x y z s) (hcap : 0 < cap) (hfits : s.Fits cap)
    (hrun : R.pending s.reader ≠ .exited) :
    ∃ a t, smoothStep W Q R cap s a = some t ∧ T.rank t < T.rank s := by
  by_cases hback : s.toReader.bytes ≠ [] ∨ s.toReader.closed = true
  · exact h.reader_moves hfits (fun _ _ => hback) hrun
  · by_cases hthere : s.toPeer.bytes ≠ [] ∨ s.toPeer.closed = true
    · exact h.peer_moves hcap hfits (pipe_silent hback) fun _ _ => hthere
    · exact h.writer_moves hcap hfits (pipe_silent hthere) hrun

end Progress

section Runs

variable {W : Process A} {Q : Process B} {R : Process C} {T : Trio W Q R} {s t : World A B C}
  {cap : ℕ}

/-- Of every run: the flow is kept, the number of steps that get on is bounded, and the reader can
still exit. -/
structure Trio.Runs (T : Trio W Q R) (cap : ℕ) (s : World A B C) (as : List Act)
    (t : World A B C) : Prop where
  flows : ∃ x y z, T.Flows x y z t
  bounded : T.rank t+as.countP Act.busy ≤ T.rank s
  exits : ∃ u, Reachable (smoothStep W Q R cap) t u ∧ R.pending u.reader = .exited

theorem Trio.runs (T : Trio W Q R) {x y z : Past} (hs : T.Flows x y z s) (hcap : 0 < cap)
    (hfits : s.Fits cap) {as : List Act} (h : exec (smoothStep W Q R cap) s as = some t) :
    T.Runs cap s as t := by
  have hstep : ∀ u a v, ((∃ x y z, T.Flows x y z u) ∧ u.Fits cap) →
      smoothStep W Q R cap u a = some v → ((∃ x y z, T.Flows x y z v) ∧ v.Fits cap) ∧
        T.rank v+(if a.busy then 1 else 0) ≤ T.rank u := by
    rintro u a v ⟨⟨x,y,z,hu⟩,-⟩ huv
    obtain ⟨hflows,hrank⟩ := hu.step huv
    obtain ⟨-,-,hfits⟩ := smoothStep_eq_some.mp huv
    refine ⟨⟨hflows,hfits⟩,?_⟩
    cases hbusy : a.busy <;> simpa [hbusy] using hrank
  have hstart : (∃ x y z, T.Flows x y z s) ∧ s.Fits cap := ⟨⟨x,y,z,hs⟩,hfits⟩
  obtain ⟨hflows,hfits⟩ := (reachable_of_exec h).invariant hstart
    fun a u v hu huv => (hstep u a v hu huv).1
  refine ⟨hflows,exec_busy T.rank Act.busy hstep hstart h,?_⟩
  have hdescend : ∀ u, ((∃ x y z, T.Flows x y z u) ∧ u.Fits cap) → R.pending u.reader ≠ .exited →
      ∃ v, Reachable (smoothStep W Q R cap) u v ∧ ((∃ x y z, T.Flows x y z v) ∧ v.Fits cap) ∧
        T.rank v < T.rank u := by
    rintro u ⟨⟨x,y,z,hu⟩,hfits⟩ hrun
    obtain ⟨a,v,huv,hlt⟩ := hu.moves hcap hfits hrun
    exact ⟨v,(Reachable.refl u).tail huv,(hstep u a v ⟨⟨x,y,z,hu⟩,hfits⟩ huv).1,hlt⟩
  obtain ⟨u,hreach,-,hexit⟩ := Reachable.descend T.rank hdescend ⟨hflows,hfits⟩
  exact ⟨u,hreach,hexit⟩

end Runs

end Duplex
end CPrograming
