import CPrograming.Posix
import CPrograming.Runs

/-!
# Processes at a connection

A process computes until it calls `read` or `write` on its end of a stream connection,
and goes on with the answer. Each direction of the connection is a queue of bytes in
flight. The kernel decides how many bytes a call moves and when it is interrupted or
fails; a write that fails for good closes its direction. Two processes at the two ends
make a session, and the network may cut a direction short at any time.
-/

namespace CPrograming
namespace Connection

open Runs

/-- One direction: the bytes in flight, and whether no more will enter. -/
@[ext] structure Pipe where
  bytes : List UInt8
  closed : Bool
  deriving DecidableEq, Repr

inductive Pending
  | read (len : ℕ)
  | write (bytes : List UInt8)
  | compute
  | exited
  deriving DecidableEq, Repr

structure Process (S : Type*) where
  pending : S → Pending
  onRead : S → ReadAnswer → S
  onWrite : S → WriteAnswer → S
  compute : S → S

structure Endpoint (S : Type*) where
  proc : S
  inp : Pipe
  out : Pipe

/-- What happens next at an end. A `read k` or `write k` moves at most `k+1` bytes. -/
inductive Io
  | read (k : ℕ)
  | readFail (errno : Errno)
  | write (k : ℕ)
  | writeFail (errno : Errno)
  | compute
  | close
  deriving DecidableEq, Repr

variable {S T : Type*}

def Process.io (P : Process S) (e : Endpoint S) (a : Io) : Option (Endpoint S) :=
  match P.pending e.proc, a with
  | .read len, .read k =>
    if e.inp.bytes ≠ [] then
      some ⟨P.onRead e.proc (.data (e.inp.bytes.take (min (k+1) len))),
        ⟨e.inp.bytes.drop (min (k+1) len),e.inp.closed⟩,e.out⟩
    else if e.inp.closed then some ⟨P.onRead e.proc (.data []),e.inp,e.out⟩
    else none
  | .read _, .readFail errno => some ⟨P.onRead e.proc (.fail errno),e.inp,e.out⟩
  | .write bytes, .write k =>
    if e.out.closed then none
    else some ⟨P.onWrite e.proc (.accepted (bytes.take (k+1)).length),e.inp,
      ⟨e.out.bytes ++ bytes.take (k+1),false⟩⟩
  | .write _, .writeFail errno =>
    some ⟨P.onWrite e.proc (.fail errno),e.inp,
      ⟨e.out.bytes,e.out.closed || decide (errno ≠ .eintr)⟩⟩
  | .compute, .compute => some ⟨P.compute e.proc,e.inp,e.out⟩
  | .exited, .close => some ⟨e.proc,e.inp,⟨e.out.bytes,true⟩⟩
  | _, _ => none

inductive Moved (P : Process S) (e : Endpoint S) : Io → Endpoint S → Prop
  | data {len k : ℕ} {got rest : List UInt8} (hp : P.pending e.proc = .read len)
      (hin : e.inp.bytes = got ++ rest) (hne : 0 < len → got ≠ []) (hlen : got.length ≤ len)
      (havail : e.inp.bytes ≠ []) :
      Moved P e (.read k) ⟨P.onRead e.proc (.data got),⟨rest,e.inp.closed⟩,e.out⟩
  | eof {len k : ℕ} (hp : P.pending e.proc = .read len) (hin : e.inp.bytes = [])
      (hclosed : e.inp.closed = true) :
      Moved P e (.read k) ⟨P.onRead e.proc (.data []),e.inp,e.out⟩
  | readFail {len : ℕ} {errno : Errno} (hp : P.pending e.proc = .read len) :
      Moved P e (.readFail errno) ⟨P.onRead e.proc (.fail errno),e.inp,e.out⟩
  | sent {k : ℕ} {sent rest : List UInt8} (hp : P.pending e.proc = .write (sent ++ rest))
      (hne : sent ++ rest ≠ [] → sent ≠ []) (hopen : e.out.closed = false) :
      Moved P e (.write k)
        ⟨P.onWrite e.proc (.accepted sent.length),e.inp,⟨e.out.bytes ++ sent,false⟩⟩
  | writeFail {bytes : List UInt8} {errno : Errno} (hp : P.pending e.proc = .write bytes) :
      Moved P e (.writeFail errno) ⟨P.onWrite e.proc (.fail errno),e.inp,
        ⟨e.out.bytes,e.out.closed || decide (errno ≠ .eintr)⟩⟩
  | compute (hp : P.pending e.proc = .compute) :
      Moved P e .compute ⟨P.compute e.proc,e.inp,e.out⟩
  | close (hp : P.pending e.proc = .exited) :
      Moved P e .close ⟨e.proc,e.inp,⟨e.out.bytes,true⟩⟩

theorem io_moved {P : Process S} {e t : Endpoint S} {a : Io} (h : P.io e a = some t) :
    Moved P e a t := by
  simp only [Process.io] at h
  split at h
  · rename_i len k hp
    split_ifs at h with hne hclosed
    · obtain rfl := Option.some.inj h
      refine .data hp (List.take_append_drop _ _).symm ?_ ?_ hne
      · intro hlen hnil
        rcases List.take_eq_nil_iff.mp hnil with hzero | hnil
        · omega
        · exact hne hnil
      · simp only [List.length_take]
        omega
    · obtain rfl := Option.some.inj h
      exact .eof hp (not_not.mp hne) hclosed
  · obtain rfl := Option.some.inj h
    rename_i hp
    exact .readFail hp
  · rename_i bytes k hp
    split_ifs at h with hclosed
    obtain rfl := Option.some.inj h
    have hsplit : P.pending e.proc = .write (bytes.take (k+1) ++ bytes.drop (k+1)) := by
      rw [hp,List.take_append_drop]
    refine .sent hsplit ?_ ?_
    · intro hne hnil
      rw [List.take_append_drop] at hne
      exact hne (by simpa using hnil)
    · simpa using hclosed
  · obtain rfl := Option.some.inj h
    rename_i hp
    exact .writeFail hp
  · obtain rfl := Option.some.inj h
    rename_i hp
    exact .compute hp
  · obtain rfl := Option.some.inj h
    rename_i hp
    exact .close hp
  · cases h

section Whole

variable {P : Process S} {e : Endpoint S}

theorem io_write_all {bytes : List UInt8} (hp : P.pending e.proc = .write bytes)
    (hopen : e.out.closed = false) : P.io e (.write bytes.length) =
      some ⟨P.onWrite e.proc (.accepted bytes.length),e.inp,⟨e.out.bytes ++ bytes,false⟩⟩ := by
  have htake : bytes.take (bytes.length+1) = bytes := List.take_of_length_le (by omega)
  simp only [Process.io,hp,hopen,htake]
  rfl

theorem io_read_all {len : ℕ} (hp : P.pending e.proc = .read len) (hne : e.inp.bytes ≠ [])
    (hlen : e.inp.bytes.length ≤ len) : P.io e (.read len) =
      some ⟨P.onRead e.proc (.data e.inp.bytes),⟨[],e.inp.closed⟩,e.out⟩ := by
  have hmin : min (len+1) len = len := by omega
  simp only [Process.io,hp,hmin,if_pos hne,List.take_of_length_le hlen,List.drop_of_length_le hlen]

theorem io_compute (hp : P.pending e.proc = .compute) :
    P.io e .compute = some ⟨P.compute e.proc,e.inp,e.out⟩ := by
  simp only [Process.io,hp]

end Whole

/-- Nothing fails, though calls may be interrupted. -/
def Io.smooth : Io → Bool
  | .readFail errno | .writeFail errno => errno = .eintr
  | _ => true

section SmoothStep

variable {P : Process S} {e t : Endpoint S} {a : Io}

theorem smooth_read {len : ℕ} (hp : P.pending e.proc = .read len) (hlen : 0 < len)
    (hopen : e.inp.closed = false)
    (hstep : restrict (fun _ a => Io.smooth a = true) P.io e a = some t) :
    t = ⟨P.onRead e.proc (.fail .eintr),e.inp,e.out⟩ ∨
      ∃ new rest, new ≠ [] ∧ new.length ≤ len ∧ e.inp.bytes = new ++ rest ∧
        t = ⟨P.onRead e.proc (.data new),⟨rest,false⟩,e.out⟩ := by
  obtain ⟨hsmooth,hio⟩ := restrict_eq_some.mp hstep
  cases io_moved hio with
  | @data len' k new rest hp' hin hne hnew =>
    rw [hp,Pending.read.injEq] at hp'
    subst len'
    exact Or.inr ⟨new,rest,hne hlen,hnew,hin,by rw [hopen]⟩
  | eof hp' hin hclosed => simp [hopen] at hclosed
  | readFail hp' =>
    obtain rfl : _ = Errno.eintr := of_decide_eq_true hsmooth
    exact Or.inl rfl
  | sent hp' | writeFail hp' | compute hp' | close hp' =>
    rw [hp] at hp'
    cases hp'

theorem smooth_write {bytes : List UInt8} (hp : P.pending e.proc = .write bytes)
    (hne : bytes ≠ []) (hstep : restrict (fun _ a => Io.smooth a = true) P.io e a = some t) :
    t = ⟨P.onWrite e.proc (.fail .eintr),e.inp,e.out⟩ ∨
      ∃ new rest, new ≠ [] ∧ bytes = new ++ rest ∧
        t = ⟨P.onWrite e.proc (.accepted new.length),e.inp,⟨e.out.bytes ++ new,false⟩⟩ := by
  obtain ⟨hsmooth,hio⟩ := restrict_eq_some.mp hstep
  cases io_moved hio with
  | @sent k new rest hp' hnew _ =>
    rw [hp,Pending.write.injEq] at hp'
    subst bytes
    exact Or.inr ⟨new,rest,hnew hne,rfl,rfl⟩
  | writeFail hp' =>
    obtain rfl : _ = Errno.eintr := of_decide_eq_true hsmooth
    exact Or.inl (by simp)
  | data hp' | eof hp' | readFail hp' | compute hp' | close hp' =>
    rw [hp] at hp'
    cases hp'

end SmoothStep

def Io.busy : Io → Bool
  | .read _ | .write _ | .compute => true
  | _ => false

/-- While nothing fails, a direction is closed only by the process that writes to it, and only
when it exits. -/
theorem closed_step {P : Process S} {e t : Endpoint S} {a : Io}
    (h : e.out.closed = true → P.pending e.proc = .exited)
    (hstep : restrict (fun _ a => Io.smooth a = true) P.io e a = some t) :
    t.inp.closed = e.inp.closed ∧ (t.out.closed = true → P.pending t.proc = .exited) := by
  obtain ⟨hsmooth,hio⟩ := restrict_eq_some.mp hstep
  cases io_moved hio with
  | data hp | eof hp | readFail hp | compute hp =>
    refine ⟨rfl,?_⟩
    intro hclosed
    simp [h hclosed] at hp
  | sent => exact ⟨rfl,by simp⟩
  | writeFail hp =>
    obtain rfl : _ = Errno.eintr := of_decide_eq_true hsmooth
    refine ⟨rfl,?_⟩
    intro hclosed
    simp [h (by simpa using hclosed)] at hp
  | close hp => exact ⟨rfl,fun _ => hp⟩

/-- A process as a function of its input: `future s xs` is what it will still write from `s`
on if `xs` and then end of file is what it will still read. -/
structure Transducer (P : Process S) (I : S → Prop) (future : S → List UInt8 → List UInt8) :
    Prop where
  asks : ∀ s len, I s → P.pending s = .read len → 0 < len
  offers : ∀ s bytes, I s → P.pending s = .write bytes → bytes ≠ []
  data : ∀ s len got rest, I s → P.pending s = .read len → got ≠ [] → got.length ≤ len →
    I (P.onRead s (.data got)) ∧ future (P.onRead s (.data got)) rest = future s (got ++ rest)
  eof : ∀ s len, I s → P.pending s = .read len →
    I (P.onRead s (.data [])) ∧ future (P.onRead s (.data [])) [] = future s []
  sent : ∀ s sent rest xs, I s → P.pending s = .write (sent ++ rest) → sent ≠ [] →
    I (P.onWrite s (.accepted sent.length)) ∧
      sent ++ future (P.onWrite s (.accepted sent.length)) xs = future s xs
  interrupted : ∀ s len, I s → P.pending s = .read len → P.onRead s (.fail .eintr) = s
  interrupted_write : ∀ s bytes, I s → P.pending s = .write bytes → P.onWrite s (.fail .eintr) = s
  compute : ∀ s xs, I s → P.pending s = .compute →
    I (P.compute s) ∧ future (P.compute s) xs = future s xs

namespace Transducer

variable {P : Process S} {I : S → Prop} {future : S → List UInt8 → List UInt8} {e t : Endpoint S}

/-- What is written and what is still to come make up one output. -/
theorem step (h : Transducer P I future) {a : Io} (hi : I e.proc)
    (hstep : restrict (fun _ a => Io.smooth a = true) P.io e a = some t) :
    I t.proc ∧
      t.out.bytes ++ future t.proc t.inp.bytes = e.out.bytes ++ future e.proc e.inp.bytes := by
  obtain ⟨hsmooth,hio⟩ := restrict_eq_some.mp hstep
  cases io_moved hio with
  | @data len k got rest hp hin hne hlen =>
    obtain ⟨hi',hfuture⟩ := h.data e.proc len got rest hi hp (hne (h.asks e.proc len hi hp)) hlen
    exact ⟨hi',by rw [hin,← hfuture]⟩
  | @eof len k hp hin hclosed =>
    obtain ⟨hi',hfuture⟩ := h.eof e.proc len hi hp
    exact ⟨hi',by rw [hin,← hfuture]⟩
  | readFail hp =>
    obtain rfl : _ = Errno.eintr := of_decide_eq_true hsmooth
    rw [h.interrupted e.proc _ hi hp]
    exact ⟨hi,rfl⟩
  | @sent k sent rest hp hne hopen =>
    obtain ⟨hi',hfuture⟩ := h.sent e.proc sent rest e.inp.bytes hi hp
      (hne (h.offers e.proc _ hi hp))
    exact ⟨hi',by rw [← hfuture,List.append_assoc]⟩
  | writeFail hp =>
    obtain rfl : _ = Errno.eintr := of_decide_eq_true hsmooth
    rw [h.interrupted_write e.proc _ hi hp]
    exact ⟨hi,rfl⟩
  | compute hp =>
    obtain ⟨hi',hfuture⟩ := h.compute e.proc e.inp.bytes hi hp
    exact ⟨hi',by rw [← hfuture]⟩
  | close hp => exact ⟨hi,rfl⟩

theorem run (h : Transducer P I future) (hi : I e.proc)
    (hreach : Reachable (restrict (fun _ a => Io.smooth a = true) P.io) e t) :
    I t.proc ∧
      t.out.bytes ++ future t.proc t.inp.bytes = e.out.bytes ++ future e.proc e.inp.bytes := by
  refine hreach.invariant (I := fun x => I x.proc ∧
    x.out.bytes ++ future x.proc x.inp.bytes = e.out.bytes ++ future e.proc e.inp.bytes)
    ⟨hi,rfl⟩ ?_
  rintro a x y ⟨hx,hsame⟩ hxy
  obtain ⟨hy,hstep⟩ := h.step hx hxy
  exact ⟨hy,hstep.trans hsame⟩

end Transducer

/-- A process that sends back every byte that it reads, in the same order. It holds the bytes
that it has read and not written, and it exits only when its input has ended. -/
structure EchoPeer (S : Type*) where
  proc : Process S
  init : S
  held : S → List UInt8
  ended : S → Bool
  init_held : held init = []
  init_ended : ended init = false
  offers : ∀ s bytes, proc.pending s = .write bytes → bytes <+: held s
  exits : ∀ s, proc.pending s = .exited → ended s = true
  held_data : ∀ s got, held (proc.onRead s (.data got)) = held s ++ got
  ended_data : ∀ s got, got ≠ [] → ended (proc.onRead s (.data got)) = ended s
  held_interrupted : ∀ s, held (proc.onRead s (.fail .eintr)) = held s
  ended_interrupted : ∀ s, ended (proc.onRead s (.fail .eintr)) = ended s
  held_accepted : ∀ s k, held (proc.onWrite s (.accepted k)) = (held s).drop k
  held_refused : ∀ s e, held (proc.onWrite s (.fail e)) = held s
  ended_write : ∀ s a, ended (proc.onWrite s a) = ended s
  held_compute : ∀ s, held (proc.compute s) = held s
  ended_compute : ∀ s, ended (proc.compute s) = ended s

/-- Reads up to `size` bytes and writes them back, until the end of the input. -/
def echo (size : ℕ) : Process (List UInt8 × Bool) where
  pending s := if s.1 ≠ [] then .write s.1 else if s.2 then .exited else .read size
  onRead s a :=
    match a with
    | .data got => (s.1 ++ got,s.2 || got.isEmpty)
    | .fail _ => s
  onWrite s a :=
    match a with
    | .accepted k => (s.1.drop k,s.2)
    | .fail _ => s
  compute s := s

def echoPeer (size : ℕ) : EchoPeer (List UInt8 × Bool) where
  proc := echo size
  init := ([],false)
  held := Prod.fst
  ended := Prod.snd
  init_held := rfl
  init_ended := rfl
  offers s bytes h := by
    simp only [echo] at h
    split_ifs at h
    obtain rfl := Pending.write.inj h
    exact List.prefix_refl _
  exits s h := by
    simp only [echo] at h
    split_ifs at h with hheld hended
    exact hended
  held_data s got := rfl
  ended_data s got hne := by simp [echo,hne]
  held_interrupted s := rfl
  ended_interrupted s := rfl
  held_accepted s k := rfl
  held_refused s e := rfl
  ended_write s a := by cases a <;> rfl
  held_compute s := rfl
  ended_compute s := rfl

structure Session (S T : Type*) where
  left : S
  right : T
  toRight : Pipe
  toLeft : Pipe

/-- A cut keeps the first `k` bytes in flight and ends the direction behind them. -/
inductive Act
  | left (a : Io)
  | right (a : Io)
  | cutRight (k : ℕ)
  | cutLeft (k : ℕ)
  deriving DecidableEq, Repr

def Act.smooth : Act → Bool
  | .left a | .right a => a.smooth
  | .cutRight _ | .cutLeft _ => false

def Session.leftEnd (s : Session S T) : Endpoint S := ⟨s.left,s.toLeft,s.toRight⟩

def Session.rightEnd (s : Session S T) : Endpoint T := ⟨s.right,s.toRight,s.toLeft⟩

def session (P : Process S) (Q : Process T) (s : Session S T) : Act → Option (Session S T)
  | .left a => (P.io s.leftEnd a).map fun e => ⟨e.proc,s.right,e.out,e.inp⟩
  | .right a => (Q.io s.rightEnd a).map fun e => ⟨s.left,e.proc,e.inp,e.out⟩
  | .cutRight k => some { s with toRight := ⟨s.toRight.bytes.take k,true⟩ }
  | .cutLeft k => some { s with toLeft := ⟨s.toLeft.bytes.take k,true⟩ }

section Smooth

variable {P : Process S} {Q : Process T} {s t : Session S T}

theorem session_left {b : Io} {e : Endpoint S} (h : P.io s.leftEnd b = some e) :
    session P Q s (.left b) = some ⟨e.proc,s.right,e.out,e.inp⟩ := by
  rw [session,h]
  rfl

theorem session_right {b : Io} {e : Endpoint T} (h : Q.io s.rightEnd b = some e) :
    session P Q s (.right b) = some ⟨s.left,e.proc,e.inp,e.out⟩ := by
  rw [session,h]
  rfl

/-- While nothing fails, a step of a session is a step at one of its ends. -/
theorem session_smooth {a : Act}
    (h : restrict (fun _ a => Act.smooth a = true) (session P Q) s a = some t) :
    (∃ b e, restrict (fun _ a => Io.smooth a = true) P.io s.leftEnd b = some e ∧
      t = ⟨e.proc,s.right,e.out,e.inp⟩) ∨
    ∃ b e, restrict (fun _ a => Io.smooth a = true) Q.io s.rightEnd b = some e ∧
      t = ⟨s.left,e.proc,e.inp,e.out⟩ := by
  obtain ⟨hsmooth,hstep⟩ := restrict_eq_some.mp h
  cases a with
  | left b =>
    obtain ⟨e,he,rfl⟩ := Option.map_eq_some_iff.mp hstep
    exact Or.inl ⟨b,e,restrict_eq_some.mpr ⟨hsmooth,he⟩,rfl⟩
  | right b =>
    obtain ⟨e,he,rfl⟩ := Option.map_eq_some_iff.mp hstep
    exact Or.inr ⟨b,e,restrict_eq_some.mpr ⟨hsmooth,he⟩,rfl⟩
  | cutRight k | cutLeft k => cases hsmooth

variable {start : Session S T}

theorem reachable_left {b : Io} {e : Endpoint S} (hb : b.smooth = true)
    (h : Reachable (restrict (fun _ a => Act.smooth a = true) (session P Q)) start s)
    (hio : P.io s.leftEnd b = some e) :
    Reachable (restrict (fun _ a => Act.smooth a = true) (session P Q)) start
      ⟨e.proc,s.right,e.out,e.inp⟩ :=
  h.tail (a := .left b) (restrict_eq_some.mpr ⟨hb,session_left hio⟩)

theorem reachable_right {b : Io} {e : Endpoint T} (hb : b.smooth = true)
    (h : Reachable (restrict (fun _ a => Act.smooth a = true) (session P Q)) start s)
    (hio : Q.io s.rightEnd b = some e) :
    Reachable (restrict (fun _ a => Act.smooth a = true) (session P Q)) start
      ⟨s.left,e.proc,e.inp,e.out⟩ :=
  h.tail (a := .right b) (restrict_eq_some.mpr ⟨hb,session_right hio⟩)

end Smooth

end Connection
end CPrograming
