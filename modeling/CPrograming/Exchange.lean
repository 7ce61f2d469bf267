import CPrograming.Connection

/-!
# Requests and answers in turn

Two processes at a connection take turns. The client goes through a list of tasks; for a task
it may send a request and wait for the answer. The server waits for a request and sends the
answer. Messages travel in parts, and each process can tell from what it has received whether
the message is complete. What a process has to do for that is a structure here, and the session
is followed for any two processes that do it.
-/

namespace CPrograming
namespace Exchange

open Runs Connection

variable {S T τ κ β : Type*}

/-- A process that sends a message in parts, then waits for one in parts. `Sends x s rest`
means that `rest` is still to be sent, of which it offers the first bytes, `Waits x s half` that
`half` has come, and `x` is what it keeps meanwhile. `Frame` are the complete messages that it
receives. -/
structure Turns (P : Process S) (Frame : List UInt8 → Prop) (τ : Type*) where
  Sends : τ → S → List UInt8 → Prop
  Waits : τ → S → List UInt8 → Prop
  offers : ∀ x s rest, Sends x s rest →
    ∃ now later, now ≠ [] ∧ rest = now ++ later ∧ P.pending s = .write now
  refused : ∀ x s rest, Sends x s rest → Sends x (P.onWrite s (.fail .eintr)) rest
  sent : ∀ x s new more later, Sends x s (new ++ (more ++ later)) →
    P.pending s = .write (new ++ more) → new ≠ [] → more ++ later ≠ [] →
    Sends x (P.onWrite s (.accepted new.length)) (more ++ later)
  spoken : ∀ x s rest, Sends x s rest → P.pending s = .write rest →
    Waits x (P.onWrite s (.accepted rest.length)) []
  asks : ∀ x s half, Waits x s half → ∃ len, 0 < len ∧ P.pending s = .read len
  interrupted : ∀ x s half, Waits x s half → Waits x (P.onRead s (.fail .eintr)) half
  heard : ∀ x s half len new rest, Waits x s half → P.pending s = .read len → new.length ≤ len →
    new ≠ [] → rest ≠ [] → Frame (half ++ new ++ rest) →
    Waits x (P.onRead s (.data new)) (half ++ new)

structure Server (Q : Process T) (Frame : List UInt8 → Prop) extends Turns Q Frame Unit where
  answer : List UInt8 → List UInt8
  answers : ∀ s half len new, Waits () s half → Q.pending s = .read len → new.length ≤ len →
    new ≠ [] → Frame (half ++ new) → Sends () (Q.onRead s (.data new)) (answer (half ++ new))

/-- Does the tasks one after the other. Between two of them it keeps the tasks that are left and
what it has shown, and within one also the task. A task without a request is done at once. -/
structure Client (P : Process S) (Frame : List UInt8 → Prop) (κ β : Type*) extends
    Turns P Frame (κ × List κ × List β) where
  request : κ → Option (List UInt8)
  shows : κ → List UInt8 → List β
  Ready : List κ × List β → S → Prop
  Done : List β → S → Prop
  printed : S → List β
  ended : S → Bool
  computes : ∀ x s, Ready x s → P.pending s = .compute
  next : ∀ k text todo out s, request k = some text → text ≠ [] → Ready (k :: todo,out) s →
    Sends (k,todo,out) (P.compute s) text
  skips : ∀ k todo out s, request k = none → Ready (k :: todo,out) s →
    Ready (todo,out ++ shows k []) (P.compute s)
  done : ∀ out s, Ready ([],out) s → Done out (P.compute s)
  exits : ∀ out s, Done out s → P.pending s = .exited
  receives : ∀ k todo out s half len new, Waits (k,todo,out) s half → P.pending s = .read len →
    new.length ≤ len → new ≠ [] → Frame (half ++ new) →
    Ready (todo,out ++ shows k (half ++ new)) (P.onRead s (.data new))
  ready_status : ∀ x s, Ready x s → printed s = x.2 ∧ ended s = false
  sends_status : ∀ x s rest, Sends x s rest → printed s = x.2.2 ∧ ended s = false
  waits_status : ∀ x s half, Waits x s half → printed s = x.2.2 ∧ ended s = false
  done_status : ∀ out s, Done out s → printed s = out ∧ ended s = true

section Ends

variable {P : Process S} {Frame : List UInt8 → Prop} {e t : Endpoint S} {a : Io}

def Turns.Speaks (R : Turns P Frame τ) (x : τ) (s : S) (rest : List UInt8) : Prop :=
  rest ≠ [] ∧ R.Sends x s rest ∨ rest = [] ∧ R.Waits x s []

/-- A process that waits is interrupted or gets some bytes. -/
theorem Turns.listen (R : Turns P Frame τ) {x : τ} {half : List UInt8}
    (h : R.Waits x e.proc half) (hopen : e.inp.closed = false)
    (hstep : restrict (fun _ a => Io.smooth a = true) P.io e a = some t) :
    (a.busy = false ∧ R.Waits x t.proc half ∧ t.inp = e.inp ∧ t.out = e.out) ∨
      ∃ len new rest, P.pending e.proc = .read len ∧ new.length ≤ len ∧ new ≠ [] ∧
        e.inp.bytes = new ++ rest ∧ t = ⟨P.onRead e.proc (.data new),⟨rest,false⟩,e.out⟩ := by
  obtain ⟨len,hlen,hp⟩ := R.asks x _ half h
  obtain ⟨hsmooth,hio⟩ := restrict_eq_some.mp hstep
  cases io_moved hio with
  | @data len' k new rest hp' hin hne hnew =>
    rw [hp,Pending.read.injEq] at hp'
    subst len'
    exact Or.inr ⟨len,new,rest,hp,hnew,hne hlen,hin,by rw [hopen]⟩
  | eof hp' hin hclosed => simp [hopen] at hclosed
  | readFail hp' =>
    obtain rfl : _ = Errno.eintr := of_decide_eq_true hsmooth
    exact Or.inl ⟨rfl,R.interrupted x _ half h,rfl,rfl⟩
  | sent hp' | writeFail hp' | compute hp' | close hp' =>
    rw [hp] at hp'
    cases hp'

/-- A process that has something to say is interrupted or gets rid of some of it, and waits
when nothing is left. -/
theorem Turns.speak (R : Turns P Frame τ) {x : τ} {rest : List UInt8}
    (h : R.Speaks x e.proc rest) (hinp : e.inp = ⟨[],false⟩) (hout : e.out.closed = false)
    (hstep : restrict (fun _ a => Io.smooth a = true) P.io e a = some t) :
    ∃ new later, rest = new ++ later ∧ (a.busy = true → new ≠ []) ∧ R.Speaks x t.proc later ∧
      t.inp = e.inp ∧ t.out = ⟨e.out.bytes ++ new,false⟩ := by
  rcases h with ⟨hne,hsends⟩ | ⟨rfl,hwaits⟩
  · obtain ⟨now,later,hnow,hrest,hp⟩ := R.offers x _ rest hsends
    obtain ⟨hsmooth,hio⟩ := restrict_eq_some.mp hstep
    cases io_moved hio with
    | @sent k new more hp' hnew _ =>
      obtain rfl : now = new ++ more := Pending.write.inj (hp.symm.trans hp')
      rw [List.append_assoc] at hrest
      subst rest
      refine ⟨new,more ++ later,rfl,fun _ => hnew hnow,?_,rfl,rfl⟩
      by_cases hlater : more ++ later = []
      · right
        obtain ⟨rfl,rfl⟩ := List.append_eq_nil_iff.mp hlater
        simp only [List.append_nil] at hsends hp
        exact ⟨rfl,R.spoken x _ _ hsends hp⟩
      · exact Or.inl ⟨hlater,R.sent x _ new more later hsends hp (hnew hnow) hlater⟩
    | writeFail hp' =>
      obtain rfl : _ = Errno.eintr := of_decide_eq_true hsmooth
      refine ⟨[],rest,rfl,by simp [Io.busy],Or.inl ⟨hne,R.refused x _ rest hsends⟩,rfl,?_⟩
      exact Pipe.ext (by simp) (by simp [hout])
    | data hp' | eof hp' | readFail hp' | compute hp' | close hp' =>
      rw [hp] at hp'
      cases hp'
  · rcases R.listen hwaits (by rw [hinp]) hstep with
      ⟨hbusy,hwaits',hsame,hsame'⟩ | ⟨len,new,rest,-,-,hne,hin,-⟩
    · refine ⟨[],[],rfl,by simp [hbusy],Or.inr ⟨rfl,hwaits'⟩,hsame,?_⟩
      rw [hsame']
      exact Pipe.ext (by simp) hout
    · simp [hinp,hne] at hin

theorem Turns.speaks_busy (R : Turns P Frame τ) {x : τ} {rest : List UInt8}
    (h : R.Speaks x e.proc rest) (hne : rest ≠ []) (hout : e.out.closed = false) :
    ∃ b u, b.busy = true ∧ b.smooth = true ∧ P.io e b = some u := by
  rcases h with ⟨-,hsends⟩ | ⟨hnil,-⟩
  · obtain ⟨now,later,-,-,hp⟩ := R.offers x _ rest hsends
    exact ⟨_,_,rfl,rfl,io_write_all hp hout⟩
  · exact absurd hnil hne

theorem Turns.waits_busy (R : Turns P Frame τ) {x : τ} {half : List UInt8}
    (h : R.Waits x e.proc half) (hne : e.inp.bytes ≠ []) :
    ∃ b u, b.busy = true ∧ b.smooth = true ∧ P.io e b = some u := by
  obtain ⟨len,-,hp⟩ := R.asks x _ half h
  have hio : P.io e (.read 0) = some ⟨P.onRead e.proc (.data (e.inp.bytes.take (min (0+1) len))),
      ⟨e.inp.bytes.drop (min (0+1) len),e.inp.closed⟩,e.out⟩ := by
    simp only [Process.io,hp,if_pos hne]
  exact ⟨_,_,rfl,rfl,hio⟩

end Ends

section Phases

variable {P : Process S} {Q : Process T} {FrameP FrameQ : List UInt8 → Prop}

structure Framed (C : Client P FrameP κ β) (D : Server Q FrameQ) (tasks : List κ) : Prop where
  request : ∀ k ∈ tasks, ∀ text, C.request k = some text → FrameQ text
  request_ne : ∀ k ∈ tasks, ∀ text, C.request k = some text → text ≠ []
  answer : ∀ k ∈ tasks, ∀ text, C.request k = some text → FrameP (D.answer text)
  answer_ne : ∀ k ∈ tasks, ∀ text, C.request k = some text → D.answer text ≠ []

def shownFor (C : Client P FrameP κ β) (D : Server Q FrameQ) (k : κ) : List β :=
  C.shows k (((C.request k).map D.answer).getD [])

def shown (C : Client P FrameP κ β) (D : Server Q FrameQ) (tasks : List κ) : List β :=
  tasks.flatMap (shownFor C D)

/-- How much there is to do for a task: each byte is written and read, and the task is taken
up. -/
def workFor (C : Client P FrameP κ β) (D : Server Q FrameQ) (k : κ) : ℕ :=
  ((C.request k).map fun text => 2*text.length+2*(D.answer text).length).getD 0+1

def work (C : Client P FrameP κ β) (D : Server Q FrameQ) (tasks : List κ) : ℕ :=
  (tasks.map (workFor C D)).sum

inductive Phase (C : Client P FrameP κ β) (D : Server Q FrameQ) (tasks : List κ)
    (s : Session S T) : ℕ → Prop
  | ready {past todo : List κ} (htasks : tasks = past ++ todo)
      (hclient : C.Ready (todo,shown C D past) s.left) (hserver : D.Waits () s.right [])
      (hright : s.toRight = ⟨[],false⟩) (hleft : s.toLeft = ⟨[],false⟩) :
      Phase C D tasks s (work C D todo+1)
  | asking {past todo : List κ} {k : κ} {text half rest : List UInt8}
      (htasks : tasks = past ++ k :: todo) (hrequest : C.request k = some text)
      (hclient : C.Speaks (k,todo,shown C D past) s.left rest) (hserver : D.Waits () s.right half)
      (htext : half ++ (s.toRight.bytes ++ rest) = text) (hmore : s.toRight.bytes ++ rest ≠ [])
      (hright : s.toRight.closed = false) (hleft : s.toLeft = ⟨[],false⟩) :
      Phase C D tasks s
        (work C D todo+1+(2*rest.length+s.toRight.bytes.length+2*(D.answer text).length))
  | answering {past todo : List κ} {k : κ} {text half rest : List UInt8}
      (htasks : tasks = past ++ k :: todo) (hrequest : C.request k = some text)
      (hclient : C.Waits (k,todo,shown C D past) s.left half) (hserver : D.Speaks () s.right rest)
      (htext : half ++ (s.toLeft.bytes ++ rest) = D.answer text)
      (hmore : s.toLeft.bytes ++ rest ≠ []) (hright : s.toRight = ⟨[],false⟩)
      (hleft : s.toLeft.closed = false) :
      Phase C D tasks s (work C D todo+1+(2*rest.length+s.toLeft.bytes.length))
  | finished (hclient : C.Done (shown C D tasks) s.left) : Phase C D tasks s 0

variable {C : Client P FrameP κ β} {D : Server Q FrameQ} {tasks : List κ} {s t : Session S T}
  {n : ℕ}

def Advances (C : Client P FrameP κ β) (D : Server Q FrameQ) (tasks : List κ)
    (t : Session S T) (busy : Bool) (n : ℕ) : Prop :=
  ∃ m, Phase C D tasks t m ∧ (m = 0 ∨ m+busy.toNat ≤ n)

theorem shown_snoc (C : Client P FrameP κ β) (D : Server Q FrameQ) (past : List κ) (k : κ) :
    shown C D (past ++ [k]) = shown C D past ++ shownFor C D k := by
  simp [shown]

theorem work_cons (C : Client P FrameP κ β) (D : Server Q FrameQ) (k : κ) (todo : List κ) :
    work C D (k :: todo) = workFor C D k+work C D todo := by
  simp [work]

theorem ready_left {past todo : List κ} {e : Endpoint S} {a : Io}
    (htasks : tasks = past ++ todo) (hF : Framed C D tasks)
    (hclient : C.Ready (todo,shown C D past) s.left) (hserver : D.Waits () s.right [])
    (hright : s.toRight = ⟨[],false⟩) (hleft : s.toLeft = ⟨[],false⟩)
    (hstep : restrict (fun _ a => Io.smooth a = true) P.io s.leftEnd a = some e) :
    Advances C D tasks ⟨e.proc,s.right,e.out,e.inp⟩ a.busy (work C D todo+1) := by
  obtain ⟨-,hio⟩ := restrict_eq_some.mp hstep
  have hp : P.pending s.leftEnd.proc = .compute := C.computes _ _ hclient
  cases io_moved hio with
  | compute =>
    cases todo with
    | nil =>
      rw [List.append_nil] at htasks
      subst past
      exact ⟨0,.finished (C.done _ _ hclient),Or.inl rfl⟩
    | cons k todo =>
      have hmem : k ∈ tasks := by simp [htasks]
      cases hrequest : C.request k with
      | none =>
        have hskips := C.skips k todo _ _ hrequest hclient
        have hshown : shown C D past ++ C.shows k [] = shown C D (past ++ [k]) := by
          rw [shown_snoc,shownFor,hrequest]
          rfl
        rw [hshown] at hskips
        refine ⟨_,.ready (by rw [htasks,List.append_assoc]; rfl) hskips hserver hright hleft,
          Or.inr ?_⟩
        simp only [work_cons,workFor,hrequest,Io.busy,Bool.toNat_true,Option.map_none,
          Option.getD_none]
        omega
      | some text =>
        have hne := hF.request_ne k hmem text hrequest
        have hspeaks : C.Speaks (k,todo,shown C D past) (P.compute s.left) text :=
          Or.inl ⟨hne,C.next _ _ _ _ _ hrequest hne hclient⟩
        refine ⟨_,.asking htasks hrequest hspeaks hserver ?_ ?_ ?_ hleft,Or.inr ?_⟩
        · simp [Session.leftEnd,hright]
        · simp [Session.leftEnd,hright,hne]
        · simp [Session.leftEnd,hright]
        · simp only [Session.leftEnd,hright,List.length_nil,work_cons,workFor,hrequest,Io.busy,
            Bool.toNat_true,Option.map_some,Option.getD_some]
          omega
  | data hp' | eof hp' | readFail hp' | sent hp' | writeFail hp' | close hp' =>
    rw [hp] at hp'
    cases hp'

theorem ready_right {past todo : List κ} {e : Endpoint T} {a : Io}
    (htasks : tasks = past ++ todo) (hclient : C.Ready (todo,shown C D past) s.left)
    (hserver : D.Waits () s.right []) (hright : s.toRight = ⟨[],false⟩)
    (hleft : s.toLeft = ⟨[],false⟩)
    (hstep : restrict (fun _ a => Io.smooth a = true) Q.io s.rightEnd a = some e) :
    Advances C D tasks ⟨s.left,e.proc,e.inp,e.out⟩ a.busy (work C D todo+1) := by
  rcases D.listen hserver (by simp [Session.rightEnd,hright]) hstep with
    ⟨hbusy,hwaits,hinp,hout⟩ | ⟨len,new,rest,-,-,hne,hin,-⟩
  · refine ⟨_,.ready htasks hclient hwaits (hinp.trans hright) (hout.trans hleft),Or.inr ?_⟩
    simp [hbusy]
  · simp [Session.rightEnd,hright,hne] at hin

theorem asking_left {past todo : List κ} {k : κ} {text half rest : List UInt8} {e : Endpoint S}
    {a : Io} (htasks : tasks = past ++ k :: todo) (hrequest : C.request k = some text)
    (hclient : C.Speaks (k,todo,shown C D past) s.left rest) (hserver : D.Waits () s.right half)
    (htext : half ++ (s.toRight.bytes ++ rest) = text) (hmore : s.toRight.bytes ++ rest ≠ [])
    (hright : s.toRight.closed = false) (hleft : s.toLeft = ⟨[],false⟩)
    (hstep : restrict (fun _ a => Io.smooth a = true) P.io s.leftEnd a = some e) :
    Advances C D tasks ⟨e.proc,s.right,e.out,e.inp⟩ a.busy
      (work C D todo+1+(2*rest.length+s.toRight.bytes.length+2*(D.answer text).length)) := by
  obtain ⟨new,later,rfl,hbusy,hspeaks,hinp,hout⟩ := C.speak hclient hleft hright hstep
  refine ⟨_,.asking htasks hrequest hspeaks hserver ?_ ?_ (by rw [hout]) (hinp.trans hleft),
    Or.inr ?_⟩
  · rw [hout,← htext]
    simp [Session.leftEnd]
  · rw [hout]
    simpa [Session.leftEnd] using hmore
  · have hlen : a.busy.toNat ≤ new.length := by
      cases hb : a.busy with
      | false => exact Nat.zero_le _
      | true => exact List.length_pos_iff.mpr (hbusy hb)
    simp only [hout,Session.leftEnd,List.length_append]
    omega

theorem asking_right {past todo : List κ} {k : κ} {text half rest : List UInt8}
    {e : Endpoint T} {a : Io} (hF : Framed C D tasks) (htasks : tasks = past ++ k :: todo)
    (hrequest : C.request k = some text)
    (hclient : C.Speaks (k,todo,shown C D past) s.left rest) (hserver : D.Waits () s.right half)
    (htext : half ++ (s.toRight.bytes ++ rest) = text) (hmore : s.toRight.bytes ++ rest ≠ [])
    (hright : s.toRight.closed = false) (hleft : s.toLeft = ⟨[],false⟩)
    (hstep : restrict (fun _ a => Io.smooth a = true) Q.io s.rightEnd a = some e) :
    Advances C D tasks ⟨s.left,e.proc,e.inp,e.out⟩ a.busy
      (work C D todo+1+(2*rest.length+s.toRight.bytes.length+2*(D.answer text).length)) := by
  have hmem : k ∈ tasks := by simp [htasks]
  rcases D.listen hserver hright hstep with
    ⟨hbusy,hwaits,hinp,hout⟩ | ⟨len,new,later,hp,hlen,hne,hin,rfl⟩
  · have hsame : e.inp = s.toRight := hinp
    refine ⟨_,.asking htasks hrequest hclient hwaits (by rw [hsame]; exact htext)
      (by rw [hsame]; exact hmore) (by rw [hsame]; exact hright) (hout.trans hleft),Or.inr ?_⟩
    simp [hsame,hbusy]
  · have hbytes : s.toRight.bytes = new ++ later := hin
    have hpos := List.length_pos_iff.mpr hne
    have hbit := Bool.toNat_le a.busy
    rw [hbytes] at htext
    by_cases hlast : later ++ rest = []
    · obtain ⟨rfl,rfl⟩ := List.append_eq_nil_iff.mp hlast
      simp only [List.append_nil] at htext
      subst text
      have hsends := D.answers _ half len new hserver hp hlen hne (hF.request k hmem _ hrequest)
      have hwaits : C.Waits (k,todo,shown C D past) s.left [] := by
        rcases hclient with ⟨hnil,-⟩ | ⟨-,hwaits⟩
        · exact absurd rfl hnil
        · exact hwaits
      have hspeaks : D.Speaks () (Q.onRead s.rightEnd.proc (.data new)) (D.answer (half ++ new)) :=
        Or.inl ⟨hF.answer_ne k hmem _ hrequest,hsends⟩
      refine ⟨_,.answering htasks hrequest hwaits hspeaks ?_ ?_ rfl ?_,Or.inr ?_⟩
      · simp [Session.rightEnd,hleft]
      · simp [Session.rightEnd,hleft,hF.answer_ne k hmem _ hrequest]
      · simp [Session.rightEnd,hleft]
      · simp only [Session.rightEnd,hleft,hbytes,List.length_append,List.length_nil]
        omega
    · have hframe : FrameQ (half ++ new ++ (later ++ rest)) := by
        have hwhole : half ++ new ++ (later ++ rest) = text := by
          rw [← htext]
          simp
        rw [hwhole]
        exact hF.request k hmem _ hrequest
      have hwaits := D.heard () _ half len new _ hserver hp hlen hne hlast hframe
      refine ⟨_,.asking htasks hrequest hclient hwaits ?_ hlast rfl hleft,Or.inr ?_⟩
      · rw [← htext]
        simp
      · simp only [hbytes,List.length_append]
        omega

theorem answering_left {past todo : List κ} {k : κ} {text half rest : List UInt8}
    {e : Endpoint S} {a : Io} (hF : Framed C D tasks) (htasks : tasks = past ++ k :: todo)
    (hrequest : C.request k = some text)
    (hclient : C.Waits (k,todo,shown C D past) s.left half) (hserver : D.Speaks () s.right rest)
    (htext : half ++ (s.toLeft.bytes ++ rest) = D.answer text)
    (hmore : s.toLeft.bytes ++ rest ≠ []) (hright : s.toRight = ⟨[],false⟩)
    (hleft : s.toLeft.closed = false)
    (hstep : restrict (fun _ a => Io.smooth a = true) P.io s.leftEnd a = some e) :
    Advances C D tasks ⟨e.proc,s.right,e.out,e.inp⟩ a.busy
      (work C D todo+1+(2*rest.length+s.toLeft.bytes.length)) := by
  have hmem : k ∈ tasks := by simp [htasks]
  rcases C.listen hclient hleft hstep with
    ⟨hbusy,hwaits,hinp,hout⟩ | ⟨len,new,later,hp,hlen,hne,hin,rfl⟩
  · have hsame : e.inp = s.toLeft := hinp
    refine ⟨_,.answering htasks hrequest hwaits hserver (by rw [hsame]; exact htext)
      (by rw [hsame]; exact hmore) (hout.trans hright) (by rw [hsame]; exact hleft),Or.inr ?_⟩
    simp [hsame,hbusy]
  · have hbytes : s.toLeft.bytes = new ++ later := hin
    have hpos := List.length_pos_iff.mpr hne
    have hbit := Bool.toNat_le a.busy
    rw [hbytes] at htext
    by_cases hlast : later ++ rest = []
    · obtain ⟨rfl,rfl⟩ := List.append_eq_nil_iff.mp hlast
      simp only [List.append_nil] at htext
      have hready := C.receives _ _ _ _ half len new hclient hp hlen hne
        (htext ▸ hF.answer k hmem _ hrequest)
      have hshown : shown C D past ++ C.shows k (half ++ new) = shown C D (past ++ [k]) := by
        rw [shown_snoc,shownFor,hrequest,htext]
        rfl
      rw [hshown] at hready
      have hwaits : D.Waits () s.right [] := by
        rcases hserver with ⟨hnil,-⟩ | ⟨-,hwaits⟩
        · exact absurd rfl hnil
        · exact hwaits
      refine ⟨_,.ready (by rw [htasks,List.append_assoc]; rfl) hready hwaits hright rfl,Or.inr ?_⟩
      simp only [hbytes,List.length_append,List.length_nil]
      omega
    · have hframe : FrameP (half ++ new ++ (later ++ rest)) := by
        have hwhole : half ++ new ++ (later ++ rest) = D.answer text := by
          rw [← htext]
          simp
        rw [hwhole]
        exact hF.answer k hmem _ hrequest
      have hwaits := C.heard _ _ half len new _ hclient hp hlen hne hlast hframe
      refine ⟨_,.answering htasks hrequest hwaits hserver ?_ hlast hright rfl,Or.inr ?_⟩
      · rw [← htext]
        simp
      · simp only [hbytes,List.length_append]
        omega

theorem answering_right {past todo : List κ} {k : κ} {text half rest : List UInt8}
    {e : Endpoint T} {a : Io} (htasks : tasks = past ++ k :: todo)
    (hrequest : C.request k = some text)
    (hclient : C.Waits (k,todo,shown C D past) s.left half) (hserver : D.Speaks () s.right rest)
    (htext : half ++ (s.toLeft.bytes ++ rest) = D.answer text)
    (hmore : s.toLeft.bytes ++ rest ≠ []) (hright : s.toRight = ⟨[],false⟩)
    (hleft : s.toLeft.closed = false)
    (hstep : restrict (fun _ a => Io.smooth a = true) Q.io s.rightEnd a = some e) :
    Advances C D tasks ⟨s.left,e.proc,e.inp,e.out⟩ a.busy
      (work C D todo+1+(2*rest.length+s.toLeft.bytes.length)) := by
  obtain ⟨new,later,rfl,hbusy,hspeaks,hinp,hout⟩ := D.speak hserver hright hleft hstep
  refine ⟨_,.answering htasks hrequest hclient hspeaks ?_ ?_ (hinp.trans hright) (by rw [hout]),
    Or.inr ?_⟩
  · rw [hout,← htext]
    simp [Session.rightEnd]
  · rw [hout]
    simpa [Session.rightEnd] using hmore
  · have hlen : a.busy.toNat ≤ new.length := by
      cases hb : a.busy with
      | false => exact Nat.zero_le _
      | true => exact List.length_pos_iff.mpr (hbusy hb)
    simp only [hout,Session.rightEnd,List.length_append]
    omega

def busy : Act → Bool
  | .left a | .right a => a.busy
  | _ => false

theorem Phase.step (hF : Framed C D tasks) (h : Phase C D tasks s n) {a : Act}
    (hstep : restrict (fun _ a => Act.smooth a = true) (session P Q) s a = some t) :
    Advances C D tasks t (busy a) n := by
  obtain ⟨hsmooth,hsession⟩ := restrict_eq_some.mp hstep
  cases a with
  | left b =>
    obtain ⟨e,he,rfl⟩ := Option.map_eq_some_iff.mp hsession
    have hb : restrict (fun _ a => Io.smooth a = true) P.io s.leftEnd b = some e :=
      restrict_eq_some.mpr ⟨hsmooth,he⟩
    cases h with
    | ready htasks hclient hserver hright hleft =>
      exact ready_left htasks hF hclient hserver hright hleft hb
    | asking htasks hrequest hclient hserver htext hmore hright hleft =>
      exact asking_left htasks hrequest hclient hserver htext hmore hright hleft hb
    | answering htasks hrequest hclient hserver htext hmore hright hleft =>
      exact answering_left hF htasks hrequest hclient hserver htext hmore hright hleft hb
    | finished hclient =>
      have hp : P.pending s.leftEnd.proc = .exited := C.exits _ _ hclient
      cases io_moved he with
      | close => exact ⟨0,.finished hclient,Or.inl rfl⟩
      | data hp' | eof hp' | readFail hp' | sent hp' | writeFail hp' | compute hp' =>
        rw [hp] at hp'
        cases hp'
  | right b =>
    obtain ⟨e,he,rfl⟩ := Option.map_eq_some_iff.mp hsession
    have hb : restrict (fun _ a => Io.smooth a = true) Q.io s.rightEnd b = some e :=
      restrict_eq_some.mpr ⟨hsmooth,he⟩
    cases h with
    | ready htasks hclient hserver hright hleft =>
      exact ready_right htasks hclient hserver hright hleft hb
    | asking htasks hrequest hclient hserver htext hmore hright hleft =>
      exact asking_right hF htasks hrequest hclient hserver htext hmore hright hleft hb
    | answering htasks hrequest hclient hserver htext hmore hright hleft =>
      exact answering_right htasks hrequest hclient hserver htext hmore hright hleft hb
    | finished hclient => exact ⟨0,.finished hclient,Or.inl rfl⟩
  | cutRight k | cutLeft k => cases hsmooth

theorem Phase.run (hF : Framed C D tasks) (h : Phase C D tasks s n) {as : List Act}
    (hexec : exec (restrict (fun _ a => Act.smooth a = true) (session P Q)) s as = some t) :
    ∃ m, Phase C D tasks t m ∧ (m = 0 ∨ m+as.countP busy ≤ n) :=
  exec_indexed busy (fun _ _ _ _ hphase hstep => hphase.step hF hstep) h hexec

theorem Phase.status (h : Phase C D tasks s n) :
    (∃ past, past <+: tasks ∧ C.printed s.left = shown C D past) ∧
      (C.ended s.left = true → C.printed s.left = shown C D tasks) ∧
      (C.ended s.left = false → n ≠ 0) := by
  have hopen {past : List κ} (hpast : past <+: tasks)
      (hstatus : C.printed s.left = shown C D past ∧ C.ended s.left = false) (hn : n ≠ 0) :
      (∃ past, past <+: tasks ∧ C.printed s.left = shown C D past) ∧
        (C.ended s.left = true → C.printed s.left = shown C D tasks) ∧
        (C.ended s.left = false → n ≠ 0) :=
    ⟨⟨past,hpast,hstatus.1⟩,by simp [hstatus.2],fun _ => hn⟩
  cases h with
  | @ready past todo htasks hclient =>
    exact hopen (htasks ▸ List.prefix_append _ _) (C.ready_status _ _ hclient)
      (by omega)
  | @asking past todo k text half rest htasks hrequest hclient =>
    have hstatus : C.printed s.left = shown C D past ∧ C.ended s.left = false := by
      rcases hclient with ⟨-,hsends⟩ | ⟨-,hwaits⟩
      · exact C.sends_status _ _ _ hsends
      · exact C.waits_status _ _ _ hwaits
    exact hopen (htasks ▸ List.prefix_append _ _) hstatus (by omega)
  | @answering past todo k text half rest htasks hrequest hclient =>
    exact hopen (htasks ▸ List.prefix_append _ _) (C.waits_status _ _ _ hclient)
      (by omega)
  | finished hclient =>
    obtain ⟨hprinted,hended⟩ := C.done_status _ _ hclient
    exact ⟨⟨tasks,List.prefix_refl _,hprinted⟩,fun _ => hprinted,by simp [hended]⟩

theorem left_busy {b : Io} {e : Endpoint S} (hb : b.busy = true) (hsmooth : b.smooth = true)
    (he : P.io s.leftEnd b = some e) : ∃ a t, busy a = true ∧
      restrict (fun _ a => Act.smooth a = true) (session P Q) s a = some t :=
  ⟨.left b,_,hb,restrict_eq_some.mpr ⟨hsmooth,session_left he⟩⟩

theorem right_busy {b : Io} {e : Endpoint T} (hb : b.busy = true) (hsmooth : b.smooth = true)
    (he : Q.io s.rightEnd b = some e) : ∃ a t, busy a = true ∧
      restrict (fun _ a => Act.smooth a = true) (session P Q) s a = some t :=
  ⟨.right b,_,hb,restrict_eq_some.mpr ⟨hsmooth,session_right he⟩⟩

/-- Until the client is done, one of the processes can get on. -/
theorem Phase.moves (h : Phase C D tasks s n) (hn : n ≠ 0) : ∃ a t, busy a = true ∧
    restrict (fun _ a => Act.smooth a = true) (session P Q) s a = some t := by
  cases h with
  | ready htasks hclient => exact left_busy rfl rfl (io_compute (C.computes _ _ hclient))
  | @asking past todo k text half rest htasks hrequest hclient hserver htext hmore hright =>
    by_cases hrest : rest = []
    · have hbytes : s.rightEnd.inp.bytes ≠ [] := by simpa [hrest,Session.rightEnd] using hmore
      obtain ⟨b,u,hb,hsmooth,hio⟩ := D.waits_busy hserver hbytes
      exact right_busy hb hsmooth hio
    · obtain ⟨b,u,hb,hsmooth,hio⟩ := C.speaks_busy (e := s.leftEnd) hclient hrest hright
      exact left_busy hb hsmooth hio
  | @answering past todo k text half rest htasks hrequest hclient hserver htext hmore hright
      hleft =>
    by_cases hrest : rest = []
    · have hbytes : s.leftEnd.inp.bytes ≠ [] := by simpa [hrest,Session.leftEnd] using hmore
      obtain ⟨b,u,hb,hsmooth,hio⟩ := C.waits_busy hclient hbytes
      exact left_busy hb hsmooth hio
    · obtain ⟨b,u,hb,hsmooth,hio⟩ := D.speaks_busy (e := s.rightEnd) hserver hrest hleft
      exact right_busy hb hsmooth hio
  | finished => exact absurd rfl hn

end Phases

/-- A session of a client and a server that take turns: however the messages are cut, the
client shows the answers to its first requests in order, and the answers to all of them when it
is done. Until then one of the two can get on, and together they do so a bounded number of
times. -/
structure Served {P : Process S} {Q : Process T} {FrameP FrameQ : List UInt8 → Prop}
    (C : Client P FrameP κ β) (D : Server Q FrameQ) (tasks : List κ) (as : List Act)
    (t : Session S T) : Prop where
  shows : ∃ past, past <+: tasks ∧ C.printed t.left = shown C D past
  complete : C.ended t.left = true → C.printed t.left = shown C D tasks
  moves : C.ended t.left = false → ∃ a u, busy a = true ∧
    restrict (fun _ a => Act.smooth a = true) (session P Q) t a = some u
  bounded : C.ended t.left = false → as.countP busy ≤ work C D tasks

theorem served {P : Process S} {Q : Process T} {FrameP FrameQ : List UInt8 → Prop}
    {C : Client P FrameP κ β} {D : Server Q FrameQ} {tasks : List κ}
    (hF : Framed C D tasks) {s t : Session S T} (hclient : C.Ready (tasks,[]) s.left)
    (hserver : D.Waits () s.right []) (hright : s.toRight = ⟨[],false⟩)
    (hleft : s.toLeft = ⟨[],false⟩) {as : List Act}
    (hexec : exec (restrict (fun _ a => Act.smooth a = true) (session P Q)) s as = some t) :
    Served C D tasks as t := by
  have hstart : Phase C D tasks s (work C D tasks+1) :=
    .ready (List.nil_append _).symm hclient hserver hright hleft
  obtain ⟨m,hm,hbound⟩ := hstart.run hF hexec
  obtain ⟨hshows,hcomplete,hopen⟩ := hm.status
  refine ⟨hshows,hcomplete,fun hended => hm.moves (hopen hended),?_⟩
  intro hended
  have hne := hopen hended
  omega

end Exchange
end CPrograming
