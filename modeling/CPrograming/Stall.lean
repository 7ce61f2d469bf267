import CPrograming.Exchange

/-!
# A request that is not complete

The client and the server of an exchange need not agree on what a message is. If the server takes
the first request of the client for a part of a message, it waits for the rest, and the client
for the answer.
-/

namespace CPrograming
namespace Exchange

open Runs Connection

variable {S T κ β : Type*} {P : Process S} {Q : Process T} {FrameP FrameQ : List UInt8 → Prop}

/-- The client does some tasks without a request, and then sends a text that lacks something. -/
structure Unfinished (C : Client P FrameP κ β) (D : Server Q FrameQ) (skipped : List κ) (k : κ)
    (text : List UInt8) : Prop where
  skip : ∀ j ∈ skipped, C.request j = none
  request : C.request k = some text
  request_ne : text ≠ []
  part : ∃ more, more ≠ [] ∧ FrameQ (text ++ more)

def shownAlone (C : Client P FrameP κ β) (tasks : List κ) : List β :=
  tasks.flatMap fun j => C.shows j []

inductive Stalling (C : Client P FrameP κ β) (D : Server Q FrameQ) (skipped : List κ) (k : κ)
    (later : List κ) (text : List UInt8) (s : Session S T) : ℕ → Prop
  | ready {past todo : List κ} (hskipped : skipped = past ++ todo)
      (hclient : C.Ready (todo ++ k :: later,shownAlone C past) s.left)
      (hserver : D.Waits () s.right []) (hright : s.toRight = ⟨[],false⟩)
      (hleft : s.toLeft = ⟨[],false⟩) :
      Stalling C D skipped k later text s (todo.length+1+2*text.length+1)
  | asking {half rest : List UInt8}
      (hclient : C.Speaks (k,later,shownAlone C skipped) s.left rest)
      (hserver : D.Waits () s.right half) (htext : half ++ (s.toRight.bytes ++ rest) = text)
      (hright : s.toRight.closed = false) (hleft : s.toLeft = ⟨[],false⟩) :
      Stalling C D skipped k later text s (2*rest.length+s.toRight.bytes.length+1)

variable {C : Client P FrameP κ β} {D : Server Q FrameQ} {skipped later : List κ} {k : κ}
  {text : List UInt8} {s t : Session S T} {n : ℕ}

theorem Stalling.step_left (hU : Unfinished C D skipped k text)
    (h : Stalling C D skipped k later text s n) {e : Endpoint S} {a : Io}
    (hstep : restrict (fun _ a => Io.smooth a = true) P.io s.leftEnd a = some e) :
    ∃ m, Stalling C D skipped k later text ⟨e.proc,s.right,e.out,e.inp⟩ m ∧
      m+a.busy.toNat ≤ n := by
  cases h with
  | @ready past todo hskipped hclient hserver hright hleft =>
    obtain ⟨-,hio⟩ := restrict_eq_some.mp hstep
    have hp : P.pending s.leftEnd.proc = .compute := C.computes _ _ hclient
    cases io_moved hio with
    | compute =>
      cases todo with
      | nil =>
        rw [List.append_nil] at hskipped
        subst past
        have hspeaks : C.Speaks (k,later,shownAlone C skipped) (P.compute s.left) text :=
          Or.inl ⟨hU.request_ne,C.next _ _ _ _ _ hU.request hU.request_ne hclient⟩
        refine ⟨_,.asking hspeaks hserver ?_ ?_ hleft,?_⟩
        · simp [Session.leftEnd,hright]
        · simp [Session.leftEnd,hright]
        · simp only [Session.leftEnd,hright,List.length_nil,Io.busy,Bool.toNat_true]
          omega
      | cons j todo =>
        have hskips := C.skips j _ _ _ (hU.skip j (by simp [hskipped])) hclient
        have hshown : shownAlone C past ++ C.shows j [] = shownAlone C (past ++ [j]) := by
          simp [shownAlone]
        rw [hshown] at hskips
        refine ⟨_,.ready (by rw [hskipped,List.append_assoc]; rfl) hskips hserver hright hleft,?_⟩
        simp only [Io.busy,Bool.toNat_true,List.length_cons]
        omega
    | data hp' | eof hp' | readFail hp' | sent hp' | writeFail hp' | close hp' =>
      rw [hp] at hp'
      cases hp'
  | @asking half rest hclient hserver htext hright hleft =>
    obtain ⟨new,more,rfl,hbusy,hspeaks,hinp,hout⟩ := C.speak hclient hleft hright hstep
    refine ⟨_,.asking hspeaks hserver ?_ (by rw [hout]) (hinp.trans hleft),?_⟩
    · rw [hout,← htext]
      simp [Session.leftEnd]
    · have hlen : a.busy.toNat ≤ new.length := by
        cases hb : a.busy with
        | false => exact Nat.zero_le _
        | true => exact List.length_pos_iff.mpr (hbusy hb)
      simp only [hout,Session.leftEnd,List.length_append]
      omega

theorem Stalling.step_right (hU : Unfinished C D skipped k text)
    (h : Stalling C D skipped k later text s n) {e : Endpoint T} {a : Io}
    (hstep : restrict (fun _ a => Io.smooth a = true) Q.io s.rightEnd a = some e) :
    ∃ m, Stalling C D skipped k later text ⟨s.left,e.proc,e.inp,e.out⟩ m ∧
      m+a.busy.toNat ≤ n := by
  cases h with
  | @ready past todo hskipped hclient hserver hright hleft =>
    rcases D.listen hserver (by simp [Session.rightEnd,hright]) hstep with
      ⟨hbusy,hwaits,hinp,hout⟩ | ⟨len,new,rest,-,-,hne,hin,-⟩
    · exact ⟨_,.ready hskipped hclient hwaits (hinp.trans hright) (hout.trans hleft),
        by simp [hbusy]⟩
    · simp [Session.rightEnd,hright,hne] at hin
  | @asking half rest hclient hserver htext hright hleft =>
    rcases D.listen hserver hright hstep with
      ⟨hbusy,hwaits,hinp,hout⟩ | ⟨len,new,more,hp,hlen,hne,hin,rfl⟩
    · have hsame : e.inp = s.toRight := hinp
      refine ⟨_,.asking hclient hwaits (by rw [hsame]; exact htext) (by rw [hsame]; exact hright)
        (hout.trans hleft),?_⟩
      simp [hsame,hbusy]
    · have hbytes : s.toRight.bytes = new ++ more := hin
      obtain ⟨lacking,hlacking,hframe⟩ := hU.part
      rw [hbytes] at htext
      have hwhole : half ++ new ++ (more ++ rest ++ lacking) = text ++ lacking := by
        rw [← htext]
        simp
      have hwaits := D.heard () _ half len new (more ++ rest ++ lacking) hserver hp hlen hne
        (by simp [hlacking]) (hwhole ▸ hframe)
      refine ⟨_,.asking hclient hwaits (by rw [← htext]; simp) rfl hleft,?_⟩
      have hpos := List.length_pos_iff.mpr hne
      have hbit := Bool.toNat_le a.busy
      simp only [hbytes,List.length_append]
      omega

theorem Stalling.step (hU : Unfinished C D skipped k text)
    (h : Stalling C D skipped k later text s n) {a : Act}
    (hstep : restrict (fun _ a => Act.smooth a = true) (session P Q) s a = some t) :
    ∃ m, Stalling C D skipped k later text t m ∧ m+(busy a).toNat ≤ n := by
  obtain ⟨hsmooth,hsession⟩ := restrict_eq_some.mp hstep
  cases a with
  | left b =>
    obtain ⟨e,he,rfl⟩ := Option.map_eq_some_iff.mp hsession
    exact h.step_left hU (restrict_eq_some.mpr ⟨hsmooth,he⟩)
  | right b =>
    obtain ⟨e,he,rfl⟩ := Option.map_eq_some_iff.mp hsession
    exact h.step_right hU (restrict_eq_some.mpr ⟨hsmooth,he⟩)
  | cutRight k | cutLeft k => cases hsmooth

theorem Stalling.pos (h : Stalling C D skipped k later text s n) : 0 < n := by
  cases h <;> omega

theorem Stalling.status (h : Stalling C D skipped k later text s n) :
    (∃ past, past <+: skipped ∧ C.printed s.left = shownAlone C past) ∧
      C.ended s.left = false ∧ ∃ half, half <+: text ∧ D.Waits () s.right half := by
  cases h with
  | @ready past todo hskipped hclient hserver =>
    obtain ⟨hprinted,hended⟩ := C.ready_status _ _ hclient
    exact ⟨⟨past,hskipped ▸ List.prefix_append _ _,hprinted⟩,hended,[],List.nil_prefix,hserver⟩
  | @asking half rest hclient hserver htext =>
    have hstatus : C.printed s.left = shownAlone C skipped ∧ C.ended s.left = false := by
      rcases hclient with ⟨-,hsends⟩ | ⟨-,hwaits⟩
      · exact C.sends_status _ _ _ hsends
      · exact C.waits_status _ _ _ hwaits
    exact ⟨⟨skipped,List.prefix_refl _,hstatus.1⟩,hstatus.2,half,
      htext ▸ List.prefix_append _ _,hserver⟩

/-- Both wait: the client for an answer to what it has sent, the server for the rest of it. -/
def Deadlocked (C : Client P FrameP κ β) (D : Server Q FrameQ) (skipped : List κ) (k : κ)
    (later : List κ) (text : List UInt8) (s : Session S T) : Prop :=
  C.Waits (k,later,shownAlone C skipped) s.left [] ∧ D.Waits () s.right text

/-- Until then one of the two can get on. -/
theorem Stalling.moves (h : Stalling C D skipped k later text s n) :
    Deadlocked C D skipped k later text s ∨ ∃ a t, busy a = true ∧
      restrict (fun _ a => Act.smooth a = true) (session P Q) s a = some t := by
  cases h with
  | ready hskipped hclient =>
    exact Or.inr (left_busy rfl rfl (io_compute (C.computes _ _ hclient)))
  | @asking half rest hclient hserver htext hright =>
    by_cases hbytes : s.toRight.bytes = []
    · rcases hclient with ⟨hne,hsends⟩ | ⟨rfl,hwaits⟩
      · obtain ⟨b,u,hb,hsmooth,hio⟩ := C.speaks_busy (e := s.leftEnd) (Or.inl ⟨hne,hsends⟩)
          hne hright
        exact Or.inr (left_busy hb hsmooth hio)
      · rw [hbytes,List.append_nil,List.append_nil] at htext
        exact Or.inl ⟨hwaits,htext ▸ hserver⟩
    · obtain ⟨b,u,hb,hsmooth,hio⟩ := D.waits_busy (e := s.rightEnd) hserver hbytes
      exact Or.inr (right_busy hb hsmooth hio)

/-- A session that comes to no answer: the client shows what it shows without one and does not
come to an end, the server waits with a part of the text, and the two get on a bounded number
of times before they are deadlocked. -/
structure Stalled (C : Client P FrameP κ β) (D : Server Q FrameQ) (skipped : List κ) (k : κ)
    (later : List κ) (text : List UInt8) (as : List Act) (t : Session S T) : Prop where
  shows : ∃ past, past <+: skipped ∧ C.printed t.left = shownAlone C past
  running : C.ended t.left = false
  waits : ∃ half, half <+: text ∧ D.Waits () t.right half
  bounded : as.countP busy ≤ skipped.length+1+2*text.length
  moves : Deadlocked C D skipped k later text t ∨ ∃ a u, busy a = true ∧
    restrict (fun _ a => Act.smooth a = true) (session P Q) t a = some u

theorem stalled (hU : Unfinished C D skipped k text)
    (hclient : C.Ready (skipped ++ k :: later,[]) s.left) (hserver : D.Waits () s.right [])
    (hright : s.toRight = ⟨[],false⟩) (hleft : s.toLeft = ⟨[],false⟩) {as : List Act}
    (hexec : exec (restrict (fun _ a => Act.smooth a = true) (session P Q)) s as = some t) :
    Stalled C D skipped k later text as t := by
  have hstart : Stalling C D skipped k later text s (skipped.length+1+2*text.length+1) :=
    .ready (List.nil_append _).symm hclient hserver hright hleft
  obtain ⟨m,hm,hbound⟩ := exec_indexed busy
    (fun x n a y hx hxy => (hx.step hU hxy).imp fun _ hy => ⟨hy.1,Or.inr hy.2⟩) hstart hexec
  obtain ⟨hshows,hrunning,hwaits⟩ := hm.status
  have hpos := hm.pos
  exact ⟨hshows,hrunning,hwaits,by omega,hm.moves⟩

end Exchange
end CPrograming
