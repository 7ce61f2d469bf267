import CPrograming.Runs
import CPrograming.SocketFunc

/-!
# The calls of the echo servers

`select_server.c` and `poll_server.c` accept connections, read from the ready ones
into one buffer and write back what they read. Each keeps a log of its calls here;
which descriptors are open and what a connection has sent and received are functions
of the log.
-/

namespace CPrograming
namespace EchoServer

open Runs SocketFunc

/-- A call of the server and its result. The result of `select` or `poll` is in `W`. -/
inductive Event (W : Type)
  | wait (result : W)
  | accept (fd : ℤ)
  | read (fd : ℤ) (got : ReadAnswer)
  | write (fd : ℤ) (sent : List UInt8) (ret : ℤ)
  | close (fd : ℤ)
  | print (text : String) (args : List PrintArg)
  deriving DecidableEq

variable {W : Type}

def Event.waited : Event W → Option W
  | .wait result => some result
  | _ => none

def Event.accepted : Event W → Option ℤ
  | .accept fd => if 0 ≤ fd then some fd else none
  | _ => none

/-- The last call of `select` or `poll`, and the calls since. -/
def iteration (log : List (Event W)) : Option (W × List (Event W)) := since Event.waited log

def Event.opens (opened : FdSet) : Event W → FdSet
  | .accept fd => if 0 ≤ fd then insert fd opened else opened
  | .close fd => opened.erase fd
  | _ => opened

def openAfter (base : FdSet) (log : List (Event W)) : FdSet := log.foldl Event.opens base

def live (log : List (Event W)) : FdSet := openAfter ∅ log

def reads (log : List (Event W)) : List ℤ :=
  log.filterMap fun e =>
    match e with
    | .read fd _ => some fd
    | _ => none

def readFrom (fd : ℤ) (log : List (Event W)) : List UInt8 :=
  log.flatMap fun e =>
    match e with
    | .read f got => if f = fd then got.bytes else []
    | _ => []

def writtenTo (fd : ℤ) (log : List (Event W)) : List UInt8 :=
  log.flatMap fun e =>
    match e with
    | .write f sent _ => if f = fd then sent else []
    | _ => []

/-- `read(fd, buffer, MAXLINE)`: a descriptor that is not open gives `EBADF`. -/
def readOpen (opened : FdSet) (fd : ℤ) (a : ReadAnswer) : ReadAnswer :=
  if fd ∈ opened then a.upTo maxLine else .fail .other

def acceptable (opened : FdSet) (fd : ℤ) : Prop := fd = -1 ∨ 0 ≤ fd ∧ fd ∉ opened

instance acceptableDecidable (opened : FdSet) (fd : ℤ) : Decidable (acceptable opened fd) :=
  inferInstanceAs (Decidable (_ ∨ _))

section Logs

variable (log es : List (Event W)) (base : FdSet) (fd : ℤ)

theorem openAfter_append : openAfter base (log ++ es) = openAfter (openAfter base log) es :=
  List.foldl_append

theorem live_append : live (log ++ es) = openAfter (live log) es := List.foldl_append

theorem reads_append : reads (log ++ es) = reads log ++ reads es := List.filterMap_append

theorem mem_reads {log : List (Event W)} {fd : ℤ} {got : ReadAnswer} (h : .read fd got ∈ log) :
    fd ∈ reads log :=
  List.mem_filterMap.mpr ⟨_,h,rfl⟩

theorem iteration_wait (log : List (Event W)) {es : List (Event W)} (w : W)
    (hes : ∀ e ∈ es, e.waited = none) : iteration (log ++ .wait w :: es) = some (w,es) := by
  have hwait : since Event.waited (log ++ [.wait w]) = some (w,[]) := since_snoc_start rfl
  rw [List.append_cons,iteration,since_append hes,hwait]
  rfl

theorem iteration_extend {log es fs : List (Event W)} {w : W} (hes : ∀ e ∈ es, e.waited = none)
    (h : iteration log = some (w,fs)) : iteration (log ++ es) = some (w,fs ++ es) := by
  rw [iteration,since_append hes]
  exact congrArg (Option.map _) h

theorem iteration_append {log es fs : List (Event W)} {w : W}
    (hes : ∀ e ∈ es, e.waited = none) (h : iteration (log ++ es) = some (w,fs)) :
    ∃ es', iteration log = some (w,es') ∧ fs = es' ++ es := by
  rw [iteration,since_append hes,Option.map_eq_some_iff] at h
  obtain ⟨⟨w',es'⟩,hlog,heq⟩ := h
  obtain ⟨rfl,rfl⟩ := Prod.mk.inj heq
  exact ⟨es',hlog,rfl⟩

theorem readFrom_append : readFrom fd (log ++ es) = readFrom fd log ++ readFrom fd es :=
  List.flatMap_append

theorem writtenTo_append : writtenTo fd (log ++ es) = writtenTo fd log ++ writtenTo fd es :=
  List.flatMap_append

end Logs

section Descriptors

variable {base : FdSet} {log : List (Event W)} {fd : ℤ}

/-- The connections are open beside the descriptors the process started with. -/
structure Apart (base : FdSet) (log : List (Event W)) : Prop where
  opened : openAfter base log = base ∪ live log
  disjoint : Disjoint base (live log)
  nonneg : ∀ fd ∈ live log, 0 ≤ fd

theorem Apart.nil (base : FdSet) : Apart base ([] : List (Event W)) := by
  refine ⟨?_,?_,?_⟩ <;> simp [live,openAfter]

theorem Apart.mem_opened (h : Apart base log) (hfd : fd ∈ live log) :
    fd ∈ openAfter base log := by
  rw [h.opened]
  exact Finset.mem_union_right base hfd

theorem Apart.not_mem_base (h : Apart base log) (hfd : fd ∈ live log) : fd ∉ base :=
  Finset.disjoint_right.mp h.disjoint hfd

theorem Apart.of_unopened (h : Apart base log) {es : List (Event W)}
    (hopen : openAfter (openAfter base log) es = openAfter base log)
    (hlive : openAfter (live log) es = live log) : Apart base (log ++ es) := by
  refine ⟨?_,?_,?_⟩
  · rw [openAfter_append,hopen,live_append,hlive,h.opened]
  · rw [live_append,hlive]
    exact h.disjoint
  · rw [live_append,hlive]
    exact h.nonneg

theorem Apart.accept (h : Apart base log) {es : List (Event W)} (hfd : 0 ≤ fd)
    (hnew : fd ∉ openAfter base log) (hes : ∀ o, openAfter o es = insert fd o) :
    Apart base (log ++ es) := by
  have hlive : live (log ++ es) = insert fd (live log) := by rw [live_append,hes]
  rw [h.opened,Finset.mem_union,not_or] at hnew
  refine ⟨?_,?_,?_⟩
  · rw [openAfter_append,hes,hlive,h.opened,Finset.union_insert]
  · rw [hlive,Finset.disjoint_insert_right]
    exact ⟨hnew.1,h.disjoint⟩
  · rw [hlive]
    intro x hx
    rcases Finset.mem_insert.mp hx with rfl | hx
    · exact hfd
    · exact h.nonneg x hx

theorem Apart.close (h : Apart base log) {es : List (Event W)} (hfd : fd ∈ live log)
    (hes : ∀ o, openAfter o es = o.erase fd) : Apart base (log ++ es) := by
  have hlive : live (log ++ es) = (live log).erase fd := by rw [live_append,hes]
  refine ⟨?_,?_,?_⟩
  · rw [openAfter_append,hes,hlive,h.opened,Finset.erase_union_distrib,
      Finset.erase_eq_of_notMem (h.not_mem_base hfd)]
  · rw [hlive]
    exact h.disjoint.mono_right (Finset.erase_subset fd _)
  · rw [hlive]
    intro x hx
    exact h.nonneg x (Finset.mem_of_mem_erase hx)

end Descriptors

section Echo

/-- As long as no write to `fd` fails, it has been sent what was read from it. -/
def Echoed (fd : ℤ) (es : List (Event W)) : Prop :=
  (∀ sent ret, Event.write fd sent ret ∈ es → ret ≠ -1) → writtenTo fd es = readFrom fd es

theorem Echoed.append (fd : ℤ) (xs ys : List (Event W)) (hx : Echoed fd xs) (hy : Echoed fd ys) :
    Echoed fd (xs ++ ys) := by
  intro h
  rw [writtenTo_append,readFrom_append,hx,hy]
  · intro sent ret hmem
    exact h sent ret (List.mem_append_right xs hmem)
  · intro sent ret hmem
    exact h sent ret (List.mem_append_left ys hmem)

theorem echoed_nil (fd : ℤ) : Echoed fd ([] : List (Event W)) := by
  intro _
  rfl

/-- A log in which every read that gets bytes is followed by the write of the same
bytes to the same descriptor. -/
inductive Echoing : List (Event W) → Prop
  | nil : Echoing []
  | other {log : List (Event W)} {e : Event W} (h : Echoing log)
      (hread : ∀ fd got, e = .read fd got → got.bytes = [])
      (hwrite : ∀ fd sent ret, e ≠ .write fd sent ret) : Echoing (log ++ [e])
  | echo {log prints : List (Event W)} {fd ret : ℤ} {got : ReadAnswer} {sent : List UInt8}
      (h : Echoing log) (hprints : ∀ e ∈ prints, ∃ text args, e = .print text args)
      (hsent : ret ≠ -1 → sent = got.bytes) :
      Echoing (log ++ (.read fd got :: prints ++ [.write fd sent ret]))

theorem echoed_other (fd : ℤ) {e : Event W} (hread : ∀ fd got, e = .read fd got → got.bytes = [])
    (hwrite : ∀ fd sent ret, e ≠ .write fd sent ret) : Echoed fd [e] := by
  intro _
  cases e with
  | read f got => simp [writtenTo,readFrom,hread f got rfl]
  | write f sent ret => exact absurd rfl (hwrite f sent ret)
  | wait | accept | close | print => rfl

theorem echoed_echo (fd f : ℤ) {prints : List (Event W)} {ret : ℤ} {got : ReadAnswer}
    {sent : List UInt8} (hprints : ∀ e ∈ prints, ∃ text args, e = .print text args)
    (hsent : ret ≠ -1 → sent = got.bytes) :
    Echoed fd (.read f got :: prints ++ [.write f sent ret]) := by
  intro h
  have hnothing : writtenTo fd prints = [] ∧ readFrom fd prints = [] := by
    simp only [writtenTo,readFrom,List.flatMap_eq_nil_iff]
    constructor <;>
    · intro e he
      obtain ⟨text,args,rfl⟩ := hprints e he
      rfl
  rw [List.cons_append,← List.singleton_append,writtenTo_append,writtenTo_append,readFrom_append,
    readFrom_append,hnothing.1,hnothing.2]
  by_cases hf : f = fd
  · subst f
    have hret := h sent ret (by simp)
    simp [writtenTo,readFrom,hsent hret]
  · simp [writtenTo,readFrom,hf]

/-- In such a log every connection, from its `accept` to the next one that returns its
descriptor, has been sent what it sent. -/
theorem Echoing.everySession {log : List (Event W)} (h : Echoing log) :
    EverySession Event.accepted Echoed log := by
  induction h with
  | nil => exact everySession_of_none (by simp)
  | @other log e _ hread hwrite ih =>
    refine ih.append Echoed.append ?_ ?_
    · intro fd
      by_cases he : e.accepted = some fd
      · simpa [session,he] using echoed_nil fd
      · simpa [session,he] using echoed_other fd hread hwrite
    · intro pre x post fd hsplit _
      obtain ⟨-,rfl⟩ : pre = [] ∧ post = [] := by
        cases pre <;> cases post <;> simp at hsplit ⊢
      exact echoed_nil fd
  | @echo log prints f ret got sent _ hprints hsent ih =>
    have hnone : ∀ e ∈ Event.read f got :: prints ++ [.write f sent ret], e.accepted = none := by
      intro e he
      simp only [List.mem_append,List.mem_cons,List.not_mem_nil,or_false] at he
      rcases he with (rfl | he) | rfl
      · rfl
      · obtain ⟨text,args,rfl⟩ := hprints e he
        rfl
      · rfl
    refine ih.append Echoed.append ?_ (everySession_of_none hnone)
    intro fd
    rw [session_eq_self hnone]
    exact echoed_echo fd f hprints hsent

/-- `written` sends what `read` put into the buffer. After a failed `read` the length
is -1 and nothing is sent. -/
theorem written_store {buffer : Memory UInt8} {got : ReadAnswer} {answers : List WriteAnswer}
    {ret : ℤ} (h : (written (buffer.store 0 got.bytes) got.ret answers).ret = some ret)
    (hret : ret ≠ -1) :
    (written (buffer.store 0 got.bytes) got.ret answers).sent = got.bytes := by
  have hfrom := written_sentFrom (buffer.store 0 got.bytes) got.ret answers
  have hlen : got.ret.toNat = got.bytes.length := by
    cases got with
    | data bytes => exact Int.toNat_natCast _
    | fail e => rfl
  rcases hfrom.ret ret h with hneg | ⟨-,hall⟩
  · exact absurd hneg hret
  · rw [hfrom.sent,hall,hlen,Memory.load_store]

end Echo

end EchoServer
end CPrograming
