import CPrograming.Web
import CPrograming.WebResponse

/-!
# The bounds of the request

`snprintf` returns the length of the untruncated text, and the clients pass that length to
`written`. A request of `MAXLINE` bytes or more is cut off in the line but not in the count, and
then the NUL and what the stack holds behind the line are sent.
-/

namespace CPrograming
namespace WebRequest

open SocketFunc

inductive Site
  | homePage
  | writeGetCmd
  | threadHomePage
  | threadWriteGetCmd
  deriving DecidableEq, Repr

/-- In some run, `n` is passed to `written` for the request for `name`, and `sent` are the bytes
that the kernel has accepted. `do_get_read` is the caller of `write_get_cmd` in
`web_thread.c`. -/
def Passes (name : List UInt8) (n : ℤ) (sent : List UInt8) : Site → Prop
  | .homePage => ∃ kernel writes reads line fd w,
      .written fd n w ∈ (WebResponse.Web.homePage kernel writes reads name line).calls ∧
        w.sent = sent
  | .writeGetCmd => ∃ (files : ℕ) (s : Web.State files) (i : Fin files) (a : Web.Answers),
      (s.file i).name = name ∧ (Web.writeGetCmd s i a).map Web.State.log =
        some (s.log ++ [.writeGetCmd i (s.file i).fd sent,
          .print "wrote %d bytes for %s\n" [.int n,.str name]])
  | .threadHomePage => ∃ kernel writes reads line fd w,
      .written fd n w ∈ (WebResponse.WebThread.homePage kernel writes reads name line).calls ∧
        w.sent = sent
  | .threadWriteGetCmd => ∃ kernel writes reads line fd w,
      .written fd n w ∈ (WebResponse.WebThread.doGetRead kernel writes reads name line).calls ∧
        w.sent = sent

section Calls

open WebResponse

variable {kernel : Kernel} {writes reads : ℕ} {name : List UInt8} {line : Memory UInt8}
  {fd n : ℤ} {w : Written}

theorem mem_bind {α β : Type} {r : Run α} {f : α → Run β} {c : Call} :
    c ∈ (r >>= f).calls ↔ c ∈ r.calls ∨ ∃ x, r.ret = some x ∧ c ∈ (f x).calls := by
  obtain ⟨calls,ret⟩ := r
  cases ret <;> simp [bind,Run.bind]

theorem written_notMem_response (answers : List ReadAnswer) (sock : ℤ) :
    .written fd n w ∉ (response sock answers).calls := by
  induction answers with
  | nil => simp [response]
  | cons a rest ih =>
    by_cases hzero : (a.upTo maxLine).ret = 0
    · simp [response,mem_bind,hzero,call,pure]
    · simp [response,mem_bind,hzero,call,ih]

theorem written_mem_fetch {requested : Run Unit} (h : .written fd n w ∉ requested.calls) :
    .written fd n w ∈ (fetch kernel writes reads name line requested).calls ↔
      fd = kernel.socket ∧ sendRequest name line (firsts writes kernel.write) = (n,w) := by
  cases hsend : sendRequest name line (firsts writes kernel.write) with
  | mk m v =>
    simp [fetch,tcpConnect,request,mem_bind,call,h,written_notMem_response,hsend,pure,eq_comm]

theorem written_mem_doGetRead :
    .written fd n w ∈ (WebThread.doGetRead kernel writes reads name line).calls ↔
      fd = kernel.socket ∧ sendRequest name line (firsts writes kernel.write) = (n,w) := by
  have hflags : Call.written fd n w ∉ (call (.setFlags .reading)).calls := by simp [call]
  have hlock : Call.written fd n w ∉ (lock kernel).calls := by
    cases hk : kernel.lock <;> simp [lock,hk,call]
  rw [WebThread.doGetRead,mem_bind,written_mem_fetch hflags]
  simp [mem_bind,hlock,call]

end Calls

theorem writeGetCmd_log {files : ℕ} {s : Web.State files} {i : Fin files} {a : Web.Answers}
    {n : ℤ} {sent : List UInt8} :
    (Web.writeGetCmd s i a).map Web.State.log =
        some (s.log ++ [.writeGetCmd i (s.file i).fd sent,
          .print "wrote %d bytes for %s\n" [.int n,.str (s.file i).name]]) ↔
      ∃ r, sendRequest (s.file i).name a.line a.write = (n,⟨some r,sent⟩) := by
  cases hsend : sendRequest (s.file i).name a.line a.write with
  | mk k w =>
    obtain ⟨ret,bytes⟩ := w
    cases ret with
    | none => simp [Web.writeGetCmd,hsend]
    | some r =>
      simp [Web.writeGetCmd,hsend,Web.State.record,Web.State.print,Web.State.put,and_comm]

def formatted (name : List UInt8) (line : Memory UInt8) : Memory UInt8 :=
  (snprintf line maxLine (getCmd name)).1

theorem formatted_eq (name : List UInt8) (line : Memory UInt8) :
    formatted name line = line.store 0 ((getCmd name).take (maxLine-1) ++ [0]) := rfl

theorem sendRequest_eq (name : List UInt8) (line : Memory UInt8) (answers : List WriteAnswer) :
    sendRequest name line answers = (((getCmd name).length : ℤ),
      written (formatted name line) (getCmd name).length answers) := rfl

/-- At each site the request is sent with some line and some results of `write`. -/
theorem Passes.sendRequest {name : List UInt8} {n : ℤ} {sent : List UInt8} {site : Site}
    (h : Passes name n sent site) :
    ∃ line answers, n = (getCmd name).length ∧
      sent = (written (formatted name line) (getCmd name).length answers).sent := by
  cases site with
  | homePage | threadHomePage =>
    obtain ⟨kernel,writes,reads,line,fd,w,hmem,rfl⟩ := h
    obtain ⟨_,hsend⟩ := (written_mem_fetch List.not_mem_nil).mp hmem
    obtain ⟨rfl,rfl⟩ := Prod.mk.inj hsend
    exact ⟨line,_,rfl,rfl⟩
  | threadWriteGetCmd =>
    obtain ⟨kernel,writes,reads,line,fd,w,hmem,rfl⟩ := h
    obtain ⟨_,hsend⟩ := written_mem_doGetRead.mp hmem
    obtain ⟨rfl,rfl⟩ := Prod.mk.inj hsend
    exact ⟨line,_,rfl,rfl⟩
  | writeGetCmd =>
    obtain ⟨files,s,i,a,rfl,hlog⟩ := h
    obtain ⟨_,hsend⟩ := writeGetCmd_log.mp hlog
    obtain ⟨rfl,hw⟩ := Prod.mk.inj hsend
    exact ⟨a.line,a.write,rfl,congrArg Written.sent hw.symm⟩

theorem getCmd_length (name : List UInt8) : (getCmd name).length = name.length+17 := by
  simp [getCmd,ascii]

theorem written_accepted (buffer : Memory UInt8) {len : ℕ} (h : 0 < len) :
    written buffer len [.accepted len] = ⟨some (len : ℤ),buffer.load 0 len⟩ := by
  have hret : (Writing.after len 0).ret = none := if_pos h
  have hbody := Writing.body_accepted h (Nat.zero_add len).le
  rw [written_eq_run,Writing.enter_eq_after,Writing.run,if_pos hret,hbody,Writing.run]
  simp [Writing.after]

theorem passes_accepted (name : List UInt8) (line : Memory UInt8) (site : Site) :
    Passes name (getCmd name).length
      ((formatted name line).load 0 (getCmd name).length) site := by
  have hlen : 0 < (getCmd name).length := by
    rw [getCmd_length]
    omega
  let accepts := WriteAnswer.accepted (getCmd name).length
  let kernel : WebResponse.Kernel := ⟨3,0,fun _ => accepts,fun _ => .data [],true⟩
  have hwritten := written_accepted (formatted name line) hlen
  have hsend : sendRequest name line (WebResponse.firsts 1 kernel.write) =
      (((getCmd name).length : ℤ),⟨some ((getCmd name).length : ℤ),
        (formatted name line).load 0 (getCmd name).length⟩) := by
    rw [sendRequest_eq,← hwritten]
    rfl
  cases site with
  | homePage | threadHomePage =>
    exact ⟨kernel,1,1,line,3,_,(written_mem_fetch List.not_mem_nil).mpr ⟨rfl,hsend⟩,rfl⟩
  | threadWriteGetCmd =>
    exact ⟨kernel,1,1,line,3,_,written_mem_doGetRead.mpr ⟨rfl,hsend⟩,rfl⟩
  | writeGetCmd =>
    exact ⟨1,Web.init (fun _ => name) ∅,0,⟨3,.connected,[accepts],line,.fail,true,.data []⟩,rfl,
      writeGetCmd_log.mpr ⟨_,hsend⟩⟩

/-- A request that is cut off is in the line up to its last but one byte, with the NUL behind. -/
theorem formatted_load {name : List UInt8} {k : ℕ} (h : (getCmd name).length = maxLine+k)
    (line : Memory UInt8) :
    (formatted name line).load 0 (getCmd name).length =
      (getCmd name).take (maxLine-1) ++ [0] ++ line.load maxLine k := by
  have hlen : ((getCmd name).take (maxLine-1) ++ [0]).length = maxLine := by
    rw [List.length_append,List.length_take,h,Nat.min_eq_left (by omega)]
    rfl
  have hfront : (formatted name line).load 0 maxLine = (getCmd name).take (maxLine-1) ++ [0] := by
    have hload := Memory.load_store line 0 ((getCmd name).take (maxLine-1) ++ [0])
    rwa [hlen] at hload
  have hback : (formatted name line).load (0+maxLine) k = line.load maxLine k := by
    rw [Nat.zero_add]
    refine Memory.load_congr fun j hj _ => ?_
    rw [formatted_eq]
    refine Memory.store_outside line (Or.inr ?_)
    rwa [hlen,Nat.zero_add]
  rw [h,Memory.load_add,hfront,hback]

theorem getCmd_getLast (name : List UInt8) : (getCmd name).getLast? = some 10 := by
  rw [getCmd,List.getLast?_append]
  rfl

/-- At each site the count and the bytes are those of the request exactly if the text of the
request is shorter than the line. -/
theorem passes_bounded_iff (name : List UInt8) (site : Site) :
    (∀ n sent, Passes name n sent site → n ≤ maxLine ∧ sent <+: getCmd name) ↔
      (getCmd name).length < maxLine := by
  constructor
  · intro h
    by_contra hlong
    obtain ⟨k,hk⟩ := Nat.exists_eq_add_of_le (not_lt.mp hlong)
    obtain ⟨hn,hsent⟩ := h _ _ (passes_accepted name (fun _ => 0) site)
    rw [formatted_load hk] at hsent
    obtain rfl : k = 0 := by omega
    have heq := hsent.eq_of_length (by rw [hk]; simp [hk,maxLine,Memory.load])
    have hlast := getCmd_getLast name
    rw [← heq] at hlast
    simp [Memory.load] at hlast
  · intro hshort n sent hpasses
    obtain ⟨line,answers,rfl,rfl⟩ := hpasses.sendRequest
    have htake : (getCmd name).take (maxLine-1) = getCmd name :=
      List.take_of_length_le (by omega)
    have hload : (formatted name line).load 0 (getCmd name).length = getCmd name := by
      rw [formatted_eq,htake]
      exact Memory.load_store_prefix line 0 (getCmd name) [0]
    have hsent := written_sentFrom (formatted name line) (getCmd name).length answers
    refine ⟨by exact_mod_cast hshort.le,?_⟩
    rw [hsent.sent]
    have hle := (formatted name line).load_le 0 hsent.length
    rwa [Int.toNat_natCast,hload] at hle

def longName : List UInt8 := List.replicate 1020 97

/-- The line with the request for `longName`, and 13 bytes of a stack that is full of 7. -/
def overrun : List UInt8 := (getCmd longName).take (maxLine-1) ++ [0] ++ List.replicate 13 7

theorem passes_overrun (site : Site) : Passes longName 1037 overrun site := by
  have hlen : (getCmd longName).length = maxLine+13 := by
    rw [getCmd_length,longName,List.length_replicate]
    rfl
  have hpasses := passes_accepted longName (fun _ => 7) site
  rwa [formatted_load hlen,hlen] at hpasses

/-- For a name of 1020 bytes each site passes 1037 bytes, and bytes from outside the line are
sent. -/
theorem passes_behind_line :
    ¬(1037 ≤ (maxLine : ℤ)) ∧ ¬overrun <+: getCmd longName ∧
      Passes longName 1037 overrun .homePage ∧ Passes longName 1037 overrun .writeGetCmd ∧
      Passes longName 1037 overrun .threadHomePage ∧
      Passes longName 1037 overrun .threadWriteGetCmd :=
  ⟨by decide,by decide +kernel,passes_overrun _,passes_overrun _,passes_overrun _,
    passes_overrun _⟩

end WebRequest
end CPrograming
