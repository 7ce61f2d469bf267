import CPrograming.WebRequest
import CPrograming.WebThread
import CPrograming.Written

/-!
# The response loops of the web clients

`home_page` of both programs and `do_get_read` connect, send a request, and read until
`read` returns 0. The results of `socket`, `connect` and `written` are not looked at, and a
failed `read` is counted as a piece of -1 bytes.
-/

namespace CPrograming
namespace WebResponse

open WebRequest SocketFunc

/-- The answers of the system to one of these functions. `socket` and `connect` are called once;
`write` and `read` have an answer for each call that there may be, and `lock` says whether
`pthread_mutex_lock` returns. -/
structure Kernel where
  socket : ℤ
  connect : ℤ
  write : ℕ → WriteAnswer
  read : ℕ → ReadAnswer
  lock : Bool

inductive Call
  | socket (fd : ℤ)
  | connect (fd ret : ℤ)
  | written (fd n : ℤ) (w : SocketFunc.Written)
  | setFlags (flags : WebThread.Flags)
  | read (fd : ℤ) (got : ReadAnswer)
  | close (fd : ℤ)
  | lock
  | incrementNdone
  | signal
  | unlock
  deriving DecidableEq

/-- What a function has done so far, and its result once it has returned. -/
structure Run (α : Type) where
  calls : List Call
  ret : Option α
  deriving DecidableEq

def Run.bind {α β : Type} (r : Run α) (f : α → Run β) : Run β :=
  match r.ret with
  | none => ⟨r.calls,none⟩
  | some x => ⟨r.calls ++ (f x).calls,(f x).ret⟩

instance : Monad Run where
  pure x := ⟨[],some x⟩
  bind := Run.bind

@[simp] theorem bind_ret {α β : Type} (r : Run α) (f : α → Run β) :
    (r >>= f).ret = r.ret.bind fun x => (f x).ret := by
  obtain ⟨calls,ret⟩ := r
  cases ret <;> rfl

@[simp] theorem pure_ret {α : Type} (x : α) : (pure x : Run α).ret = some x := rfl

def call (c : Call) : Run Unit := ⟨[c],some ()⟩

@[simp] theorem call_ret (c : Call) : (call c).ret = some () := rfl

def firsts {α : Type} (k : ℕ) (answers : ℕ → α) : List α := (List.range k).map answers

theorem mem_firsts {α : Type} {k : ℕ} {answers : ℕ → α} {x : α} :
    x ∈ firsts k answers ↔ ∃ i < k, answers i = x := by
  simp [firsts]

/-- `tcp_connect` returns its socket, whatever `connect` returns. -/
def tcpConnect (kernel : Kernel) : Run ℤ := do
  call (.socket kernel.socket)
  call (.connect kernel.socket kernel.connect)
  return kernel.socket

def request (fd : ℤ) (name : List UInt8) (line : Memory UInt8) (writes : List WriteAnswer) :
    Run ℤ :=
  let (n,w) := sendRequest name line writes
  ⟨[.written fd n w],w.ret⟩

/-- The loop over the response. With no answer left it is still in the loop. -/
def response (fd : ℤ) : List ReadAnswer → Run Unit
  | [] => ⟨[],none⟩
  | a :: rest => do
    let got := a.upTo maxLine
    call (.read fd got)
    if got.ret = 0 then return () else response fd rest

/-- The common part of the functions, with the first `writes` answers to `write` and the first
`reads` answers to `read`. -/
def fetch (kernel : Kernel) (writes reads : ℕ) (name : List UInt8) (line : Memory UInt8)
    (requested : Run Unit) : Run Unit := do
  let fd ← tcpConnect kernel
  let _ ← request fd name line (firsts writes kernel.write)
  requested
  response fd (firsts reads kernel.read)
  call (.close fd)

/-- `home_page` of `web.c`. -/
def Web.homePage (kernel : Kernel) (writes reads : ℕ) (fname : List UInt8)
    (line : Memory UInt8) : Run Unit :=
  fetch kernel writes reads fname line (return ())

/-- `home_page` of `web_thread.c`. -/
def WebThread.homePage (kernel : Kernel) (writes reads : ℕ) (fname : List UInt8)
    (line : Memory UInt8) : Run Unit :=
  fetch kernel writes reads fname line (return ())

/-- `pthread_mutex_lock`, which may never return. -/
def lock (kernel : Kernel) : Run Unit :=
  if kernel.lock then call .lock else ⟨[],none⟩

def WebThread.doGetRead (kernel : Kernel) (writes reads : ℕ) (name : List UInt8)
    (line : Memory UInt8) : Run Unit := do
  fetch kernel writes reads name line (call (.setFlags .reading))
  call (.setFlags .done)
  lock kernel
  call .incrementNdone
  call .signal
  call .unlock

/-- Some `write` returns 0 or fails for good, or the calls of `write` accept the request. -/
def RequestReturns (kernel : Kernel) (name : List UInt8) : Prop :=
  (∃ i, Fatal (kernel.write i)) ∨
    ∃ k, (getCmd name).length ≤ ((firsts k kernel.write).map accepted).sum

def EndsResponse (kernel : Kernel) : Prop := ∃ i, ((kernel.read i).upTo maxLine).ret = 0

theorem response_isSome (fd : ℤ) (answers : List ReadAnswer) :
    (response fd answers).ret.isSome ↔ ∃ a ∈ answers, (a.upTo maxLine).ret = 0 := by
  induction answers with
  | nil => simp [response]
  | cons a rest ih =>
    by_cases hzero : (a.upTo maxLine).ret = 0
    · simp [response,hzero]
    · simp [response,hzero,ih]

theorem fetch_isSome (kernel : Kernel) (writes reads : ℕ) (name : List UInt8)
    (line : Memory UInt8) {requested : Run Unit} (h : requested.ret = some ()) :
    (fetch kernel writes reads name line requested).ret.isSome ↔
      (sendRequest name line (firsts writes kernel.write)).2.ret.isSome ∧
        ∃ i < reads, ((kernel.read i).upTo maxLine).ret = 0 := by
  have hresponse : (response kernel.socket (firsts reads kernel.read)).ret.isSome ↔
      ∃ i < reads, ((kernel.read i).upTo maxLine).ret = 0 := by
    rw [response_isSome]
    simp only [mem_firsts]
    exact ⟨fun ⟨_,⟨i,hi,ha⟩,hzero⟩ => ⟨i,hi,ha ▸ hzero⟩,fun ⟨i,hi,hzero⟩ => ⟨_,⟨i,hi,rfl⟩,hzero⟩⟩
  have hclose : ((response kernel.socket (firsts reads kernel.read)).ret.bind fun _ => some ()) =
      (response kernel.socket (firsts reads kernel.read)).ret := Option.bind_fun_some _
  rw [← hresponse]
  cases hrequest : (sendRequest name line (firsts writes kernel.write)).2.ret with
  | none => simp [fetch,tcpConnect,request,hrequest]
  | some n => simp [fetch,tcpConnect,request,hrequest,h,hclose]

theorem sendRequest_returns_iff (kernel : Kernel) (name : List UInt8) (line : Memory UInt8) :
    (∃ writes, (sendRequest name line (firsts writes kernel.write)).2.ret.isSome) ↔
      RequestReturns kernel name := by
  simp only [sendRequest,snprintf,written_returns_iff,Int.toNat_natCast,mem_firsts,exists_or]
  refine or_congr_left ⟨?_,?_⟩
  · rintro ⟨writes,a,⟨i,-,rfl⟩,hfatal⟩
    exact ⟨i,hfatal⟩
  · rintro ⟨i,hfatal⟩
    exact ⟨i+1,_,⟨i,Nat.lt_succ_self i,rfl⟩,hfatal⟩

/-- A function returns once enough of its calls are answered. -/
def Returns (f : ℕ → ℕ → Run Unit) : Prop := ∃ writes reads, (f writes reads).ret.isSome

theorem returns_fetch (kernel : Kernel) (name : List UInt8) (line : Memory UInt8)
    {requested : Run Unit} (h : requested.ret = some ()) :
    Returns (fun writes reads => fetch kernel writes reads name line requested) ↔
      RequestReturns kernel name ∧ EndsResponse kernel := by
  simp only [Returns,fetch_isSome kernel _ _ name line h,← sendRequest_returns_iff kernel name line]
  constructor
  · rintro ⟨writes,reads,hrequest,i,-,hzero⟩
    exact ⟨⟨writes,hrequest⟩,i,hzero⟩
  · rintro ⟨⟨writes,hrequest⟩,i,hzero⟩
    exact ⟨writes,i+1,hrequest,i,Nat.lt_succ_self i,hzero⟩

theorem returns_doGetRead (kernel : Kernel) (name : List UInt8) (line : Memory UInt8) :
    Returns (fun writes reads => WebThread.doGetRead kernel writes reads name line) ↔
      (RequestReturns kernel name ∧ EndsResponse kernel) ∧ kernel.lock := by
  have hlast (writes reads : ℕ) :
      (WebThread.doGetRead kernel writes reads name line).ret.isSome ↔
        (fetch kernel writes reads name line (call (.setFlags .reading))).ret.isSome ∧
          kernel.lock := by
    rw [WebThread.doGetRead,bind_ret]
    cases (fetch kernel writes reads name line (call (.setFlags .reading))).ret with
    | none => simp
    | some x => cases hlock : kernel.lock <;> simp [lock,hlock]
  rw [← returns_fetch kernel name line (call_ret (.setFlags .reading))]
  simp only [Returns,hlast,exists_and_right]

/-- Both functions `home_page` return exactly if their request is through and some `read` returns
0. So does `do_get_read`, if it also gets the mutex. A `read` that fails ends nothing. -/
theorem responses_end_iff (kernel : Kernel) (name : List UInt8) (line : Memory UInt8) :
    (Returns (fun writes reads => Web.homePage kernel writes reads name line) ↔
      RequestReturns kernel name ∧ EndsResponse kernel) ∧
    (Returns (fun writes reads => WebThread.homePage kernel writes reads name line) ↔
      RequestReturns kernel name ∧ EndsResponse kernel) ∧
    (Returns (fun writes reads => WebThread.doGetRead kernel writes reads name line) ↔
      (RequestReturns kernel name ∧ EndsResponse kernel) ∧ kernel.lock) :=
  ⟨returns_fetch kernel name line (pure_ret ()),returns_fetch kernel name line (pure_ret ()),
    returns_doGetRead kernel name line⟩

/-- The socket could not be opened, and every call on it fails. -/
def unopened : Kernel := ⟨-1,-1,fun _ => .fail .other,fun _ => .fail .other,true⟩

/-- The request returns at once, with -1, and then the loops go on for ever. -/
theorem responses_never_end :
    RequestReturns unopened (ascii "/home.html") ∧
    ¬ Returns (fun writes reads =>
      Web.homePage unopened writes reads (ascii "/home.html") fun _ => 0) ∧
    ¬ Returns (fun writes reads =>
      WebThread.homePage unopened writes reads (ascii "/home.html") fun _ => 0) ∧
    ¬ Returns (fun writes reads =>
      WebThread.doGetRead unopened writes reads (ascii "/home.html") fun _ => 0) := by
  have hread : ¬ EndsResponse unopened := by
    rintro ⟨i,hi⟩
    cases hi
  refine ⟨Or.inl ⟨0,Or.inr ⟨.other,by decide,rfl⟩⟩,?_,?_,?_⟩
  · intro h
    exact hread ((returns_fetch unopened _ _ (pure_ret ())).mp h).2
  · intro h
    exact hread ((returns_fetch unopened _ _ (pure_ret ())).mp h).2
  · intro h
    exact hread ((returns_doGetRead unopened _ _).mp h).1.2

end WebResponse
end CPrograming
