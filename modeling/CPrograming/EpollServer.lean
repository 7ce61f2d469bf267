import CPrograming.Posix
import CPrograming.Runs

/-!
# The server of `epoll_server.c`

The listening socket is registered edge-triggered. An arrival puts it on the ready list of
the `epoll` instance unless it is there already; `epoll_wait` takes it off. Both `lt` and
`et` accept one connection for each event of the listening socket.
-/

namespace CPrograming
namespace EpollServer

open Runs

def maxEventNumber : ℕ := 1024
def bufferSize : ℕ := 10

/-- `main` calls one of the two functions for the events that it gets. -/
inductive Mode
  | lt
  | et
  deriving DecidableEq, Repr

structure Event where
  fd : ℤ
  epollin : Bool
  deriving DecidableEq, Repr

/-- Where `main` is: in `epoll_wait`, or in the loop over the events, with those that are left. -/
inductive Place
  | wait
  | events (left : List Event)
  | returned
  deriving DecidableEq, Repr

inductive Entry
  | arrival (conn : ℕ)
  | wait (events : List Event)
  | accepted (conn : ℕ) (fd : ℤ)
  | acceptFail
  | recv (fd : ℤ) (got : ReadAnswer)
  | close (fd : ℤ)
  deriving DecidableEq

/-- The server, its descriptors, the accept queue of the listening socket, the registered
descriptors with their `EPOLLET` bit, and the ready list. `connfd` is the variable of `et`. -/
structure State where
  place : Place
  connfd : ℤ
  opened : List ℤ
  queue : List ℕ
  interest : List (ℤ × Bool)
  ready : List Event
  log : List Entry

/-- `addfd`. On a descriptor that is not open its calls fail. -/
def State.addfd (s : State) (fd : ℤ) (enableEt : Bool) : State :=
  if fd ∈ s.opened then { s with interest := s.interest ++ [(fd,enableEt)] } else s

def start (listenfd : ℤ) : State :=
  State.addfd ⟨.wait,0,[listenfd],[],[],[],[]⟩ listenfd true

inductive Action
  | connect (conn : ℕ)
  | event (ev : Event)
  | wait (garbage : ℤ)
  | waitFail
  | accept (fd : ℕ)
  | acceptFail
  | recv (a : ReadAnswer)
  | skip
  | finish
  deriving DecidableEq

/-- A closed descriptor leaves the `epoll` instance. -/
def State.close (s : State) (fd : ℤ) : State :=
  { s with
    opened := s.opened.erase fd
    interest := s.interest.filter fun watch => watch.1 ≠ fd
    ready := s.ready.filter fun ev => ev.fd ≠ fd
    log := s.log ++ [.close fd] }

/-- The branch of `EPOLLIN`. `lt` reads its descriptor and closes it at the end; `et` reads
whatever descriptor `connfd` holds. -/
def State.recv (mode : Mode) (s : State) (sockfd : ℤ) (a : ReadAnswer) : State :=
  match mode with
  | .lt =>
    let got := a.upTo (bufferSize-1)
    let s := { s with log := s.log ++ [.recv sockfd got] }
    if got.ret ≤ 0 then s.close sockfd else s
  | .et => { s with log := s.log ++ [.recv s.connfd (a.upTo 1)] }

/-- The branch of the listening socket, behind its `accept`. -/
def State.accepted (mode : Mode) (s : State) (fd : ℤ) : State :=
  match mode with
  | .lt => s.addfd fd false
  | .et => { s with connfd := fd }.addfd fd true

def notify (listenfd : ℤ) (ready : List Event) : List Event :=
  if ready.any (·.fd = listenfd) then ready else ready ++ [⟨listenfd,true⟩]

def step (mode : Mode) (listenfd : ℤ) (s : State) : Action → Option State
  | .connect conn =>
    if s.place ≠ .returned then
      some { s with
        queue := s.queue ++ [conn]
        ready := notify listenfd s.ready
        log := s.log ++ [.arrival conn] }
    else none
  | .event ev =>
    if ev.fd ≠ listenfd ∧ ev.fd ∈ s.interest.map Prod.fst ∧ ev.fd ∉ s.ready.map Event.fd then
      some { s with ready := s.ready ++ [ev] }
    else none
  | .wait garbage =>
    if s.place = .wait ∧ s.ready ≠ [] then
      some { s with
        place := .events (s.ready.take maxEventNumber)
        connfd := garbage
        ready := s.ready.drop maxEventNumber
        log := s.log ++ [.wait (s.ready.take maxEventNumber)] }
    else none
  | .waitFail =>
    if s.place = .wait then some { s with place := .returned, opened := s.opened.erase listenfd }
    else none
  | .accept fd =>
    match s.place, s.queue with
    | .events (ev :: left), conn :: queue =>
      if ev.fd = listenfd ∧ (fd : ℤ) ∉ s.opened then
        some (State.accepted mode { s with
          place := .events left
          queue := queue
          opened := (fd : ℤ) :: s.opened
          log := s.log ++ [.accepted conn fd] } fd)
      else none
    | _, _ => none
  | .acceptFail =>
    match s.place with
    | .events (ev :: left) =>
      if ev.fd = listenfd then
        some (State.accepted mode { s with
          place := .events left
          log := s.log ++ [.acceptFail] } (-1))
      else none
    | _ => none
  | .recv a =>
    match s.place with
    | .events (ev :: left) =>
      if ev.fd ≠ listenfd ∧ ev.epollin then
        some (State.recv mode { s with place := .events left } ev.fd a)
      else none
    | _ => none
  | .skip =>
    match s.place with
    | .events (ev :: left) =>
      if ev.fd ≠ listenfd ∧ ¬ ev.epollin then some { s with place := .events left } else none
    | _ => none
  | .finish => if s.place = .events [] then some { s with place := .wait } else none

inductive Step (mode : Mode) (listenfd : ℤ) (s : State) : Action → State → Prop
  | connect (conn : ℕ) : Step mode listenfd s (.connect conn)
      { s with
        queue := s.queue ++ [conn]
        ready := notify listenfd s.ready
        log := s.log ++ [.arrival conn] }
  | event {ev : Event} (hfd : ev.fd ≠ listenfd) :
      Step mode listenfd s (.event ev) { s with ready := s.ready ++ [ev] }
  | wait (garbage : ℤ) (hplace : s.place = .wait) : Step mode listenfd s (.wait garbage)
      { s with
        place := .events (s.ready.take maxEventNumber)
        connfd := garbage
        ready := s.ready.drop maxEventNumber
        log := s.log ++ [.wait (s.ready.take maxEventNumber)] }
  | waitFail (hplace : s.place = .wait) : Step mode listenfd s .waitFail
      { s with place := .returned, opened := s.opened.erase listenfd }
  | accept {ev : Event} {left : List Event} {conn : ℕ} {queue : List ℕ} (fd : ℕ)
      (hplace : s.place = .events (ev :: left)) (hqueue : s.queue = conn :: queue)
      (hfd : ev.fd = listenfd) : Step mode listenfd s (.accept fd)
        (State.accepted mode { s with
          place := .events left
          queue := queue
          opened := (fd : ℤ) :: s.opened
          log := s.log ++ [.accepted conn fd] } fd)
  | acceptFail {ev : Event} {left : List Event} (hplace : s.place = .events (ev :: left))
      (hfd : ev.fd = listenfd) : Step mode listenfd s .acceptFail
        (State.accepted mode { s with
          place := .events left
          log := s.log ++ [.acceptFail] } (-1))
  | recv {ev : Event} {left : List Event} (a : ReadAnswer)
      (hplace : s.place = .events (ev :: left)) (hfd : ev.fd ≠ listenfd) :
      Step mode listenfd s (.recv a) (State.recv mode { s with place := .events left } ev.fd a)
  | skip {ev : Event} {left : List Event} (hplace : s.place = .events (ev :: left))
      (hfd : ev.fd ≠ listenfd) : Step mode listenfd s .skip { s with place := .events left }
  | finish (hplace : s.place = .events []) : Step mode listenfd s .finish { s with place := .wait }

theorem step_cases {mode : Mode} {listenfd : ℤ} {s t : State} {a : Action}
    (h : step mode listenfd s a = some t) : Step mode listenfd s a t := by
  cases a with
  | connect conn =>
    simp only [step] at h
    split_ifs at h
    cases h
    exact .connect conn
  | event ev =>
    simp only [step] at h
    split_ifs at h with hev
    cases h
    exact .event hev.1
  | wait garbage =>
    simp only [step] at h
    split_ifs at h with hwait
    cases h
    exact .wait garbage hwait.1
  | waitFail =>
    simp only [step] at h
    split_ifs at h with hplace
    cases h
    exact .waitFail hplace
  | accept fd =>
    simp only [step] at h
    split at h
    · rename_i hplace hqueue
      split_ifs at h with hfd
      cases h
      exact .accept fd hplace hqueue hfd.1
    · cases h
  | acceptFail =>
    simp only [step] at h
    split at h
    · rename_i hplace
      split_ifs at h with hfd
      cases h
      exact .acceptFail hplace hfd
    · cases h
  | recv a =>
    simp only [step] at h
    split at h
    · rename_i hplace
      split_ifs at h with hfd
      cases h
      exact .recv a hplace hfd.1
    · cases h
  | skip =>
    simp only [step] at h
    split at h
    · rename_i hplace
      split_ifs at h with hfd
      cases h
      exact .skip hplace hfd.1
    · cases h
  | finish =>
    simp only [step] at h
    split_ifs at h with hplace
    cases h
    exact .finish hplace

def Blocked (s : State) : Prop := s.place = .wait ∧ s.ready = []

section History

variable (listenfd : ℤ)

def eventPending (pending : Bool) : Entry → Bool
  | .arrival _ => true
  | .wait events => pending && !events.any (·.fd = listenfd)
  | _ => pending

/-- How many arrivals found an event of the listening socket pending, and whether one is pending
at the end. -/
def arrivals (log : List Entry) : ℕ × Bool :=
  log.foldl (fun t e => (t.1 + if e matches .arrival _ then t.2.toNat else 0,
    eventPending listenfd t.2 e)) (0,false)

/-- The arrivals that shared the event of an arrival before. -/
def shared (log : List Entry) : ℕ := (arrivals listenfd log).1

theorem arrivals_snoc (log : List Entry) (e : Entry) :
    arrivals listenfd (log ++ [e]) =
      ((arrivals listenfd log).1 +
        if e matches .arrival _ then (arrivals listenfd log).2.toNat else 0,
        eventPending listenfd (arrivals listenfd log).2 e) := by
  simp only [arrivals,List.foldl_append,List.foldl_cons,List.foldl_nil]

theorem shared_arrival (log : List Entry) (conn : ℕ) : shared listenfd (log ++ [.arrival conn]) =
    shared listenfd log + (arrivals listenfd log).2.toNat := by
  rw [shared,arrivals_snoc]
  rfl

theorem shared_other (log : List Entry) {e : Entry} (he : ¬ e matches .arrival _) :
    shared listenfd (log ++ [e]) = shared listenfd log := by
  rw [shared,arrivals_snoc,if_neg he]
  rfl

theorem fails_other (log : List Entry) {e : Entry} (he : e ≠ .acceptFail) :
    (log ++ [e]).count .acceptFail = log.count .acceptFail := by
  rw [List.count_append,List.count_singleton,if_neg (by simpa using he),Nat.add_zero]

theorem fails_acceptFail (log : List Entry) :
    (log ++ [Entry.acceptFail]).count .acceptFail = log.count .acceptFail + 1 := by
  rw [List.count_append,List.count_singleton_self]

def Entry.Quiet (e : Entry) : Prop :=
  ∀ (pending : Bool), (¬ e matches .arrival _) ∧ eventPending listenfd pending e = pending ∧
    e ≠ .acceptFail

theorem arrivals_quiet (log es : List Entry) (h : ∀ e ∈ es, e.Quiet listenfd) :
    arrivals listenfd (log ++ es) = arrivals listenfd log := by
  induction es using List.reverseRecOn with
  | nil => rw [List.append_nil]
  | append_singleton es e ih =>
    have hes : ∀ x ∈ es, x.Quiet listenfd := fun x hx => h x (List.mem_append_left _ hx)
    obtain ⟨hnot,hsame,-⟩ := h e (by simp) (arrivals listenfd log).2
    rw [← List.append_assoc,arrivals_snoc,ih hes,hsame,if_neg hnot,Nat.add_zero]

theorem count_quiet (log es : List Entry) (h : ∀ e ∈ es, e.Quiet listenfd) :
    (log ++ es).count .acceptFail = log.count .acceptFail := by
  have hzero : es.count .acceptFail = 0 := by
    rw [List.count_eq_zero]
    exact fun hmem => (h _ hmem false).2.2 rfl
  rw [List.count_append,hzero,Nat.add_zero]

end History

section Invariant

structure View where
  place : Place
  queue : List ℕ
  ready : List Event
  log : List Entry

def State.view (s : State) : View := ⟨s.place,s.queue,s.ready,s.log⟩

def listens (listenfd : ℤ) (events : List Event) : ℕ := events.countP (·.fd = listenfd)

section Listens

variable {listenfd : ℤ} {ev : Event} {events : List Event}

theorem listens_cons_self (hfd : ev.fd = listenfd) :
    listens listenfd (ev :: events) = listens listenfd events + 1 := by
  simp [listens,hfd]

theorem listens_cons_of_ne (hfd : ev.fd ≠ listenfd) :
    listens listenfd (ev :: events) = listens listenfd events := by
  simp [listens,hfd]

theorem listens_split (listenfd : ℤ) (events : List Event) (k : ℕ) :
    listens listenfd (events.take k) + listens listenfd (events.drop k) =
      listens listenfd events := by
  rw [listens,listens,← List.countP_append,List.take_append_drop,listens]

theorem listens_eq_zero : listens listenfd events = 0 ↔ events.any (·.fd = listenfd) = false := by
  simp [listens]

/-- An arrival leaves exactly one event of the listening socket on the ready list. -/
theorem listens_notify (h : listens listenfd events ≤ 1) :
    listens listenfd (notify listenfd events) = 1 := by
  cases hany : events.any (·.fd = listenfd) with
  | false =>
    have hzero := listens_eq_zero.mpr hany
    rw [listens] at hzero
    simp [notify,hany,listens,hzero]
  | true =>
    have hne : listens listenfd events ≠ 0 := by
      rw [Ne,listens_eq_zero,hany]
      decide
    simp only [notify,hany,if_true]
    omega

end Listens

inductive Moved (listenfd : ℤ) (v : View) : View → Prop
  | connect (conn : ℕ) : Moved listenfd v
      ⟨v.place,v.queue ++ [conn],notify listenfd v.ready,v.log ++ [.arrival conn]⟩
  | event {ev : Event} (hfd : ev.fd ≠ listenfd) :
      Moved listenfd v ⟨v.place,v.queue,v.ready ++ [ev],v.log⟩
  | wait (k : ℕ) (hplace : v.place = .wait) : Moved listenfd v
      ⟨.events (v.ready.take k),v.queue,v.ready.drop k,v.log ++ [.wait (v.ready.take k)]⟩
  | stop (hplace : v.place = .wait) : Moved listenfd v ⟨.returned,v.queue,v.ready,v.log⟩
  | accept {ev : Event} {left : List Event} {conn : ℕ} {queue : List ℕ} (fd : ℤ)
      (hplace : v.place = .events (ev :: left)) (hfd : ev.fd = listenfd)
      (hqueue : v.queue = conn :: queue) :
      Moved listenfd v ⟨.events left,queue,v.ready,v.log ++ [.accepted conn fd]⟩
  | acceptFail {ev : Event} {left : List Event} (hplace : v.place = .events (ev :: left))
      (hfd : ev.fd = listenfd) :
      Moved listenfd v ⟨.events left,v.queue,v.ready,v.log ++ [.acceptFail]⟩
  | serve {ev : Event} {left ready : List Event} {es : List Entry}
      (hplace : v.place = .events (ev :: left)) (hfd : ev.fd ≠ listenfd)
      (hready : listens listenfd ready = listens listenfd v.ready)
      (hes : ∀ e ∈ es, e.Quiet listenfd) :
      Moved listenfd v ⟨.events left,v.queue,ready,v.log ++ es⟩
  | finish (hplace : v.place = .events []) : Moved listenfd v ⟨.wait,v.queue,v.ready,v.log⟩

theorem addfd_view (s : State) (fd : ℤ) (enableEt : Bool) :
    (s.addfd fd enableEt).view = s.view := by
  simp only [State.addfd]
  split_ifs <;> rfl

theorem accepted_view (mode : Mode) (s : State) (fd : ℤ) :
    (State.accepted mode s fd).view = s.view := by
  cases mode <;> exact addfd_view _ fd _

theorem recv_moved {mode : Mode} {listenfd : ℤ} {s : State} {ev : Event} {left : List Event}
    (a : ReadAnswer) (hplace : s.place = .events (ev :: left)) (hfd : ev.fd ≠ listenfd) :
    Moved listenfd s.view (State.recv mode { s with place := .events left } ev.fd a).view := by
  have hquiet (fd : ℤ) (got : ReadAnswer) : (Entry.recv fd got).Quiet listenfd := by
    intro pending
    simp [eventPending]
  cases mode with
  | et => exact .serve hplace hfd rfl (List.forall_mem_singleton.mpr (hquiet _ _))
  | lt =>
    simp only [State.recv]
    split_ifs
    · have hready : listens listenfd (s.ready.filter fun e => e.fd ≠ ev.fd) =
          listens listenfd s.ready := by
        simp only [listens,List.countP_filter]
        apply List.countP_congr
        intro e _
        have hne : e.fd = listenfd → e.fd ≠ ev.fd := fun he hev => hfd (hev ▸ he)
        simpa using hne
      simp only [State.close,State.view,List.append_assoc]
      refine .serve hplace hfd hready ?_
      refine List.forall_mem_append.mpr ⟨List.forall_mem_singleton.mpr (hquiet _ _),
        List.forall_mem_singleton.mpr ?_⟩
      intro pending
      simp [eventPending]
    · exact .serve hplace hfd rfl (List.forall_mem_singleton.mpr (hquiet _ _))

theorem step_moved {mode : Mode} {listenfd : ℤ} {s t : State} {a : Action}
    (h : step mode listenfd s a = some t) : Moved listenfd s.view t.view := by
  cases step_cases h with
  | connect conn => exact .connect conn
  | event hfd => exact .event hfd
  | wait garbage hplace => exact .wait maxEventNumber hplace
  | waitFail hplace => exact .stop hplace
  | accept fd hplace hqueue hfd =>
    rw [accepted_view]
    exact .accept fd hplace hfd hqueue
  | acceptFail hplace hfd =>
    rw [accepted_view]
    exact .acceptFail hplace hfd
  | recv a hplace hfd => exact recv_moved a hplace hfd
  | @skip ev left hplace hfd =>
    have hserve : Moved listenfd s.view ⟨.events left,s.queue,s.ready,s.log ++ []⟩ :=
      .serve hplace hfd rfl (by simp)
    rwa [List.append_nil] at hserve
  | finish hplace => exact .finish hplace

def Place.left : Place → List Event
  | .events left => left
  | .wait | .returned => []

/-- Each connection in the queue is behind an event, or shared one, or was left by an `accept`
that failed. -/
structure Counted (listenfd : ℤ) (v : View) : Prop where
  ready : listens listenfd v.ready = (arrivals listenfd v.log).2.toNat
  queue : v.queue.length = listens listenfd v.place.left + listens listenfd v.ready +
    shared listenfd v.log + v.log.count .acceptFail

theorem Counted.wait {listenfd : ℤ} {v : View} (h : Counted listenfd v) (k : ℕ)
    (hplace : v.place = .wait) : Counted listenfd
      ⟨.events (v.ready.take k),v.queue,v.ready.drop k,v.log ++ [.wait (v.ready.take k)]⟩ := by
  obtain ⟨hready,hqueue⟩ := h
  have hle : (arrivals listenfd v.log).2.toNat ≤ 1 := Bool.toNat_le _
  have hsplit := listens_split listenfd v.ready k
  refine ⟨?_,?_⟩
  · rw [arrivals_snoc]
    cases hany : (v.ready.take k).any (·.fd = listenfd) with
    | false =>
      have hzero := listens_eq_zero.mpr hany
      simp only [eventPending,hany,Bool.not_false,Bool.and_true]
      omega
    | true =>
      have hne : listens listenfd (v.ready.take k) ≠ 0 := by
        rw [Ne,listens_eq_zero,hany]
        decide
      simp only [eventPending,hany,Bool.not_true,Bool.and_false,Bool.toNat_false]
      omega
  · rw [hplace] at hqueue
    rw [shared_other listenfd _ (by simp),fails_other _ (by simp),hqueue,← hsplit,Place.left,
      Place.left]
    simp only [listens,List.countP_nil]
    omega

theorem Counted.moved {listenfd : ℤ} {v w : View} (h : Counted listenfd v)
    (hmoved : Moved listenfd v w) : Counted listenfd w := by
  obtain ⟨hready,hqueue⟩ := h
  have hle : (arrivals listenfd v.log).2.toNat ≤ 1 := Bool.toNat_le _
  cases hmoved with
  | connect conn =>
    have hone := listens_notify (hready.trans_le hle)
    refine ⟨?_,?_⟩
    · rw [hone,arrivals_snoc]
      rfl
    · dsimp only
      rw [hone,List.length_append,List.length_singleton,hqueue,hready,shared_arrival,
        fails_other _ (by simp)]
      omega
  | @event ev hfd =>
    have hsame : listens listenfd (v.ready ++ [ev]) = listens listenfd v.ready := by
      simp [listens,hfd]
    exact ⟨hsame.trans hready,by rw [hsame]; exact hqueue⟩
  | wait k hplace => exact Counted.wait ⟨hready,hqueue⟩ k hplace
  | stop hplace =>
    rw [hplace] at hqueue
    exact ⟨hready,hqueue⟩
  | accept fd hplace hfd hconn =>
    rw [hplace,hconn,Place.left,listens_cons_self hfd,List.length_cons] at hqueue
    refine ⟨?_,?_⟩
    · rw [arrivals_snoc]
      exact hready
    · dsimp only
      rw [shared_other listenfd _ (by simp),fails_other _ (by simp),Place.left]
      omega
  | acceptFail hplace hfd =>
    rw [hplace,Place.left,listens_cons_self hfd] at hqueue
    refine ⟨?_,?_⟩
    · rw [arrivals_snoc]
      exact hready
    · dsimp only
      rw [shared_other listenfd _ (by simp),fails_acceptFail,Place.left,hqueue]
      omega
  | serve hplace hfd hsame hes =>
    rw [hplace,Place.left,listens_cons_of_ne hfd] at hqueue
    refine ⟨?_,?_⟩
    · rw [arrivals_quiet listenfd _ _ hes,hsame,hready]
    · rw [shared,arrivals_quiet listenfd _ _ hes,count_quiet listenfd _ _ hes,hsame]
      exact hqueue
  | finish hplace =>
    rw [hplace] at hqueue
    exact ⟨hready,hqueue⟩

theorem reachable_counted {mode : Mode} {listenfd : ℤ} {s : State}
    (h : Reachable (step mode listenfd) (start listenfd) s) : Counted listenfd s.view := by
  refine h.invariant (I := fun x => Counted listenfd x.view) ?_ ?_
  · rw [start,addfd_view]
    exact ⟨rfl,rfl⟩
  · intro a x y hx hxy
    exact hx.moved (step_moved hxy)

end Invariant

/-- Whenever the server waits and no event is pending, the accept queue is empty exactly if no
arrival has shared its event with one before, and no `accept` has failed. -/
theorem queue_empty_iff (mode : Mode) (listenfd : ℤ) {s : State}
    (hreach : Reachable (step mode listenfd) (start listenfd) s) (hblocked : Blocked s) :
    s.queue = [] ↔ shared listenfd s.log = 0 ∧ .acceptFail ∉ s.log := by
  have hqueue := (reachable_counted hreach).queue
  simp only [State.view,hblocked.1,hblocked.2,Place.left] at hqueue
  rw [← List.length_eq_zero_iff,hqueue,← List.count_eq_zero]
  simp [listens]

/-- Two connections, one event each. -/
theorem queue_empty_one_by_one : ∃ s, Reachable (step .et 3) (start 3) s ∧ Blocked s ∧
    s.queue = [] ∧ s.opened = [5,4,3] := by
  obtain ⟨t,hreach,ht⟩ := exists_reachable (step .et 3) (start 3)
    [.connect 0,.wait 7,.accept 4,.connect 1,.finish,.wait 7,.accept 5,.finish]
    (fun t => (t.place = .wait ∧ t.ready = []) ∧ t.opened = [5,4,3] ∧
      shared 3 t.log = 0 ∧ .acceptFail ∉ t.log) (by decide +kernel)
  obtain ⟨hblocked,hopened,hlog⟩ := of_decide_eq_true ht
  exact ⟨t,hreach,hblocked,(queue_empty_iff .et 3 hreach hblocked).mpr hlog,hopened⟩

/-- Two connections come before one `epoll_wait`. The second is left in the queue. -/
theorem leaves_second (mode : Mode) :
    ∃ s, Reachable (step mode 3) (start 3) s ∧ Blocked s ∧ s.queue = [1] := by
  obtain ⟨t,hreach,ht⟩ := exists_reachable (step mode 3) (start 3)
    [.connect 0,.connect 1,.wait 7,.accept 4,.finish]
    (fun t => (t.place = .wait ∧ t.ready = []) ∧ t.queue = [1]) (by cases mode <;> decide +kernel)
  obtain ⟨hblocked,hqueue⟩ := of_decide_eq_true ht
  exact ⟨t,hreach,hblocked,hqueue⟩

theorem second_connection_left :
    (∃ s, Reachable (step .lt 3) (start 3) s ∧ Blocked s ∧ s.queue = [1]) ∧
      ∃ s, Reachable (step .et 3) (start 3) s ∧ Blocked s ∧ s.queue = [1] :=
  ⟨leaves_second .lt,leaves_second .et⟩

end EpollServer
end CPrograming
