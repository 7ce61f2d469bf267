import CPrograming.SumFraming

/-!
# Sessions of `number_cli` with `number_echo`

The connection may cut the stream anywhere and fail or close at any time. As long as no
`readn` of the client has failed, each exchange ends with its own answer or with end of
file behind which nothing comes any more. When a `readn` has failed, the client prints
what its struct held before.
-/

namespace CPrograming
namespace Sum

open Connection Libc SocketFunc Runs

def Entry.ReadnFailed : Entry → Prop
  | .invalid _ => False
  | .exchange _ _ _ got _ => got = -1

/-- A number is shown only after an exchange that did not fail, and it is the answer to the
line. -/
def Entry.Right : Entry → Prop
  | .invalid _ => True
  | .exchange line args wrote got shown => ∀ v, shown = some v →
      wrote = sizeofArgs ∧ got = sizeofResult ∧ scanTwo line = some args ∧
        v = args.1+args.2+100

section Server

def Silent (e : Endpoint Server) : Prop :=
  e.out.bytes = [] ∧ (e.out.closed = true ∨ ∃ n, e.proc.place = .returned n)

def Ready (e : Endpoint Server) : Prop :=
  Silent e ∨ e.out.bytes = [] ∧ e.inp.bytes = [] ∧
    ∃ call, e.proc.place = .reading call ∧ call.Holds sizeofArgs []

/-- The server's side when the client has sent `sent` of a record with these `args`, and has
received `got`. -/
def Serving (e : Endpoint Server) (sent got : List UInt8) (args : Long × Long) : Prop :=
  match e.proc.place with
  | .reading call =>
    (∃ half, call.Holds sizeofArgs half ∧ half ++ e.inp.bytes <+: sent ∧
      (e.inp.closed = false → half ++ e.inp.bytes = sent) ∧ got ++ e.out.bytes = []) ∨
    (call.Holds sizeofArgs [] ∧ e.inp.bytes = [] ∧ sent.length = sizeofArgs ∧
      (e.out.closed = false → got ++ e.out.bytes = longBytes (answer args)))
  | .writing call =>
    e.inp.bytes = [] ∧ e.proc.sum = answer args ∧ sent.length = sizeofArgs ∧
      (e.out.closed = false → got ++ e.out.bytes = (longBytes (answer args)).take call.off)
  | .returned _ => True

def Asked (e : Endpoint Server) (sent got : List UInt8) (args : Long × Long) : Prop :=
  Silent e ∨ got ++ e.out.bytes <+: longBytes (answer args) ∧
    (got ++ e.out.bytes = [] ∨ sent.length = sizeofArgs) ∧ Serving e sent got args

variable {e t : Endpoint Server} {a : Io} {sent got : List UInt8} {args : Long × Long}

theorem Ready.asked (h : Ready e) (args : Long × Long) : Asked e [] [] args := by
  rcases h with hsilent | ⟨hout,hin,call,hplace,hcall⟩
  · exact Or.inl hsilent
  · right
    refine ⟨by simp [hout],by simp [hout],?_⟩
    simp only [Serving,hplace]
    exact Or.inl ⟨[],hcall,by simp [hin],by simp [hin],by simp [hout]⟩

/-- What a step does for `number_echo`. Any error but an interrupt ends `readn`, and with it
the loop; after a failed `written` the loop goes on with the next record. -/
inductive ServerMove (e : Endpoint Server) : Endpoint Server → Prop
  | idle : ServerMove e e
  | more {p : Server} {call call' : Readn} {half new rest : List UInt8}
      (hplace : e.proc.place = .reading call) (hcall : call.Holds sizeofArgs half)
      (hin : e.inp.bytes = new ++ rest) (hne : new ≠ []) (hp : p.place = .reading call')
      (hcall' : call'.Holds sizeofArgs (half ++ new)) :
      ServerMove e ⟨p,⟨rest,e.inp.closed⟩,e.out⟩
  | record {p : Server} {call : Readn} {half new rest : List UInt8}
      (hplace : e.proc.place = .reading call) (hcall : call.Holds sizeofArgs half)
      (hin : e.inp.bytes = new ++ rest) (hne : new ≠ [])
      (hall : (half ++ new).length = sizeofArgs)
      (hp : p.place = .writing (Writing.after sizeofResult 0))
      (hsum : p.sum = answer (argsOf (half ++ new))) :
      ServerMove e ⟨p,⟨rest,e.inp.closed⟩,e.out⟩
  | ended {p : Server} {call : Readn} {n : ℤ} (hplace : e.proc.place = .reading call)
      (hp : p.place = .returned n) : ServerMove e ⟨p,e.inp,e.out⟩
  | sent {p : Server} {k : ℕ} {new rest : List UInt8}
      (hplace : e.proc.place = .writing (Writing.after sizeofResult k))
      (hnew : new ++ rest = (longBytes e.proc.sum).drop k) (hopen : e.out.closed = false)
      (hlt : k+new.length < sizeofResult)
      (hp : p.place = .writing (Writing.after sizeofResult (k+new.length)))
      (hsum : p.sum = e.proc.sum) : ServerMove e ⟨p,e.inp,⟨e.out.bytes ++ new,false⟩⟩
  | finished {p : Server} {k : ℕ} {call : Readn}
      (hplace : e.proc.place = .writing (Writing.after sizeofResult k))
      (hopen : e.out.closed = false) (hp : p.place = .reading call)
      (hcall : call.Holds sizeofArgs []) :
      ServerMove e ⟨p,e.inp,⟨e.out.bytes ++ (longBytes e.proc.sum).drop k,false⟩⟩
  | broken {p : Server} {k : ℕ} {call : Readn}
      (hplace : e.proc.place = .writing (Writing.after sizeofResult k))
      (hp : p.place = .reading call) (hcall : call.Holds sizeofArgs []) :
      ServerMove e ⟨p,e.inp,⟨e.out.bytes,true⟩⟩
  | closed {n : ℤ} (hplace : e.proc.place = .returned n) :
      ServerMove e ⟨e.proc,e.inp,⟨e.out.bytes,true⟩⟩

theorem head_enter (s : Server) : ∃ call, (s.head (Readn.enter sizeofArgs s.args)).place =
    .reading call ∧ call.Holds sizeofArgs [] := by
  have henter := Readn.enter_holds sizeofArgs s.args
  exact ⟨_,by rw [head_incomplete henter (by decide)],henter⟩

theorem server_move (hs : e.proc.Sound) (h : numberEcho.io e a = some t) :
    t.proc.Sound ∧ ServerMove e t := by
  cases io_moved h with
  | @data len k new rest hp hin hne hlen =>
    obtain ⟨call,half,hplace,-,hcall,hlt,rfl⟩ := reading_of_pending hs hp
    have hnew : new ≠ [] := hne (by omega)
    have hcall' := hcall.data hnew (by omega)
    have hread : numberEcho.onRead e.proc (.data new) =
        e.proc.head (call.body sizeofArgs (.data new)) := by
      simp only [numberEcho,hplace]
    rw [hread]
    refine ⟨(head_future hcall').1,?_⟩
    rcases Nat.lt_or_eq_of_le hcall'.fits with hless | hall
    · exact .more hplace hcall hin hnew (by rw [head_incomplete hcall' hless]) hcall'
    · obtain ⟨hwriting,hsum⟩ := head_complete (s := e.proc) hcall' hall
      exact .record hplace hcall hin hnew hall hwriting hsum
  | eof hp hin hclosed =>
    obtain ⟨call,half,hplace,-⟩ := reading_of_pending hs hp
    have hread : (numberEcho.onRead e.proc (.data [])).place = .returned 0 := by
      simp [numberEcho,hplace,Readn.body_eof,Server.head]
    exact ⟨by simp [Server.Sound,hread],.ended hplace hread⟩
  | @readFail len errno hp =>
    by_cases herr : errno = .eintr
    · subst errno
      rw [numberEcho_transducer.interrupted e.proc _ hs hp]
      exact ⟨hs,.idle⟩
    · obtain ⟨call,half,hplace,-⟩ := reading_of_pending hs hp
      have hread : (numberEcho.onRead e.proc (.fail errno)).place = .returned (-1) := by
        simp [numberEcho,hplace,Readn.body_failed _ _ herr,Server.head]
      exact ⟨by simp [Server.Sound,hread],.ended hplace hread⟩
  | @sent k new rest hp hne hopen =>
    obtain ⟨k,hk,hplace,hbytes⟩ := writing_of_pending hs hp
    have hsent : new ≠ [] := hne (numberEcho_transducer.offers e.proc _ hs hp)
    have hpos := List.length_pos_iff.mpr hsent
    have hlen := sent_lengths hbytes
    rw [onWrite_sent hplace hpos (by omega)]
    split_ifs with hlt
    · exact ⟨⟨_,hlt,rfl⟩,.sent hplace hbytes hopen hlt rfl rfl⟩
    · obtain ⟨call,hreading,hcall⟩ := head_enter e.proc
      obtain rfl : rest = [] := List.length_eq_zero_iff.mp (by omega)
      rw [List.append_nil] at hbytes
      rw [hbytes]
      exact ⟨(head_future (Readn.enter_holds sizeofArgs e.proc.args)).1,
        .finished hplace hopen hreading hcall⟩
  | @writeFail bytes errno hp =>
    by_cases herr : errno = .eintr
    · subst errno
      rw [numberEcho_transducer.interrupted_write e.proc _ hs hp]
      simp only [ne_eq,not_true_eq_false,decide_false,Bool.or_false]
      exact ⟨hs,.idle⟩
    · obtain ⟨k,hk,hplace,-⟩ := writing_of_pending hs hp
      have hwrite : numberEcho.onWrite e.proc (.fail errno) =
          e.proc.head (Readn.enter sizeofArgs e.proc.args) := by
        simp only [numberEcho,hplace,Writing.body_failed herr]
      obtain ⟨call,hreading,hcall⟩ := head_enter e.proc
      rw [hwrite]
      simp only [ne_eq,herr,not_false_eq_true,decide_true,Bool.or_true]
      exact ⟨(head_future (Readn.enter_holds sizeofArgs e.proc.args)).1,
        .broken hplace hreading hcall⟩
  | compute hp => cases hplace : e.proc.place <;> simp [numberEcho,hplace] at hp
  | close hp =>
    cases hplace : e.proc.place with
    | reading call => simp [numberEcho,hplace] at hp
    | writing call => simp [numberEcho,hplace] at hp
    | returned n => exact ⟨hs,.closed hplace⟩

theorem Silent.move (h : Silent e) (hmove : ServerMove e t) : Silent t := by
  obtain ⟨hout,hend⟩ := h
  cases hmove with
  | idle => exact ⟨hout,hend⟩
  | more hplace | record hplace =>
    refine ⟨hout,Or.inl ?_⟩
    rcases hend with hclosed | ⟨n,hn⟩
    · exact hclosed
    · simp [hplace] at hn
  | ended hplace hp => exact ⟨hout,Or.inr ⟨_,hp⟩⟩
  | sent hplace hnew hopen | finished hplace hopen =>
    rcases hend with hclosed | ⟨n,hn⟩
    · simp [hopen] at hclosed
    · simp [hplace] at hn
  | broken | closed => exact ⟨hout,Or.inl rfl⟩

theorem Ready.move (h : Ready e) (hmove : ServerMove e t) : Ready t := by
  rcases h with hsilent | ⟨hout,hin,call,hplace,hcall⟩
  · exact Or.inl (hsilent.move hmove)
  · cases hmove with
    | idle => exact Or.inr ⟨hout,hin,call,hplace,hcall⟩
    | more hplace hcall hnew hne | record hplace hcall hnew hne =>
      rw [hin] at hnew
      exact absurd (List.append_eq_nil_iff.mp hnew.symm).1 hne
    | ended hplace hp => exact Or.inl ⟨hout,Or.inr ⟨_,hp⟩⟩
    | sent hwriting | finished hwriting | broken hwriting | closed hwriting =>
      simp [hplace] at hwriting

theorem Ready.close (h : Ready e) {bytes : List UInt8} (hbytes : bytes <+: e.inp.bytes) :
    Ready ⟨e.proc,⟨bytes,true⟩,e.out⟩ := by
  rcases h with hsilent | ⟨hout,hin,hcall⟩
  · exact Or.inl hsilent
  · rw [hin,List.prefix_nil] at hbytes
    exact Or.inr ⟨hout,hbytes,hcall⟩

theorem Ready.cut (h : Ready e) {bytes : List UInt8} (hbytes : bytes <+: e.out.bytes) :
    Ready ⟨e.proc,e.inp,⟨bytes,true⟩⟩ := by
  have hout : e.out.bytes = [] := by
    rcases h with ⟨hout,-⟩ | ⟨hout,-⟩
    · exact hout
    · exact hout
  rw [hout,List.prefix_nil] at hbytes
  exact Or.inl ⟨hbytes,Or.inl rfl⟩

theorem holds_unique {n : ℕ} {call : Readn} {xs ys : List UInt8} (hx : call.Holds n xs)
    (hy : call.Holds n ys) : xs = ys := by
  have hlen : xs.length = ys.length := hx.off.symm.trans hy.off
  rw [← hx.dst,hlen,hy.dst]

/-- A complete record is the one that the client sends, and it is sent as a whole. -/
theorem record_complete {record rest : List UInt8} (hlen : record.length = sizeofArgs)
    (hpart : record ++ rest <+: sent) (hsent : sent <+: argsBytes args) :
    record = argsBytes args ∧ rest = [] ∧ sent.length = sizeofArgs := by
  have hle := hpart.length_le
  have hle' := hsent.length_le
  rw [List.length_append,hlen] at hle
  rw [argsBytes_length] at hle'
  obtain rfl : rest = [] := List.length_eq_zero_iff.mp (by omega)
  rw [List.append_nil] at hpart
  exact ⟨(hpart.trans hsent).eq_of_length (by rw [hlen,argsBytes_length]),rfl,by omega⟩

/-- The server keeps its part of the exchange. -/
theorem Asked.move (h : Asked e sent got args) (hsent : sent <+: argsBytes args)
    (hmove : ServerMove e t) : Asked t sent got args := by
  rcases h with hsilent | ⟨hpre,hall,hserving⟩
  · exact Or.inl (hsilent.move hmove)
  right
  cases hmove with
  | idle => exact ⟨hpre,hall,hserving⟩
  | @more p call call' half new rest hplace hcall hin hne hp hcall' =>
    refine ⟨hpre,hall,?_⟩
    simp only [Serving,hplace,hp] at hserving ⊢
    rcases hserving with ⟨half',hcall₁,hpart,hopen,hnone⟩ | ⟨hcall₁,hnil,-⟩
    · obtain rfl := holds_unique hcall hcall₁
      rw [hin,← List.append_assoc] at hpart hopen
      exact Or.inl ⟨half ++ new,hcall',hpart,hopen,hnone⟩
    · rw [hin] at hnil
      exact absurd (List.append_eq_nil_iff.mp hnil).1 hne
  | @record p call half new rest hplace hcall hin hne hcomplete hp hsum =>
    refine ⟨hpre,hall,?_⟩
    simp only [Serving,hplace,hp] at hserving ⊢
    rcases hserving with ⟨half',hcall₁,hpart,-,hnone⟩ | ⟨-,hnil,-⟩
    · obtain rfl := holds_unique hcall hcall₁
      rw [hin,← List.append_assoc] at hpart
      obtain ⟨hrecord,rfl,hfull⟩ := record_complete hcomplete hpart hsent
      refine ⟨rfl,by rw [hsum,hrecord,argsOf_argsBytes],hfull,?_⟩
      intro _
      simpa [Writing.after] using hnone
    · rw [hin] at hnil
      exact absurd (List.append_eq_nil_iff.mp hnil).1 hne
  | ended hplace hp => exact ⟨hpre,hall,by simp only [Serving,hp]⟩
  | @sent p k new rest hplace hnew hopen hlt hp hsum =>
    simp only [Serving,hplace] at hserving
    obtain ⟨hin,hanswer,hlen,hout⟩ := hserving
    rw [hanswer] at hnew
    have hbytes : got ++ (e.out.bytes ++ new) = (longBytes (answer args)).take (k+new.length) := by
      rw [← List.append_assoc,hout hopen,List.take_add,← hnew,List.take_left]
      rfl
    refine ⟨?_,Or.inr hlen,?_⟩
    · simp only [hbytes]
      exact List.take_prefix _ _
    · simp only [Serving,hp]
      exact ⟨hin,hsum.trans hanswer,hlen,fun _ => hbytes⟩
  | @finished p k call hplace hopen hp hcall =>
    simp only [Serving,hplace] at hserving
    obtain ⟨hin,hanswer,hlen,hout⟩ := hserving
    have hbytes : got ++ (e.out.bytes ++ (longBytes e.proc.sum).drop k) =
        longBytes (answer args) := by
      rw [← List.append_assoc,hout hopen,hanswer]
      exact List.take_append_drop _ _
    refine ⟨?_,Or.inr hlen,?_⟩
    · simp only [hbytes]
      exact List.prefix_refl _
    · simp only [Serving,hp]
      exact Or.inr ⟨hcall,hin,hlen,fun _ => hbytes⟩
  | @broken p k call hplace hp hcall =>
    simp only [Serving,hplace] at hserving
    obtain ⟨hin,hanswer,hlen,hout⟩ := hserving
    refine ⟨hpre,hall,?_⟩
    simp only [Serving,hp]
    exact Or.inr ⟨hcall,hin,hlen,by simp⟩
  | closed hplace => exact ⟨hpre,hall,by simp only [Serving,hplace]⟩

theorem Asked.send (h : Asked e sent got args) (hopen : e.inp.closed = false)
    (hless : sent.length < sizeofArgs) (new : List UInt8) :
    Asked ⟨e.proc,⟨e.inp.bytes ++ new,false⟩,e.out⟩ (sent ++ new) got args := by
  rcases h with hsilent | ⟨hpre,hall,hserving⟩
  · exact Or.inl hsilent
  right
  have hnone : got ++ e.out.bytes = [] := hall.resolve_right (by omega)
  refine ⟨hpre,Or.inl hnone,?_⟩
  cases hplace : e.proc.place with
  | reading call =>
    simp only [Serving,hplace] at hserving ⊢
    rcases hserving with ⟨half,hcall,-,hpart,-⟩ | ⟨-,-,hlen,-⟩
    · have hbytes : half ++ (e.inp.bytes ++ new) = sent ++ new := by
        rw [← List.append_assoc,hpart hopen]
      exact Or.inl ⟨half,hcall,by rw [hbytes],fun _ => hbytes,hnone⟩
    · omega
  | writing call =>
    simp only [Serving,hplace] at hserving
    omega
  | returned n => simp only [Serving,hplace]

theorem Asked.close (h : Asked e sent got args) {bytes : List UInt8}
    (hbytes : bytes <+: e.inp.bytes) : Asked ⟨e.proc,⟨bytes,true⟩,e.out⟩ sent got args := by
  rcases h with hsilent | ⟨hpre,hall,hserving⟩
  · exact Or.inl hsilent
  right
  refine ⟨hpre,hall,?_⟩
  cases hplace : e.proc.place with
  | reading call =>
    simp only [Serving,hplace] at hserving ⊢
    rcases hserving with ⟨half,hcall,hpart,-,hnone⟩ | ⟨hcall,hnil,hlen,hout⟩
    · refine Or.inl ⟨half,hcall,?_,by simp,hnone⟩
      exact ((List.prefix_append_right_inj half).mpr hbytes).trans hpart
    · rw [hnil,List.prefix_nil] at hbytes
      exact Or.inr ⟨hcall,hbytes,hlen,hout⟩
  | writing call =>
    simp only [Serving,hplace] at hserving ⊢
    rw [hserving.1,List.prefix_nil] at hbytes
    exact ⟨hbytes,hserving.2⟩
  | returned n => simp only [Serving,hplace]

theorem Asked.cut (h : Asked e sent got args) {bytes : List UInt8}
    (hbytes : bytes <+: e.out.bytes) : Asked ⟨e.proc,e.inp,⟨bytes,true⟩⟩ sent got args := by
  rcases h with ⟨hout,-⟩ | ⟨hpre,hall,hserving⟩
  · rw [hout,List.prefix_nil] at hbytes
    exact Or.inl ⟨hbytes,Or.inl rfl⟩
  right
  have hless : got ++ bytes <+: got ++ e.out.bytes :=
    (List.prefix_append_right_inj got).mpr hbytes
  have hnone : got ++ e.out.bytes = [] → got ++ bytes = [] := by
    intro h
    rwa [h,List.prefix_nil] at hless
  refine ⟨hless.trans hpre,hall.imp_left hnone,?_⟩
  cases hplace : e.proc.place with
  | reading call =>
    simp only [Serving,hplace] at hserving ⊢
    rcases hserving with ⟨half,hcall,hpart,hopen,h⟩ | ⟨hcall,hin,hlen,-⟩
    · exact Or.inl ⟨half,hcall,hpart,hopen,hnone h⟩
    · exact Or.inr ⟨hcall,hin,hlen,by simp⟩
  | writing call =>
    simp only [Serving,hplace] at hserving ⊢
    exact ⟨hserving.1,hserving.2.1,hserving.2.2.1,by simp⟩
  | returned n => simp only [Serving,hplace]

theorem Asked.receive (h : Asked e sent got args) {new rest : List UInt8}
    (hbytes : e.out.bytes = new ++ rest) (hne : new ≠ []) :
    Asked ⟨e.proc,e.inp,⟨rest,e.out.closed⟩⟩ sent (got ++ new) args := by
  rcases h with ⟨hout,-⟩ | ⟨hpre,hall,hserving⟩
  · rw [hbytes] at hout
    exact absurd (List.append_eq_nil_iff.mp hout).1 hne
  right
  have hsame : got ++ new ++ rest = got ++ e.out.bytes := by rw [hbytes,List.append_assoc]
  simp only [hsame]
  refine ⟨hpre,hall,?_⟩
  cases hplace : e.proc.place <;> simp only [Serving,hplace,hsame] at hserving ⊢
  · exact hserving
  · exact hserving

/-- A complete answer is the right one, and the server is ready for the next record. -/
theorem Asked.answered (h : Asked e sent got args) (hs : e.proc.Sound) {new rest : List UInt8}
    (hbytes : e.out.bytes = new ++ rest) (hne : new ≠ [])
    (hlen : (got ++ new).length = sizeofResult) :
    got ++ new = longBytes (answer args) ∧ sent.length = sizeofArgs ∧
      Ready ⟨e.proc,e.inp,⟨rest,e.out.closed⟩⟩ := by
  rcases h with ⟨hout,-⟩ | ⟨hpre,hall,hserving⟩
  · rw [hbytes] at hout
    exact absurd (List.append_eq_nil_iff.mp hout).1 hne
  have hsome : got ++ e.out.bytes ≠ [] := by simp [hbytes,hne]
  rw [hbytes,← List.append_assoc] at hpre
  have hle := hpre.length_le
  rw [List.length_append,hlen,longBytes_length,sizeofResult] at hle
  obtain rfl : rest = [] := List.length_eq_zero_iff.mp (by omega)
  rw [List.append_nil] at hpre hbytes
  have hanswer : got ++ new = longBytes (answer args) :=
    hpre.eq_of_length (by rw [hlen,longBytes_length,sizeofResult])
  refine ⟨hanswer,hall.resolve_left hsome,?_⟩
  cases hplace : e.proc.place with
  | reading call =>
    simp only [Serving,hplace] at hserving
    rcases hserving with ⟨half,-,-,-,hnone⟩ | ⟨hcall,hin,-,-⟩
    · exact absurd hnone hsome
    · exact Or.inr ⟨rfl,hin,call,hplace,hcall⟩
  | writing call =>
    simp only [Server.Sound,hplace] at hs
    obtain ⟨k,hk,rfl⟩ := hs
    simp only [Serving,hplace] at hserving
    refine Or.inl ⟨rfl,Or.inl ?_⟩
    by_contra hopen
    have hpart := congrArg List.length (hserving.2.2.2 (by simpa using hopen))
    rw [hbytes,hlen,List.length_take,longBytes_length] at hpart
    simp only [Writing.after,sizeofResult] at hpart hk
    omega
  | returned n => exact Or.inl ⟨rfl,Or.inr ⟨n,hplace⟩⟩

end Server

section Client

/-- The client waits in one of its calls, with the server's side to match. -/
def Matched (s : Session Client Server) : Prop :=
  match s.left.place with
  | .fgets | .returned => Ready s.rightEnd
  | .writing call => scanTwo s.left.sendline = some s.left.args ∧
      ∃ k < sizeofArgs, call = Writing.after sizeofArgs k ∧
        Asked s.rightEnd ((argsBytes s.left.args).take k) [] s.left.args
  | .reading call => scanTwo s.left.sendline = some s.left.args ∧
      ∃ sent got, sent <+: argsBytes s.left.args ∧
        (sent.length = sizeofArgs → s.left.n = sizeofArgs) ∧
        call.Holds sizeofResult got ∧ got.length < sizeofResult ∧
        Asked s.rightEnd sent got s.left.args

/-- As long as no `readn` has failed, every line shown is right and the two sides match. -/
def Consistent (s : Session Client Server) : Prop :=
  (∃ e ∈ s.left.log, e.ReadnFailed) ∨
    (∀ e ∈ s.left.log, e.Right) ∧ s.right.Sound ∧ Matched s

variable {s t : Session Client Server} {a : Io} {act : Act}

/-- What keeps the server's part of every exchange keeps the match. -/
theorem Matched.carry (h : Matched s) (hleft : t.left = s.left)
    (hready : Ready s.rightEnd → Ready t.rightEnd)
    (hasked : ∀ sent got, sent <+: argsBytes s.left.args → Asked s.rightEnd sent got s.left.args →
      Asked t.rightEnd sent got s.left.args) : Matched t := by
  cases hplace : s.left.place with
  | fgets | returned =>
    simp only [Matched,hleft,hplace] at h ⊢
    exact hready h
  | writing call =>
    simp only [Matched,hleft,hplace] at h ⊢
    obtain ⟨hscan,k,hk,hcall,h⟩ := h
    exact ⟨hscan,k,hk,hcall,hasked _ _ (List.take_prefix _ _) h⟩
  | reading call =>
    simp only [Matched,hleft,hplace] at h ⊢
    obtain ⟨hscan,sent,got,hsent,hn,hcall,hlt,h⟩ := h
    exact ⟨hscan,sent,got,hsent,hn,hcall,hlt,hasked sent got hsent h⟩

theorem Matched.server {e : Endpoint Server} (h : Matched s)
    (hmove : ServerMove s.rightEnd e) : Matched ⟨s.left,e.proc,e.inp,e.out⟩ :=
  h.carry rfl (fun hready => hready.move hmove) fun _ _ hsent hasked => hasked.move hsent hmove

theorem Matched.close (h : Matched s) {bytes : List UInt8} (hbytes : bytes <+: s.toRight.bytes) :
    Matched { s with toRight := ⟨bytes,true⟩ } :=
  h.carry rfl (fun hready => hready.close hbytes) fun _ _ _ hasked => hasked.close hbytes

theorem Matched.cut (h : Matched s) {bytes : List UInt8} (hbytes : bytes <+: s.toLeft.bytes) :
    Matched { s with toLeft := ⟨bytes,true⟩ } :=
  h.carry rfl (fun hready => hready.cut hbytes) fun _ _ _ hasked => hasked.cut hbytes

theorem client_reading {c : Client} {len : ℕ} (h : numberCli.pending c = .read len) :
    ∃ call, c.place = .reading call ∧ len = call.left := by
  cases hplace : c.place <;> simp [numberCli,hplace] at h
  exact ⟨_,rfl,h.symm⟩

theorem client_writing {c : Client} {bytes : List UInt8} (h : numberCli.pending c = .write bytes) :
    ∃ call, c.place = .writing call ∧ bytes = (argsBytes c.args).drop call.off := by
  cases hplace : c.place <;> simp [numberCli,hplace] at h
  exact ⟨_,rfl,h.symm⟩

theorem Consistent.read (hright : ∀ e ∈ s.left.log, e.Right) (hs : s.right.Sound) (h : Matched s)
    {len : ℕ} {new rest : List UInt8} (hp : numberCli.pending s.left = .read len)
    (hin : s.toLeft.bytes = new ++ rest) (hne : 0 < len → new ≠ []) (hlen : new.length ≤ len) :
    Consistent ⟨numberCli.onRead s.left (.data new),s.right,s.toRight,⟨rest,s.toLeft.closed⟩⟩ := by
  obtain ⟨call,hplace,rfl⟩ := client_reading hp
  simp only [Matched,hplace] at h
  obtain ⟨hscan,sent,got,hsent,hn,hcall,hlt,hasked⟩ := h
  rw [hcall.left] at hne hlen
  have hnew : new ≠ [] := hne (by omega)
  have hcall' := hcall.data hnew (by omega)
  right
  rcases Nat.lt_or_eq_of_le hcall'.fits with hless | hall
  · have hret : (call.body sizeofResult (.data new)).ret = none := hcall'.ret.trans (if_pos hless)
    have hread : numberCli.onRead s.left (.data new) =
        { s.left with place := .reading (call.body sizeofResult (.data new)) } := by
      simp only [numberCli,hplace,hret]
    rw [hread]
    exact ⟨hright,hs,hscan,sent,got ++ new,hsent,hn,hcall',hless,hasked.receive hin hnew⟩
  · have hret : (call.body sizeofResult (.data new)).ret = some (sizeofResult : ℤ) := by
      simp [hcall'.ret,hall]
    have hread : numberCli.onRead s.left (.data new) =
        s.left.finish (call.body sizeofResult (.data new)).dst sizeofResult := by
      simp only [numberCli,hplace,hret]
    have hload : (call.body sizeofResult (.data new)).dst.load 0 sizeofResult = got ++ new :=
      hall ▸ hcall'.dst
    obtain ⟨hanswer,hfull,hready⟩ := hasked.answered hs hin hnew hall
    rw [hread]
    refine ⟨List.forall_mem_append.mpr ⟨hright,List.forall_mem_singleton.mpr ?_⟩,hs,hready⟩
    intro v hv
    rw [if_neg (by decide),hload,hanswer,longOf_longBytes] at hv
    exact ⟨hn hfull,rfl,hscan,(Option.some.inj hv).symm⟩

theorem Consistent.eof (hright : ∀ e ∈ s.left.log, e.Right) (hs : s.right.Sound)
    {len : ℕ} (hp : numberCli.pending s.left = .read len) (hin : s.toLeft.bytes = [])
    (hclosed : s.toLeft.closed = true) :
    Consistent ⟨numberCli.onRead s.left (.data []),s.right,s.toRight,s.toLeft⟩ := by
  obtain ⟨call,hplace,rfl⟩ := client_reading hp
  have hread : numberCli.onRead s.left (.data []) = s.left.finish call.dst 0 := by
    simp only [numberCli,hplace,Readn.body_eof]
  rw [hread]
  refine Or.inr ⟨List.forall_mem_append.mpr ⟨hright,List.forall_mem_singleton.mpr ?_⟩,hs,
    Or.inl ⟨hin,Or.inl hclosed⟩⟩
  intro v hv
  simp at hv

theorem Consistent.readFail (hright : ∀ e ∈ s.left.log, e.Right) (hs : s.right.Sound)
    (h : Matched s) {len : ℕ} {errno : Errno} (hp : numberCli.pending s.left = .read len) :
    Consistent ⟨numberCli.onRead s.left (.fail errno),s.right,s.toRight,s.toLeft⟩ := by
  obtain ⟨call,hplace,rfl⟩ := client_reading hp
  by_cases herr : errno = .eintr
  · subst errno
    have hmatched := h
    simp only [Matched,hplace] at h
    obtain ⟨-,-,got,-,-,hcall,hlt,-⟩ := h
    have hret : call.ret = none := by simp [hcall.ret,hlt]
    have hread : numberCli.onRead s.left (.fail .eintr) = s.left := by
      simp only [numberCli,hplace,hcall.interrupted hlt,hret]
      rw [← hplace]
    rw [hread]
    exact Or.inr ⟨hright,hs,hmatched⟩
  · have hread : numberCli.onRead s.left (.fail errno) = s.left.finish call.dst (-1) := by
      simp only [numberCli,hplace,Readn.body_failed _ _ herr]
    rw [hread]
    exact Or.inl ⟨_,List.mem_append_right _ (List.mem_singleton_self _),rfl⟩

theorem Consistent.write (hright : ∀ e ∈ s.left.log, e.Right) (hs : s.right.Sound) (h : Matched s)
    {new rest : List UInt8} (hp : numberCli.pending s.left = .write (new ++ rest))
    (hne : new ++ rest ≠ [] → new ≠ []) (hopen : s.toRight.closed = false) :
    Consistent ⟨numberCli.onWrite s.left (.accepted new.length),s.right,
      ⟨s.toRight.bytes ++ new,false⟩,s.toLeft⟩ := by
  obtain ⟨call,hplace,hbytes⟩ := client_writing hp
  simp only [Matched,hplace] at h
  obtain ⟨hscan,k,hk,rfl,hasked⟩ := h
  simp only [Writing.after] at hbytes
  have hlen : new.length+rest.length = sizeofArgs-k := by
    have hlength := congrArg List.length hbytes
    rwa [List.length_append,List.length_drop,argsBytes_length] at hlength
  have hnew : new ≠ [] := by
    apply hne
    intro hnil
    have := congrArg List.length hnil
    simp only [List.length_append,List.length_nil] at this
    omega
  have hpos := List.length_pos_iff.mpr hnew
  have hsent : (argsBytes s.left.args).take k ++ new =
      (argsBytes s.left.args).take (k+new.length) := by
    rw [List.take_add,← hbytes,List.take_left]
  have hasked' := hasked.send hopen (by simp; omega) new
  rw [hsent] at hasked'
  have hbody := Writing.body_accepted hpos (show k+new.length ≤ sizeofArgs by omega)
  rcases Nat.lt_or_ge (k+new.length) sizeofArgs with hless | hfull
  · have hret : (Writing.after sizeofArgs (k+new.length)).ret = none := if_pos hless
    have hwrite : numberCli.onWrite s.left (.accepted new.length) =
        { s.left with place := .writing (Writing.after sizeofArgs (k+new.length)) } := by
      simp only [numberCli,hplace,hbody,hret]
    rw [hwrite]
    exact Or.inr ⟨hright,hs,hscan,k+new.length,hless,rfl,hasked'⟩
  · have hret : (Writing.after sizeofArgs (k+new.length)).ret = some (sizeofArgs : ℤ) :=
      if_neg (not_lt.mpr hfull)
    have hwrite : numberCli.onWrite s.left (.accepted new.length) =
        { s.left with place := .reading (Readn.enter sizeofResult s.left.result)
                      n := sizeofArgs } := by
      simp only [numberCli,hplace,hbody,hret]
    rw [hwrite]
    exact Or.inr ⟨hright,hs,hscan,_,[],List.take_prefix _ _,fun _ => rfl,
      Readn.enter_holds sizeofResult s.left.result,by decide,hasked'⟩

theorem Consistent.writeFail (hright : ∀ e ∈ s.left.log, e.Right) (hs : s.right.Sound)
    (h : Matched s) {bytes : List UInt8} {errno : Errno}
    (hp : numberCli.pending s.left = .write bytes) :
    Consistent ⟨numberCli.onWrite s.left (.fail errno),s.right,
      ⟨s.toRight.bytes,s.toRight.closed || decide (errno ≠ .eintr)⟩,s.toLeft⟩ := by
  obtain ⟨call,hplace,hbytes⟩ := client_writing hp
  have hmatched := h
  simp only [Matched,hplace] at h
  obtain ⟨hscan,k,hk,rfl,hasked⟩ := h
  by_cases herr : errno = .eintr
  · subst errno
    have hret : (Writing.after sizeofArgs k).ret = none := if_pos hk
    have hwrite : numberCli.onWrite s.left (.fail .eintr) = s.left := by
      simp only [numberCli,hplace,Writing.body_interrupted hk,hret]
      rw [← hplace]
    rw [hwrite]
    simp only [ne_eq,not_true_eq_false,decide_false,Bool.or_false]
    exact Or.inr ⟨hright,hs,hmatched⟩
  · have hwrite : numberCli.onWrite s.left (.fail errno) =
        { s.left with place := .reading (Readn.enter sizeofResult s.left.result), n := -1 } := by
      simp only [numberCli,hplace,Writing.body_failed herr]
    rw [hwrite]
    simp only [ne_eq,herr,not_false_eq_true,decide_true,Bool.or_true]
    refine Or.inr ⟨hright,hs,hscan,(argsBytes s.left.args).take k,[],List.take_prefix _ _,?_,
      Readn.enter_holds sizeofResult s.left.result,by decide,
      hasked.close (List.prefix_refl _)⟩
    intro hfull
    rw [List.length_take,argsBytes_length] at hfull
    omega

theorem Consistent.next (hright : ∀ e ∈ s.left.log, e.Right) (hs : s.right.Sound) (h : Matched s)
    (hp : numberCli.pending s.left = .compute) : Consistent { s with left := s.left.next } := by
  have hplace : s.left.place = .fgets := by
    cases hplace : s.left.place <;> simp [numberCli,hplace] at hp ⊢
  simp only [Matched,hplace] at h
  cases hget : fgets maxLine s.left.input with
  | none =>
    have hnext : s.left.next = { s.left with place := .returned } := by
      simp only [Client.next,hget]
    rw [hnext]
    exact Or.inr ⟨hright,hs,h⟩
  | some pair =>
    obtain ⟨line,rest⟩ := pair
    cases hscan : scanTwo line with
    | none =>
      have hnext : s.left.next = { s.left with
          input := rest, sendline := line, log := s.left.log ++ [.invalid line] } := by
        simp only [Client.next,hget,hscan]
      rw [hnext]
      have hlog : ∀ e ∈ s.left.log ++ [.invalid line], e.Right :=
        List.forall_mem_append.mpr ⟨hright,List.forall_mem_singleton.mpr trivial⟩
      refine Or.inr ⟨hlog,hs,?_⟩
      simp only [Matched,hplace]
      exact h
    | some args =>
      have hnext : s.left.next = { s.left with
          place := .writing (Writing.enter sizeofArgs), input := rest, sendline := line
          args := args } := by
        simp only [Client.next,hget,hscan]
      rw [hnext]
      exact Or.inr ⟨hright,hs,hscan,0,by decide,Writing.enter_eq_after sizeofArgs,h.asked args⟩

theorem Consistent.client {e : Endpoint Client} (hright : ∀ e ∈ s.left.log, e.Right)
    (hs : s.right.Sound) (h : Matched s) (hio : numberCli.io s.leftEnd a = some e) :
    Consistent ⟨e.proc,s.right,e.out,e.inp⟩ := by
  cases io_moved hio with
  | data hp hin hne hlen => exact .read hright hs h hp hin hne hlen
  | eof hp hin hclosed => exact .eof hright hs hp hin hclosed
  | readFail hp => exact .readFail hright hs h hp
  | sent hp hne hopen => exact .write hright hs h hp hne hopen
  | writeFail hp => exact .writeFail hright hs h hp
  | compute hp => exact .next hright hs h hp
  | close hp => exact Or.inr ⟨hright,hs,h.close (List.prefix_refl _)⟩

/-- A pass that met no end of file shows a number, whatever `readn` has returned. -/
def Entry.Printed : Entry → Prop
  | .invalid _ => True
  | .exchange _ _ _ got shown => shown = none ↔ got = 0

structure Logged (s t : Client) (a : Io) (new : List Entry) : Prop where
  log : t.log = s.log ++ new
  printed : ∀ x ∈ new, x.Printed
  failed : (∃ x ∈ new, x.ReadnFailed) ↔ ∃ errno, errno ≠ .eintr ∧ a = .readFail errno

theorem Logged.nothing {s t : Client} {a : Io} (h : t.log = s.log)
    (ha : ¬ ∃ errno, errno ≠ .eintr ∧ a = .readFail errno) : Logged s t a [] :=
  ⟨by rw [h,List.append_nil],by simp,by simpa using ha⟩

theorem logged_read {s : Client} {len : ℕ} {got : ReadAnswer} {a : Io}
    (hp : numberCli.pending s = .read len)
    (ha : (∃ errno, errno ≠ .eintr ∧ a = .readFail errno) ↔
      ∃ errno, errno ≠ .eintr ∧ got = .fail errno) :
    ∃ new, Logged s (numberCli.onRead s got) a new := by
  cases hplace : s.place with
  | reading call =>
    have hfailed := Readn.body_failed_iff (n := sizeofResult) (s := call) (a := got)
    rw [← ha] at hfailed
    simp only [numberCli,hplace]
    cases hret : (call.body sizeofResult got).ret with
    | none => exact ⟨[],.nothing rfl (by simp [← hfailed,hret])⟩
    | some k =>
      refine ⟨_,rfl,?_,?_⟩
      · intro x hx
        obtain rfl := List.mem_singleton.mp hx
        simp only [Entry.Printed]
        split_ifs with hk <;> simp [hk]
      · rw [← hfailed,hret]
        simp [Entry.ReadnFailed]
  | fgets | writing | returned => simp [numberCli,hplace] at hp

theorem logged_write (s : Client) (got : WriteAnswer) : (numberCli.onWrite s got).log = s.log := by
  simp only [numberCli]
  cases s.place with
  | writing call =>
    dsimp only
    cases (call.body sizeofArgs got).ret <;> rfl
  | fgets | reading | returned => rfl

theorem client_log {e : Endpoint Client} (hio : numberCli.io s.leftEnd a = some e) :
    ∃ new, Logged s.left e.proc a new := by
  cases io_moved hio with
  | data hp | eof hp | readFail hp => exact logged_read hp (by simp)
  | sent | writeFail => exact ⟨[],.nothing (logged_write s.left _) (by simp)⟩
  | compute =>
    simp only [numberCli,Client.next]
    cases fgets maxLine s.leftEnd.proc.input with
    | none => exact ⟨[],.nothing rfl (by simp)⟩
    | some pair =>
      dsimp only
      cases scanTwo pair.1 with
      | none => exact ⟨[.invalid pair.1],rfl,by simp [Entry.Printed],by simp [Entry.ReadnFailed]⟩
      | some args => exact ⟨[],.nothing rfl (by simp)⟩
  | close => exact ⟨[],.nothing rfl (by simp)⟩

theorem Consistent.step (h : Consistent s)
    (hstep : session numberCli numberEcho s act = some t) : Consistent t := by
  cases act with
  | left a =>
    obtain ⟨e,hio,rfl⟩ := Option.map_eq_some_iff.mp hstep
    rcases h with ⟨x,hx,hfailed⟩ | ⟨hright,hs,hmatched⟩
    · obtain ⟨new,hnew⟩ := client_log hio
      exact Or.inl ⟨x,by simp [hnew.log,hx],hfailed⟩
    · exact .client hright hs hmatched hio
  | right a =>
    obtain ⟨e,hio,rfl⟩ := Option.map_eq_some_iff.mp hstep
    rcases h with hfailed | ⟨hright,hs,hmatched⟩
    · exact Or.inl hfailed
    · obtain ⟨hsound,hmove⟩ := server_move hs hio
      exact Or.inr ⟨hright,hsound,hmatched.server hmove⟩
  | cutRight k =>
    obtain rfl := Option.some.inj hstep
    rcases h with hfailed | ⟨hright,hs,hmatched⟩
    · exact Or.inl hfailed
    · exact Or.inr ⟨hright,hs,hmatched.close (List.take_prefix _ _)⟩
  | cutLeft k =>
    obtain rfl := Option.some.inj hstep
    rcases h with hfailed | ⟨hright,hs,hmatched⟩
    · exact Or.inl hfailed
    · exact Or.inr ⟨hright,hs,hmatched.cut (List.take_prefix _ _)⟩

theorem printed_step (h : ∀ e ∈ s.left.log, e.Printed)
    (hstep : session numberCli numberEcho s act = some t) : ∀ e ∈ t.left.log, e.Printed := by
  cases act with
  | left a =>
    obtain ⟨e,hio,rfl⟩ := Option.map_eq_some_iff.mp hstep
    obtain ⟨new,hnew⟩ := client_log hio
    intro x hx
    simp only [hnew.log,List.mem_append] at hx
    exact hx.elim (h x) (hnew.printed x)
  | right a =>
    obtain ⟨e,-,rfl⟩ := Option.map_eq_some_iff.mp hstep
    exact h
  | cutRight k | cutLeft k =>
    obtain rfl := Option.some.inj hstep
    exact h

theorem failed_step (hstep : session numberCli numberEcho s act = some t) :
    (∃ e ∈ t.left.log, e.ReadnFailed) ↔ (∃ e ∈ s.left.log, e.ReadnFailed) ∨
      ∃ errno, errno ≠ .eintr ∧ act = .left (.readFail errno) := by
  cases act with
  | left a =>
    obtain ⟨e,hio,rfl⟩ := Option.map_eq_some_iff.mp hstep
    obtain ⟨new,hnew⟩ := client_log hio
    simp only [hnew.log,Act.left.injEq,← hnew.failed]
    simp [or_and_right,exists_or]
  | right a =>
    obtain ⟨e,-,rfl⟩ := Option.map_eq_some_iff.mp hstep
    simp
  | cutRight k | cutLeft k =>
    obtain rfl := Option.some.inj hstep
    simp

/-- A `readn` of the client returns -1 exactly if a `read` fails for good. -/
theorem failed_run {as : List Act} (h : exec (session numberCli numberEcho) s as = some t) :
    (∃ e ∈ t.left.log, e.ReadnFailed) ↔ (∃ e ∈ s.left.log, e.ReadnFailed) ∨
      ∃ errno, errno ≠ .eintr ∧ Act.left (.readFail errno) ∈ as := by
  induction as generalizing s with
  | nil =>
    obtain rfl : s = t := by simpa [exec] using h
    simp
  | cons act as ih =>
    obtain ⟨u,hu,ht⟩ := Option.bind_eq_some_iff.mp h
    rw [ih ht,failed_step hu,or_assoc,← exists_or]
    simp only [List.mem_cons,and_or_left,eq_comm (a := act)]

end Client

/-- The two programs at the ends of a new connection; what their variables hold at first is
arbitrary. -/
def connected (input : List UInt8) (client : Long × Long × ℤ) (result : Memory UInt8)
    (sockfd : ℤ) (args : Memory UInt8) (sum : Long) : Session Client Server :=
  ⟨Client.start input (client.1,client.2.1) client.2.2 result,Server.start sockfd args sum,
    ⟨[],false⟩,⟨[],false⟩⟩

/-- Every number that the client shows is the answer to its line, in an exchange that did not
fail, exactly if no `readn` of the client has returned -1, and that is if no `read` of the
client has failed with something other than `EINTR`. -/
theorem session_right_iff (input : List UInt8) (client : Long × Long × ℤ) (result : Memory UInt8)
    (sockfd : ℤ) (args : Memory UInt8) (sum : Long) (as : List Act) (s : Session Client Server)
    (h : exec (session numberCli numberEcho) (connected input client result sockfd args sum) as =
      some s) :
    ((∀ e ∈ s.left.log, e.Right) ↔ ∀ errno, Act.left (.readFail errno) ∈ as → errno = .eintr) ∧
    ((∀ e ∈ s.left.log, e.Right) ↔ ∀ e ∈ s.left.log, ¬ e.ReadnFailed) := by
  have hreach := reachable_of_exec h
  have hfailed := failed_run h
  have hnone : ¬ ∃ e ∈ (connected input client result sockfd args sum).left.log,
      e.ReadnFailed := by simp [connected,Client.start]
  have hanswers : (∀ e ∈ s.left.log, ¬ e.ReadnFailed) ↔
      ∀ errno, Act.left (.readFail errno) ∈ as → errno = .eintr := by
    rw [or_iff_right hnone] at hfailed
    have hnot := not_congr hfailed
    push Not at hnot
    rw [hnot]
    exact forall_congr' fun errno => by tauto
  rw [← hanswers,and_self]
  have hstart : Consistent (connected input client result sockfd args sum) := by
    obtain ⟨call,hplace,hcall⟩ := head_enter
      ⟨.returned 0,args,sum,[("number echo %d\n",[.int sockfd])]⟩
    refine Or.inr ⟨?_,(start_sound sockfd args sum).1,Or.inr ⟨rfl,rfl,call,hplace,hcall⟩⟩
    simp [connected,Client.start]
  have hconsistent : Consistent s :=
    hreach.invariant (I := Consistent) hstart fun _ _ _ hx hxy => hx.step hxy
  have hprinted : ∀ e ∈ s.left.log, e.Printed :=
    hreach.invariant (I := fun x => ∀ e ∈ x.left.log, e.Printed) (by simp [connected,Client.start])
      fun _ _ _ hx hxy => printed_step hx hxy
  constructor
  · intro hright e he hneg
    have hp := hprinted e he
    have hr := hright e he
    cases e with
    | invalid line => exact hneg
    | exchange line args wrote got shown =>
      obtain rfl : got = -1 := hneg
      cases shown with
      | none => simp [Entry.Printed] at hp
      | some v =>
        have hgot := (hr v rfl).2.1
        simp [sizeofResult] at hgot
  · intro hall
    rcases hconsistent with ⟨e,he,hneg⟩ | ⟨hright,-⟩
    · exact absurd hneg (hall e he)
    · exact hright

/-- One exchange, a line without numbers, and one exchange that meets the end of the file. -/
theorem session_right_closed : ∃ s,
    exec (session numberCli numberEcho)
      (connected (ascii "1 2\nx\n3 4\n") (0,0,0) (fun _ => 0) 4 (fun _ => 0) 0)
      [.left .compute,.left (.write 6),.right (.read 99),.left (.write 99),.right (.read 99),
        .right (.write 3),.left (.read 1),.right (.write 99),.left (.read 99),.left .compute,
        .left .compute,.left (.write 99),.cutLeft 0,.left (.read 99)] = some s ∧
      s.left.log = [.exchange (ascii "1 2\n") (1,2) 16 8 (some 103),.invalid (ascii "x\n"),
        .exchange (ascii "3 4\n") (3,4) 16 0 none] ∧
      ∀ e ∈ s.left.log, e.Right := by
  obtain ⟨s,hs,hlog⟩ := Option.map_eq_some_iff.mp (show (exec (session numberCli numberEcho)
    (connected (ascii "1 2\nx\n3 4\n") (0,0,0) (fun _ => 0) 4 (fun _ => 0) 0)
    [.left .compute,.left (.write 6),.right (.read 99),.left (.write 99),.right (.read 99),
      .right (.write 3),.left (.read 1),.right (.write 99),.left (.read 99),.left .compute,
      .left .compute,.left (.write 99),.cutLeft 0,.left (.read 99)]).map
    (fun s => decide (s.left.log = [.exchange (ascii "1 2\n") (1,2) 16 8 (some 103),
      .invalid (ascii "x\n"),.exchange (ascii "3 4\n") (3,4) 16 0 none])) = some true by
        decide +kernel)
  refine ⟨s,hs,of_decide_eq_true hlog,?_⟩
  refine (session_right_iff (ascii "1 2\nx\n3 4\n") (0,0,0) (fun _ => 0) 4 (fun _ => 0) 0 _ s
    hs).1.mpr ?_
  simp

/-- A `read` that fails in the second exchange: the answer to the first line is shown as that
of the second. -/
theorem stale_result_shown :
    ∃ s, Reachable (session numberCli numberEcho)
        (connected (ascii "1 2\n3 4\n") (0,0,0) (fun _ => 0) 4 (fun _ => 0) 0) s ∧
      s.left.log = [.exchange (ascii "1 2\n") (1,2) 16 8 (some 103),
        .exchange (ascii "3 4\n") (3,4) 16 (-1) (some 103)] := by
  obtain ⟨s,hreach,hs⟩ := exists_reachable (session numberCli numberEcho)
    (connected (ascii "1 2\n3 4\n") (0,0,0) (fun _ => 0) 4 (fun _ => 0) 0)
    [.left .compute,.left (.write 99),.right (.read 99),.right (.write 99),.left (.read 99),
      .left .compute,.left (.write 99),.left (.readFail .other)]
    (fun s => s.left.log = [.exchange (ascii "1 2\n") (1,2) 16 8 (some 103),
      .exchange (ascii "3 4\n") (3,4) 16 (-1) (some 103)]) (by decide +kernel)
  exact ⟨s,hreach,of_decide_eq_true hs⟩

end Sum
end CPrograming
