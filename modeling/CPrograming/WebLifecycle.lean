import CPrograming.WebSelect

/-!
# The life of a file of the web client

Each file is started, asked for and closed once, in this order, whatever the
order in which the connections become ready. A step touches one file at most, and
`FileStep` lists what it can do to it; how often a file moves between two calls of
`select` is then a matter of what the rest of the pass can still do.
-/

namespace CPrograming
namespace Web

open Runs Counting WebRequest

variable {n : ℕ}

def Event.concerns (i : Fin n) : Event n → Bool
  | .startConnect j _ => j = i
  | .writeGetCmd j _ _ => j = i
  | .close j _ => j = i
  | _ => false

def callsFor (i : Fin n) (log : List (Event n)) : List (Event n) := log.filter (Event.concerns i)

inductive Phase
  | startConnect | writeGetCmd | close
  deriving DecidableEq, Repr

def Event.phase : Event n → Option Phase
  | .startConnect _ _ => some .startConnect
  | .writeGetCmd _ _ _ => some .writeGetCmd
  | .close _ _ => some .close
  | _ => none

/-- Which of these calls were made for file `i`, in order. -/
def phases (i : Fin n) (log : List (Event n)) : List Phase :=
  (callsFor i log).filterMap Event.phase

def Flags.phases : Flags → List Phase
  | .zero => []
  | .connection => [.startConnect]
  | .reading => [.startConnect,.writeGetCmd]
  | .done => [.startConnect,.writeGetCmd,.close]

def Flags.moves : List (Flags × Flags) :=
  [(.zero,.connection),(.zero,.reading),(.connection,.reading),(.reading,.done)]

@[simp] theorem callsFor_append (i : Fin n) (log es : List (Event n)) :
    callsFor i (log ++ es) = callsFor i log ++ callsFor i es := List.filter_append _ _

/-- Only file `i` is touched, and the calls `es` are made for it. -/
structure Touches (s t : State n) (i : Fin n) (es : List (Event n)) : Prop where
  name : (t.file i).name = (s.file i).name
  own : callsFor i t.log = callsFor i s.log ++ es
  other : ∀ j, j ≠ i → t.file j = s.file j ∧ callsFor j t.log = callsFor j s.log

theorem touches_log {s t : State n} {es : List (Event n)} (i : Fin n) (hfile : t.file = s.file)
    (hlog : t.log = s.log ++ es) (hes : ∀ j, callsFor j es = []) : Touches s t i [] := by
  refine ⟨by rw [hfile],?_,?_⟩
  · rw [hlog,callsFor_append,hes]
  · intro j _
    rw [hfile,hlog,callsFor_append,hes,List.append_nil]
    exact ⟨rfl,rfl⟩

theorem touches_put {s t : State n} {i : Fin n} {es : List (Event n)} {f : File}
    (hfile : t.file = Function.update s.file i f) (hname : f.name = (s.file i).name)
    (hown : callsFor i t.log = callsFor i s.log ++ es)
    (hother : ∀ j, j ≠ i → callsFor j t.log = callsFor j s.log) : Touches s t i es := by
  refine ⟨by rw [hfile,Function.update_self,hname],hown,?_⟩
  intro j hj
  rw [hfile,Function.update_of_ne hj]
  exact ⟨rfl,hother j hj⟩

theorem Touches.trans {s t u : State n} {i : Fin n} {es fs : List (Event n)}
    (h : Touches s t i es) (h' : Touches t u i fs) : Touches s u i (es ++ fs) := by
  refine ⟨h'.name.trans h.name,?_,?_⟩
  · rw [h'.own,h.own,List.append_assoc]
  · intro j hj
    obtain ⟨hf,hl⟩ := h.other j hj
    obtain ⟨hf',hl'⟩ := h'.other j hj
    exact ⟨hf'.trans hf,hl'.trans hl⟩

theorem Touches.congr {s t u : State n} {i : Fin n} {es : List (Event n)} (h : Touches s t i es)
    (hfile : u.file = t.file) (hlog : u.log = t.log) : Touches s u i es := by
  refine ⟨by rw [hfile,h.name],by rw [hlog,h.own],?_⟩
  rw [hfile,hlog]
  exact h.other

def sent (s : State n) (i : Fin n) (a : Answers) : List UInt8 :=
  (sendRequest (s.file i).name a.line a.write).2.sent

def State.asks (s : State n) (i : Fin n) (a : Answers) : Prop :=
  match s.main with
  | .start j => j = i ∧ a.connect = .connected
  | .scan k => k = i ∧ (s.file i).flags = .connection ∧
      ((s.file i).fd ∈ s.rs ∨ (s.file i).fd ∈ s.ws) ∧ a.sockopt = true
  | _ => False

section Calls

variable {s t : State n} {i : Fin n} {a : Answers}

theorem writeGetCmd_touches (h : writeGetCmd s i a = some t) :
    Touches s t i [.writeGetCmd i (s.file i).fd (sent s i a)] ∧ t.main = s.main ∧
      (t.file i).flags = .reading ∧ (t.file i).fd = (s.file i).fd := by
  simp only [writeGetCmd] at h
  obtain ⟨r,-,rfl⟩ := Option.map_eq_some_iff.mp h
  refine ⟨touches_put rfl rfl ?_ ?_,rfl,by simp [State.put],by simp [State.put]⟩
  · simp [callsFor,Event.concerns,State.put,State.print,State.record,sent]
  · intro j hj
    simp [callsFor,Event.concerns,State.put,State.print,State.record,hj.symm]

theorem startConnect_touches (h : startConnect s i a = some t) :
    (t.main = .exited ∧ a.connect = .fail ∧ (t.file i).flags = (s.file i).flags ∧
      Touches s t i [.startConnect i (t.file i).fd]) ∨
    (t.main = s.main ∧ a.connect = .inProgress ∧ (t.file i).flags = .connection ∧
      Touches s t i [.startConnect i (t.file i).fd]) ∨
    (t.main = s.main ∧ a.connect = .connected ∧ (t.file i).flags = .reading ∧
      Touches s t i [.startConnect i (t.file i).fd,
        .writeGetCmd i (t.file i).fd (sent s i a)]) := by
  simp only [startConnect] at h
  split_ifs at h
  cases hc : a.connect with
  | fail =>
    simp only [hc,Option.some.injEq] at h
    subst t
    refine Or.inl ⟨rfl,rfl,by simp [State.put,State.goto,State.print,State.record],?_⟩
    refine touches_put rfl rfl ?_ ?_
    · simp [callsFor,Event.concerns,State.goto,State.put,State.print,State.record]
    · intro j hj
      simp [callsFor,Event.concerns,State.goto,State.put,State.print,State.record,hj.symm]
  | inProgress =>
    simp only [hc,Option.some.injEq] at h
    subst t
    refine Or.inr (Or.inl ⟨rfl,rfl,by simp [State.put],?_⟩)
    refine touches_put (f := ⟨(s.file i).name,a.socket,.connection⟩) ?_ rfl ?_ ?_
    · simp [State.put,State.print,State.record]
    · simp [callsFor,Event.concerns,State.put,State.print,State.record]
    · intro j hj
      simp [callsFor,Event.concerns,State.put,State.print,State.record,hj.symm]
  | connected =>
    simp only [hc] at h
    generalize hu : State.print _ _ _ = u at h
    obtain ⟨hasked,hm,hr,hfd⟩ := writeGetCmd_touches h
    have hstart : Touches s u i [.startConnect i a.socket] := by
      subst u
      refine touches_put rfl rfl ?_ ?_
      · simp [callsFor,Event.concerns,State.put,State.print,State.record]
      · intro j hj
        simp [callsFor,Event.concerns,State.put,State.print,State.record,hj.symm]
    have hmain : u.main = s.main := by
      subst u
      rfl
    have hsocket : (u.file i).fd = a.socket := by
      subst u
      simp [State.put,State.print,State.record]
    have hsent : sent u i a = sent s i a := by rw [sent,sent,hstart.name]
    rw [hfd,hsocket]
    rw [hsocket,hsent] at hasked
    exact Or.inr (Or.inr ⟨hm.trans hmain,rfl,hr,hstart.trans hasked⟩)

theorem handle_touches (h : handle s i a = some t) :
    (t.file i = s.file i ∧ Touches s t i [] ∧ ¬ ((s.file i).flags = .connection ∧
      ((s.file i).fd ∈ s.rs ∨ (s.file i).fd ∈ s.ws) ∧ a.sockopt = true)) ∨
    (t.main = s.main ∧ ((s.file i).flags = .connection ∧
      ((s.file i).fd ∈ s.rs ∨ (s.file i).fd ∈ s.ws) ∧ a.sockopt = true) ∧
      (t.file i).flags = .reading ∧
      Touches s t i [.writeGetCmd i (t.file i).fd (sent s i a)]) ∨
    (t.main = s.main ∧ (s.file i).flags = .reading ∧ (t.file i).flags = .done ∧
      Touches s t i [.close i (s.file i).fd]) := by
  simp only [handle] at h
  split_ifs at h with hstill hconn hopt hread hend
  · obtain rfl := Option.some.inj h
    refine Or.inl ⟨rfl,touches_log i rfl (List.append_nil _).symm fun _ => rfl,?_⟩
    rintro ⟨hc,-⟩
    simp [hc] at hstill
  · obtain ⟨hasked,hm,hr,hfd⟩ := writeGetCmd_touches h
    have hprint :
      Touches s (s.print "connection established for %s\n" [.str (s.file i).name]) i [] :=
      touches_log i rfl rfl fun _ => rfl
    refine Or.inr (Or.inl ⟨hm,⟨hconn.1,hconn.2,hopt⟩,hr,?_⟩)
    rw [hfd]
    exact hprint.trans ⟨hasked.name,hasked.own,hasked.other⟩
  · obtain rfl := Option.some.inj h
    exact Or.inl ⟨rfl,touches_log i rfl rfl fun _ => rfl,fun hc => hopt hc.2.2⟩
  · obtain rfl := Option.some.inj h
    refine Or.inr (Or.inr ⟨rfl,hread.1,by simp [State.put],touches_put rfl rfl ?_ ?_⟩)
    · simp [callsFor,Event.concerns,State.put,State.print,State.record]
    · intro j hj
      simp [callsFor,Event.concerns,State.put,State.print,State.record,hj.symm]
  · obtain rfl := Option.some.inj h
    exact Or.inl ⟨rfl,touches_log i rfl (List.append_assoc _ _ _) fun _ => rfl,
      fun hc => hconn ⟨hc.1,hc.2.1⟩⟩
  · obtain rfl := Option.some.inj h
    exact Or.inl ⟨rfl,touches_log i rfl (List.append_nil _).symm fun _ => rfl,
      fun hc => hconn ⟨hc.1,hc.2.1⟩⟩

end Calls

inductive FileStep (s t : State n) (a : Answers) (i : Fin n) : Prop
  | stay (hq : ¬ s.asks i a) (hf : t.file i = s.file i) (hl : callsFor i t.log = callsFor i s.log)
  | failed (hq : ¬ s.asks i a) (hm : t.main = .exited) (hs : (s.file i).flags = .zero)
      (ht : (t.file i).flags = .zero) (hl : Touches s t i [.startConnect i (t.file i).fd])
  | connecting (hq : ¬ s.asks i a) (hm : s.main = .start i) (hs : (s.file i).flags = .zero)
      (ht : (t.file i).flags = .connection) (hl : Touches s t i [.startConnect i (t.file i).fd])
  | connected (hq : s.asks i a) (hm : s.main = .start i) (hs : (s.file i).flags = .zero)
      (ht : (t.file i).flags = .reading)
      (hl : Touches s t i [.startConnect i (t.file i).fd,.writeGetCmd i (t.file i).fd (sent s i a)])
  | request (hq : s.asks i a) (hm : s.main = .scan i) (hs : (s.file i).flags = .connection)
      (ht : (t.file i).flags = .reading)
      (hl : Touches s t i [.writeGetCmd i (t.file i).fd (sent s i a)])
  | finish (hq : ¬ s.asks i a) (hm : s.main = .scan i) (hs : (s.file i).flags = .reading)
      (ht : (t.file i).flags = .done) (hl : Touches s t i [.close i (s.file i).fd])

theorem FileStep.andThen {s u : State n} {a : Answers} {i : Fin n} {f : State n → State n}
    (h : FileStep s u a i) (hfile : (f u).file = u.file) (hlog : (f u).log = u.log) :
    FileStep s (u.andThen f) a i := by
  simp only [State.andThen]
  split_ifs with hx
  · exact h
  · cases h with
    | stay hq hf hl => exact .stay hq (by rw [hfile,hf]) (by rw [hlog,hl])
    | failed _ hm => exact absurd hm hx
    | connecting hq hm hs ht hl =>
      rw [← hfile] at ht hl
      exact .connecting hq hm hs ht (hl.congr hfile hlog)
    | connected hq hm hs ht hl =>
      rw [← hfile] at ht hl
      exact .connected hq hm hs ht (hl.congr hfile hlog)
    | request hq hm hs ht hl =>
      rw [← hfile] at ht hl
      exact .request hq hm hs ht (hl.congr hfile hlog)
    | finish hq hm hs ht hl =>
      rw [← hfile] at ht
      exact .finish hq hm hs ht (hl.congr hfile hlog)

theorem FileStep.name {s t : State n} {a : Answers} {i : Fin n} (h : FileStep s t a i) :
    (t.file i).name = (s.file i).name := by
  cases h with
  | stay _ hf => rw [hf]
  | failed _ _ _ _ hl => exact hl.name
  | connecting _ _ _ _ hl => exact hl.name
  | connected _ _ _ _ hl => exact hl.name
  | request _ _ _ _ hl => exact hl.name
  | finish _ _ _ _ hl => exact hl.name

def Main.next : Main n → Main n → Prop
  | .outer, m => m = .spawn ∨ m = .returned
  | .spawn, m => m = .find 0 ∨ m = .select
  | .find i, m => m = .find (i+1) ∨ m = .nothingFound ∨ ∃ j, m = .start j
  | .start _, m => m = .spawn ∨ m = .exited
  | .select, m => m = .scan 0
  | .scan i, m => m = .scan (i+1) ∨ m = .outer ∨ m = .exited
  | _, _ => False

section Steps

variable {maxnconn : ℤ} {s t : State n} {a : Answers}

theorem step_next (h : step maxnconn s a = some t) : s.main.next t.main := by
  cases step_cases h with
  | outer hm | spawn hm | find i hm =>
    simp only [State.goto,hm]
    split_ifs <;> simp [Main.next]
  | missing i hm => simp [hm,Main.next,State.goto]
  | start i hm =>
    simp only [State.andThen,hm]
    split_ifs with hx
    · exact Or.inr hx
    · exact Or.inl rfl
  | select hm =>
    rw [hm]
    rfl
  | scan i hm =>
    simp only [State.andThen,hm]
    split_ifs with hx
    · exact Or.inr (Or.inr hx)
    · exact Or.inl rfl
  | pass i hm =>
    rw [hm]
    exact Or.inr (Or.inl rfl)

theorem startConnect_fileStep {u : State n} {i j : Fin n} (hm : s.main = .start j)
    (hzero : (s.file j).flags = .zero) (hu : startConnect s j a = some u) : FileStep s u a i := by
  have htouch := startConnect_touches hu
  by_cases hij : i = j
  · subst i
    have hasks : s.asks j a ↔ a.connect = .connected := by simp [State.asks,hm]
    rcases htouch with ⟨hx,hc,hf,hl⟩ | ⟨-,hc,hf,hl⟩ | ⟨-,hc,hf,hl⟩
    · exact .failed (by simp [hasks,hc]) hx hzero (hf.trans hzero) hl
    · exact .connecting (by simp [hasks,hc]) hm hzero hf hl
    · exact .connected (hasks.mpr hc) hm hzero hf hl
  · have hother : u.file i = s.file i ∧ callsFor i u.log = callsFor i s.log := by
      rcases htouch with ⟨-,-,-,hl⟩ | ⟨-,-,-,hl⟩ | ⟨-,-,-,hl⟩
      all_goals exact hl.other i hij
    exact .stay (by simp [State.asks,hm,Ne.symm hij]) hother.1 hother.2

theorem handle_fileStep {u : State n} {i j : Fin n} (hm : s.main = .scan j)
    (hu : handle s j a = some u) : FileStep s u a i := by
  have htouch := handle_touches hu
  by_cases hij : i = j
  · subst i
    have hasks : s.asks j a ↔ (s.file j).flags = .connection ∧
        ((s.file j).fd ∈ s.rs ∨ (s.file j).fd ∈ s.ws) ∧ a.sockopt = true := by
      simp [State.asks,hm]
    rcases htouch with ⟨hf,hl,hq⟩ | ⟨-,hq,hf,hl⟩ | ⟨-,hs,hf,hl⟩
    · exact .stay (hasks.not.mpr hq) hf (by rw [hl.own,List.append_nil])
    · exact .request (hasks.mpr hq) hm hq.1 hf hl
    · exact .finish (by simp [hasks,hs]) hm hs hf hl
  · have hother : u.file i = s.file i ∧ callsFor i u.log = callsFor i s.log := by
      rcases htouch with ⟨-,hl,-⟩ | ⟨-,-,-,hl⟩ | ⟨-,-,-,hl⟩
      all_goals exact hl.other i hij
    have hji : (j : ℕ) ≠ i := fun hji => hij (Fin.ext hji.symm)
    exact .stay (by simp [State.asks,hm,hji]) hother.1 hother.2

theorem step_fileStep (hi : Inv maxnconn s) (h : step maxnconn s a = some t) (i : Fin n) :
    FileStep s t a i := by
  have hplace := hi.place
  cases step_cases h with
  | outer hm | spawn hm | select hm | find _ hm | missing _ hm =>
    exact .stay (by simp [State.asks,hm]) rfl
      (by simp [callsFor,Event.concerns,State.goto,State.print,State.record])
  | start j hm hu =>
    simp only [Place,hm] at hplace
    exact FileStep.andThen (startConnect_fileStep hm hplace.2 hu) rfl rfl
  | scan j hm hu => exact FileStep.andThen (handle_fileStep hm hu) rfl rfl
  | pass k hm hn => exact .stay (by simp [State.asks,hm]; omega) rfl rfl

theorem FileStep.moves {i : Fin n} (h : FileStep s t a i) :
    (t.file i).flags = (s.file i).flags ∨ ((s.file i).flags,(t.file i).flags) ∈ Flags.moves := by
  cases h with
  | stay _ hf => exact Or.inl (by rw [hf])
  | failed _ _ hs ht => exact Or.inl (by rw [hs,ht])
  | connecting _ _ hs ht => exact Or.inr (by simp [hs,ht,Flags.moves])
  | connected _ _ hs ht => exact Or.inr (by simp [hs,ht,Flags.moves])
  | request _ _ hs ht => exact Or.inr (by simp [hs,ht,Flags.moves])
  | finish _ _ hs ht => exact Or.inr (by simp [hs,ht,Flags.moves])

theorem Touches.phases {i : Fin n} {es : List (Event n)} (h : Touches s t i es) :
    phases i t.log = phases i s.log ++ es.filterMap Event.phase := by
  simp only [Web.phases,h.own,List.filterMap_append]

/-- The calls made for a file are those its flags tell of; only the call that ended
the process is not told of. -/
def Told (s : State n) (i : Fin n) : Prop :=
  phases i s.log = (s.file i).flags.phases ∨
    s.main = .exited ∧ (s.file i).flags = .zero ∧ phases i s.log = [.startConnect]

theorem Told.step {i : Fin n} (ht : Told s i) (hi : Inv maxnconn s)
    (h : step maxnconn s a = some t) : Told t i := by
  have hrun : s.main ≠ .exited := by
    intro hm
    simp [Web.step,hm] at h
  have htold : phases i s.log = (s.file i).flags.phases := ht.resolve_right fun hx => hrun hx.1
  cases step_fileStep hi h i with
  | stay _ hf hl => exact Or.inl (by rw [phases,hl,hf,← htold,phases])
  | failed _ hm hs ht hl => exact Or.inr ⟨hm,ht,by rw [hl.phases,htold,hs]; rfl⟩
  | connecting _ _ hs ht hl => exact Or.inl (by rw [hl.phases,htold,hs,ht]; rfl)
  | connected _ _ hs ht hl => exact Or.inl (by rw [hl.phases,htold,hs,ht]; rfl)
  | request _ _ hs ht hl => exact Or.inl (by rw [hl.phases,htold,hs,ht]; rfl)
  | finish _ _ hs ht hl => exact Or.inl (by rw [hl.phases,htold,hs,ht]; rfl)

theorem reachable_told {name : Fin n → List UInt8} {opened : Finset ℤ}
    (h : Reachable (Web.step maxnconn) (init name opened) s) (i : Fin n) : Told s i := by
  have hall : Inv maxnconn s ∧ Told s i := by
    apply h.invariant (I := fun u => Inv maxnconn u ∧ Told u i)
    · exact ⟨init_inv maxnconn name opened,Or.inl rfl⟩
    · rintro a x y ⟨hi,ht⟩ hxy
      exact ⟨step_inv hi hxy,ht.step hi hxy⟩
  exact hall.2

end Steps

section Passes

variable {maxnconn : ℤ} {s t : State n} {a : Answers}

def moved (i : Fin n) (s t : State n) : ℕ := if (t.file i).flags = (s.file i).flags then 0 else 1

/-- How often file `i` moves until `main` is at `m` again, if the run goes on with these
answers. -/
def movesUntil (m : Main n) (maxnconn : ℤ) (i : Fin n) : State n → List Answers → ℕ
  | _, [] => 0
  | s, a :: as =>
    match step maxnconn s a with
    | none => 0
    | some t => moved i s t+(if t.main = m then 0 else movesUntil m maxnconn i t as)

/-- Whether file `i` can still move before the next call of `select`: its turn in the
loop over the files is still to come, or it can still be started. -/
def mayMove (i : Fin n) (s : State n) : Prop :=
  match s.main with
  | .select => True
  | .scan k => k ≤ i.val ∨ (s.file i).flags = .zero
  | _ => (s.file i).flags = .zero

instance (i : Fin n) (s : State n) : Decidable (mayMove i s) := by
  unfold mayMove
  split <;> infer_instance

theorem mayMove_of_zero {i : Fin n} (h : (s.file i).flags = .zero) : mayMove i s := by
  simp only [mayMove]
  split
  · trivial
  · exact Or.inr h
  · exact h

theorem not_mayMove {i : Fin n} (hm : t.main = .scan (i+1) ∨ t.main = .outer ∨ t.main = .spawn ∨
    t.main = .exited) (h : (t.file i).flags ≠ .zero) : ¬ mayMove i t := by
  rcases hm with hm | hm | hm | hm <;> simp [mayMove,hm,h]

/-- The file stays as it is, and its chances only get fewer. -/
theorem mayMove_back {i : Fin n} (hn : s.main.next t.main) (hsel : t.main ≠ .select)
    (hf : (t.file i).flags = (s.file i).flags) (h : mayMove i t) : mayMove i s := by
  by_cases hz : (s.file i).flags = .zero
  · exact mayMove_of_zero hz
  · have hzt : (t.file i).flags ≠ .zero := by rwa [hf]
    cases ht : t.main with
    | scan k =>
      simp only [mayMove,ht,hzt,or_false] at h
      cases hs : s.main <;> simp only [Main.next,hs,ht,reduceCtorEq,or_false,false_or] at hn
      case select => simp only [mayMove,hs]
      case scan l =>
        have hkl : k = l+1 := by simpa using hn
        simp only [mayMove,hs]
        left
        omega
      all_goals simp at hn
    | select => exact absurd ht hsel
    | _ =>
      simp only [mayMove,ht] at h
      exact absurd h hzt

/-- A file that moves may not move again before the next call of `select`. -/
theorem moved_step {i : Fin n} (hi : Inv maxnconn s) (h : step maxnconn s a = some t) :
    moved i s t = 0 ∧ (t.file i).flags = (s.file i).flags ∨
      moved i s t = 1 ∧ mayMove i s ∧ ¬ mayMove i t := by
  have hnext := step_next h
  cases step_fileStep hi h i with
  | stay _ hf => exact Or.inl ⟨if_pos (by rw [hf]),by rw [hf]⟩
  | failed _ _ hs ht => exact Or.inl ⟨if_pos (by rw [hs,ht]),by rw [hs,ht]⟩
  | connecting _ hm hs ht | connected _ hm hs ht =>
    simp only [Main.next,hm] at hnext
    refine Or.inr ⟨if_neg (by simp [hs,ht]),mayMove_of_zero hs,not_mayMove ?_ (by simp [ht])⟩
    exact Or.inr (Or.inr hnext)
  | request _ hm hs ht | finish _ hm hs ht =>
    simp only [Main.next,hm] at hnext
    refine Or.inr ⟨if_neg (by simp [hs,ht]),by simp [mayMove,hm],not_mayMove ?_ (by simp [ht])⟩
    tauto

theorem movesUntil_select_le {i : Fin n} (hi : Inv maxnconn s) (as : List Answers) :
    movesUntil .select maxnconn i s as ≤ if mayMove i s then 1 else 0 := by
  induction as generalizing s with
  | nil => simp [movesUntil]
  | cons a as ih =>
    cases h : step maxnconn s a with
    | none => simp [movesUntil,h]
    | some t =>
      have hrest := ih (step_inv hi h)
      simp only [movesUntil,h]
      rcases moved_step (i := i) hi h with ⟨h0,hf⟩ | ⟨h1,hs,ht⟩
      · by_cases hsel : t.main = .select
        · simp [h0,hsel]
        · have hback := mayMove_back (step_next h) hsel hf
          simp only [h0,hsel,if_false,Nat.zero_add]
          by_cases ht : mayMove i t
          · rw [if_pos ht] at hrest
            rwa [if_pos (hback ht)]
          · rw [if_neg ht] at hrest
            omega
      · rw [if_neg ht] at hrest
        rw [h1,if_pos hs]
        split_ifs <;> omega

end Passes

/-- In every run `f_flags` moves forward only and once between two calls of `select`,
and a file is started, asked for and closed once each, in this order; all of it has
happened to every file when the outer loop ends. -/
theorem web_lifecycle (n : ℕ) (maxnconn : ℤ) (name : Fin n → List UInt8) (opened : Finset ℤ)
    (s : State n) (h : Reachable (step maxnconn) (init name opened) s) (i : Fin n) :
    (∀ a t, step maxnconn s a = some t → (t.file i).flags = (s.file i).flags ∨
      ((s.file i).flags,(t.file i).flags) ∈ Flags.moves) ∧
    (∀ as, movesUntil .select maxnconn i s as ≤ 1) ∧
    phases i s.log <+: [.startConnect,.writeGetCmd,.close] ∧
    (s.main = .returned → phases i s.log = [.startConnect,.writeGetCmd,.close]) := by
  have hi := reachable_inv h
  have htold := reachable_told h i
  refine ⟨?_,?_,?_,?_⟩
  · intro a t ht
    exact (step_fileStep hi ht i).moves
  · intro as
    refine (movesUntil_select_le hi as).trans ?_
    split_ifs <;> omega
  · rcases htold with htold | ⟨-,-,htold⟩
    · rw [htold]
      cases (s.file i).flags <;> simp [Flags.phases]
    · rw [htold]
      simp
  · intro hm
    have hplace := hi.place
    have hleft := hi.tables.nlefttoread
    simp only [Place,hm] at hplace
    have hdone := count_eq_zero_iff.mp (show count File.Left s.file = 0 by omega) i
    have hflags : (s.file i).flags = .done := not_not.mp hdone
    rw [htold.resolve_right (by simp [hm]),hflags]
    rfl

theorem web_lifecycle_sample : ∃ s : State 2,
    Reachable (step 1) (init (fun _ => ascii "/a.html") {0,1,2}) s ∧ s.main = .returned ∧
      ∀ i, phases i s.log = [.startConnect,.writeGetCmd,.close] := by
  obtain ⟨s,hs,hp⟩ := exists_reachable (step 1)
    (init (fun _ : Fin 2 => ascii "/a.html") {0,1,2}) (List.replicate 20 prompt)
    (fun s => decide (s.main = .returned)) (by decide +kernel)
  have hret : s.main = .returned := of_decide_eq_true hp
  exact ⟨s,hs,hret,fun i => (web_lifecycle 2 1 _ _ s hs i).2.2.2 hret⟩

/-- One iteration of the outer loop, from its head to its head: `connect` is in progress before
`select`, and established behind it. -/
theorem two_moves_in_iteration :
    (init (fun _ : Fin 1 => ascii "/a.html") {0,1,2}).main = .outer ∧
    movesUntil .outer 1 0 (init (fun _ : Fin 1 => ascii "/a.html") {0,1,2})
      (List.replicate 8 { prompt with connect := .inProgress, select := .ready ∅ {3} }) = 2 := by
  decide +kernel

end Web
end CPrograming
