import CPrograming.WebSelect

/-!
# The rounds of the non-blocking web client

`select` blocks until a descriptor is ready. Each round then deals with at least one file: its
connection is made, its peer has closed it, or more of it has come. So the client does not go
round in vain, and it needs no more rounds than there are files, connections and pieces of data.
-/

namespace CPrograming
namespace Web

open Runs Counting Keys WebRequest

variable {n : ℕ} {maxnconn : ℤ} {s t : State n} {i : Fin n} {a : Answers}

/-- `select` returns when a descriptor is ready, or fails. -/
def reports (s : State n) (a : Answers) : Prop :=
  s.main = .select → a.select.rset s.rset ≠ ∅ ∨ a.select.wset s.wset ≠ ∅

instance (s : State n) (a : Answers) : Decidable (reports s a) :=
  inferInstanceAs (Decidable (_ → _))

def Event.dataRead : Event n → Bool
  | .read _ _ got => got.ret ≠ 0
  | _ => false

def dataReads (log : List (Event n)) : ℕ := log.countP Event.dataRead

section Ready

def Ready (s : State n) (i : Fin n) : Prop :=
  (s.file i).flags = .connection ∧ ((s.file i).fd ∈ s.rs ∨ (s.file i).fd ∈ s.ws) ∨
    (s.file i).flags = .reading ∧ (s.file i).fd ∈ s.rs

instance (s : State n) (i : Fin n) : Decidable (Ready s i) :=
  inferInstanceAs (Decidable (_ ∧ _ ∨ _ ∧ _))

def Ahead (k : ℕ) (s : State n) : Prop := ∃ j : Fin n, k ≤ j.val ∧ Ready s j

instance (k : ℕ) (s : State n) : Decidable (Ahead k s) :=
  inferInstanceAs (Decidable (∃ _ : Fin n, _))

theorem Tables.ahead {due : ℤ} (h : Tables due s) (hrs : s.rs ⊆ s.rset) (hws : s.ws ⊆ s.wset)
    (hsome : s.rs ≠ ∅ ∨ s.ws ≠ ∅) : Ahead 0 s := by
  rcases hsome with hsome | hsome
  · obtain ⟨fd,hfd⟩ := Finset.nonempty_iff_ne_empty.mpr hsome
    have hkey := hrs hfd
    rw [h.rset,mem_keys] at hkey
    obtain ⟨j,hactive,rfl⟩ := hkey
    rcases hactive with hflags | hflags
    · exact ⟨j,Nat.zero_le _,Or.inl ⟨hflags,Or.inl hfd⟩⟩
    · exact ⟨j,Nat.zero_le _,Or.inr ⟨hflags,hfd⟩⟩
  · obtain ⟨fd,hfd⟩ := Finset.nonempty_iff_ne_empty.mpr hsome
    have hkey := hws hfd
    rw [h.wset,mem_keys] at hkey
    obtain ⟨j,hflags,rfl⟩ := hkey
    exact ⟨j,Nat.zero_le _,Or.inl ⟨hflags,Or.inr hfd⟩⟩

theorem ahead_succ (hready : ¬ Ready s i) : Ahead i s ↔ Ahead (i+1) s := by
  constructor
  · rintro ⟨j,hj,hr⟩
    refine ⟨j,?_,hr⟩
    by_contra hlt
    obtain rfl : i = j := Fin.ext (by omega)
    exact hready hr
  · rintro ⟨j,hj,hr⟩
    exact ⟨j,by omega,hr⟩

end Ready

section Worth

/-- What is left to be done for a file: rounds for its connection and its end, and the search
that finds it. -/
def Flags.worth (n : ℕ) : Flags → ℕ
  | .zero => 3*n+10
  | .connection => 2*n+8
  | .reading => n+4
  | .done => 0

/-- What is left of a round; a round that has dealt with a file has earned the next one. -/
def State.pos (s : State n) : ℕ :=
  match s.main with
  | .outer => n+4
  | .spawn => n+3
  | .find k => n+2-k
  | .start _ => 2
  | .select => n+2
  | .scan k => (n-k)+1+(if Ahead k s then 0 else n+4)
  | .returned | .exited | .nothingFound => 0

def rank (s : State n) : ℕ := s.pos+∑ i, (s.file i).flags.worth n

def gain (s : State n) : ℕ := (n+4)*dataReads s.log

theorem rank_update {f : File} (hfile : t.file = Function.update s.file i f)
    (h : t.pos+f.flags.worth n+1+gain s ≤ s.pos+(s.file i).flags.worth n+gain t) :
    rank t+1+gain s ≤ rank s+gain t := by
  have hsum := sum_update (f := s.file) (fun f => f.flags.worth n) i f
  simp only [rank,hfile]
  omega

theorem rank_goto (hfile : t.file = s.file) (hgain : gain t = gain s) (hpos : t.pos < s.pos) :
    rank t+1+gain s ≤ rank s+gain t := by
  simp only [rank,hfile,hgain]
  omega

theorem gain_of_reads (h : dataReads t.log = dataReads s.log) : gain t = gain s := by
  rw [gain,h,gain]

theorem writeGetCmd_reads (h : writeGetCmd s i a = some t) :
    dataReads t.log = dataReads s.log := by
  simp only [writeGetCmd] at h
  obtain ⟨r,-,rfl⟩ := Option.map_eq_some_iff.mp h
  simp [dataReads,State.put,State.print,State.record,Event.dataRead]

theorem startConnect_reads (h : startConnect s i a = some t) :
    dataReads t.log = dataReads s.log := by
  simp only [startConnect] at h
  split_ifs at h
  cases hc : a.connect with
  | fail | inProgress =>
    simp only [hc,Option.some.injEq] at h
    subst t
    simp [dataReads,State.put,State.print,State.record,State.goto,Event.dataRead]
  | connected =>
    simp only [hc] at h
    rw [writeGetCmd_reads h]
    simp [dataReads,State.put,State.print,State.record,Event.dataRead]

/-- One round of the loop over the files: nothing happens to a file that is not ready, and a
file that is ready earns a round. -/
theorem handle_earns (h : handle s i a = some t) :
    (¬ Ready s i ∧ t = s) ∨
    (t.main = .exited ∧ t.file = s.file ∧ dataReads t.log = dataReads s.log) ∨
    (t.main = s.main ∧ t.rs = s.rs ∧ t.ws = s.ws ∧ ∃ f, t.file = Function.update s.file i f ∧
      f.flags.worth n+(n+4)+gain s ≤ (s.file i).flags.worth n+gain t) := by
  simp only [handle] at h
  split_ifs at h with hskip hconn hopt hread heof
  · left
    refine ⟨?_,(Option.some.inj h).symm⟩
    rintro (⟨hf,-⟩ | ⟨hf,-⟩) <;> simp [hf] at hskip
  · right; right
    have hgain : gain t = gain s := by
      apply gain_of_reads
      rw [writeGetCmd_reads h]
      simp [dataReads,State.print,State.record,Event.dataRead]
    obtain ⟨log,heq⟩ := writeGetCmd_eq h
    rw [heq] at hgain ⊢
    refine ⟨rfl,rfl,rfl,_,rfl,?_⟩
    rw [hgain]
    change Flags.worth n .reading+(n+4)+gain s ≤ _
    simp only [hconn.1,Flags.worth]
    omega
  · right; left
    obtain rfl := Option.some.inj h
    refine ⟨rfl,rfl,?_⟩
    simp [dataReads,State.goto,State.print,State.record,Event.dataRead]
  · right; right
    obtain rfl := Option.some.inj h
    refine ⟨rfl,rfl,rfl,_,rfl,?_⟩
    simp [gain,dataReads,State.put,State.print,State.record,Event.dataRead,heof,hread.1,
      Flags.worth]
  · right; right
    obtain rfl := Option.some.inj h
    refine ⟨rfl,rfl,rfl,s.file i,(Function.update_eq_self i s.file).symm,?_⟩
    simp [gain,dataReads,State.print,State.record,Event.dataRead,heof,Nat.mul_add]
    omega
  · left
    refine ⟨?_,(Option.some.inj h).symm⟩
    rintro (hr | hr)
    · exact hconn hr
    · exact hread hr

theorem pos_scan_le {k : ℕ} (hm : t.main = .scan k) : t.pos ≤ (n-k)+1+(n+4) := by
  simp only [State.pos,hm]
  by_cases hahead : Ahead k t
  · simp [hahead]
  · simp [hahead]

theorem Inv.start_lowers {u : State n} (hi : Inv maxnconn s) (hm : s.main = .start i)
    (hu : startConnect s i a = some u) (ht : t = u.andThen fun t => { t.goto .spawn with
      nconn := t.nconn+1, nlefttoconn := t.nlefttoconn-1 }) :
    rank t+1+gain s ≤ rank s+gain t := by
  have hplace := hi.place
  simp only [Place,hm] at hplace
  have hzero : (s.file i).flags = .zero := hplace.2
  have hreads := startConnect_reads hu
  have hpos : s.pos = 2 := by simp only [State.pos,hm]
  obtain ⟨fd,log,-,rfl | ⟨f,hactive,-,rfl⟩⟩ := startConnect_cases hu
  · simp only [State.andThen,if_true] at ht
    have hgain : gain t = gain s := gain_of_reads (by rw [ht,hreads])
    refine rank_update (by rw [ht]) ?_
    rw [hgain,hpos,ht]
    simp only [State.pos]
    omega
  · simp only [State.andThen,hm,reduceCtorEq,if_false] at ht
    have hgain : gain t = gain s := gain_of_reads (by rw [ht]; exact hreads)
    refine rank_update (f := f) (by rw [ht]; rfl) ?_
    rw [hgain,hpos,hzero,ht]
    rcases hactive with hf | hf
    · simp only [State.pos,State.goto,hf,Flags.worth]
      omega
    · simp only [State.pos,State.goto,hf,Flags.worth]
      omega

theorem handle_lowers {u : State n} (hm : s.main = .scan i) (hu : handle s i a = some u)
    (ht : t = u.andThen fun t => t.goto (.scan (i+1))) :
    rank t+1+gain s ≤ rank s+gain t := by
  have hlt := i.isLt
  rcases handle_earns hu with ⟨hready,rfl⟩ | ⟨hexit,hfile,hreads⟩ | ⟨hmain,hrs,hws,f,hfile,hworth⟩
  · simp only [State.andThen,hm,reduceCtorEq,if_false] at ht
    subst t
    refine rank_goto rfl rfl ?_
    have hahead : Ahead (i+1) (u.goto (.scan (i+1))) ↔ Ahead i u := (ahead_succ hready).symm
    simp only [State.pos,State.goto,hm] at hahead ⊢
    simp only [hahead]
    omega
  · simp only [State.andThen,hexit,if_true] at ht
    subst t
    refine rank_goto hfile (gain_of_reads hreads) ?_
    simp only [State.pos,hexit,hm]
    omega
  · simp only [State.andThen,hmain,hm,reduceCtorEq,if_false] at ht
    have hgain : gain t = gain u := by rw [ht]; rfl
    refine rank_update (by rw [ht]; exact hfile) ?_
    rw [hgain]
    have hpos : t.pos ≤ (n-(i+1))+1+(n+4) := pos_scan_le (by rw [ht]; rfl)
    have hpos' : (n-i)+1 ≤ s.pos := by
      simp only [State.pos,hm]
      omega
    omega

/-- Every step lowers the rank, up to the data that it reads. -/
theorem Inv.lowers (hi : Inv maxnconn s) (hreports : reports s a)
    (h : step maxnconn s a = some t) : rank t+1+gain s ≤ rank s+gain t := by
  cases step_cases h with
  | outer hm | spawn hm =>
    refine rank_goto rfl rfl ?_
    simp only [State.pos,State.goto,hm]
    split_ifs <;> simp only <;> omega
  | find i hm =>
    have hlt := i.isLt
    refine rank_goto rfl rfl ?_
    simp only [State.pos,State.goto,hm]
    split_ifs <;> simp only <;> omega
  | missing i hm hn => exact absurd (find_bound hi hm) (not_lt.mpr hn)
  | start i hm hu => exact hi.start_lowers hm hu rfl
  | select hm =>
    refine rank_goto rfl (gain_of_reads ?_) ?_
    · simp [dataReads,State.record,State.goto,Event.dataRead]
    · have htables := hi.tables.frame (.scan 0) (s.log ++ [.select (s.maxfd+1) s.rset s.wset])
        (a.select.rset s.rset) (a.select.wset s.wset)
      have hahead := htables.ahead (a.select.rset_subset s.rset) (a.select.wset_subset s.wset)
        (hreports hm)
      simp only [State.pos,State.record,State.goto,hm]
      rw [if_pos hahead]
      omega
  | scan i hm hu => exact handle_lowers hm hu rfl
  | pass k hm hn =>
    refine rank_goto rfl rfl ?_
    have hnone : ¬ Ahead k s := by
      rintro ⟨j,hj,-⟩
      have hlt := j.isLt
      omega
    simp only [State.pos,State.goto,hm,if_neg hnone]
    omega

end Worth

section Going

theorem writeGetCmd_isSome (hwrite : a.write = [.fail .other]) : (writeGetCmd s i a).isSome := by
  simp only [writeGetCmd,sendRequest,SocketFunc.written,Option.isSome_map,hwrite]
  rw [SocketFunc.writtenLoop]
  split_ifs <;> simp [WriteAnswer.upTo]

/-- Answers for every place: `socket` gives `fd`, the connection is under way, every watched
descriptor is ready, and the peer closes. -/
def obliging (fd : ℤ) : Answers where
  socket := fd
  connect := .inProgress
  write := [.fail .other]
  line := fun _ => 0
  select := .fail
  sockopt := true
  read := .data []

theorem startConnect_isSome (hconnect : a.connect = .inProgress)
    (hfd : 0 ≤ a.socket ∧ a.socket < fdSetsize ∧ a.socket ∉ s.opened) :
    (startConnect s i a).isSome := by
  simp only [startConnect,if_pos hfd,hconnect,Option.isSome_some]

theorem handle_isSome (hwrite : a.write = [.fail .other]) : (handle s i a).isSome := by
  simp only [handle]
  split_ifs
  · rfl
  · exact writeGetCmd_isSome hwrite
  · rfl
  · rfl
  · rfl
  · rfl

/-- As long as `main` has not come to an end there are answers with which it goes on. -/
theorem Inv.goes {fd : ℤ} (hi : Inv maxnconn s) (hmax : 1 ≤ maxnconn)
    (hreturned : s.main ≠ .returned) (hexited : s.main ≠ .exited)
    (hfd : 0 ≤ fd ∧ fd < fdSetsize ∧ fd ∉ s.opened) :
    ∃ t, restrict reports (step maxnconn) s (obliging fd) = some t := by
  have hreports : reports s (obliging fd) := by
    intro hm
    left
    intro hempty
    have hplace := hi.place
    simp only [Place,hm] at hplace
    have hw : s.wset = ∅ := Finset.subset_empty.mp (hempty ▸ hi.tables.wset_subset)
    have hlimit := Hung.limit hi ⟨hm,hempty,hw,hplace.1⟩
    omega
  have hstep : ∃ t, step maxnconn s (obliging fd) = some t := by
    apply Option.isSome_iff_exists.mp
    have hplace := hi.place
    simp only [step]
    cases hm : s.main with
    | outer | spawn | select => rfl
    | find k =>
      simp only
      split_ifs <;> rfl
    | start i => simpa using startConnect_isSome (s := s) (i := i) (a := obliging fd) rfl hfd
    | scan k =>
      simp only
      split_ifs with hk
      · simpa using handle_isSome (s := s) (i := ⟨k,hk⟩) (a := obliging fd) rfl
      · rfl
    | returned => exact absurd hm hreturned
    | exited => exact absurd hm hexited
    | nothingFound => simp [Place,hm] at hplace
  obtain ⟨t,ht⟩ := hstep
  exact ⟨t,restrict_eq_some.mpr ⟨hreports,ht⟩⟩

theorem rank_init (name : Fin n → List UInt8) (opened : Finset ℤ) :
    rank (init name opened) = (n+4)+n*(3*n+10) := by
  simp [rank,State.pos,init,Flags.worth]

/-- A run in which `select` does not return for nothing has a bounded number of steps, given how
often data comes. Until `main` has returned or exited it is never without a next step, if at
least one connection is allowed and a descriptor is free. -/
theorem web_ends (n : ℕ) (maxnconn : ℤ) (name : Fin n → List UInt8) (opened : Finset ℤ)
    (as : List Answers) (s : State n)
    (h : exec (restrict reports (step maxnconn)) (init name opened) as = some s) :
    as.length ≤ (n+4)+n*(3*n+10)+(n+4)*s.log.countP Event.dataRead ∧
    (1 ≤ maxnconn → s.main ≠ .returned → s.main ≠ .exited →
      (∃ fd, 0 ≤ fd ∧ fd < fdSetsize ∧ fd ∉ s.opened) →
      ∃ a t, restrict reports (step maxnconn) s a = some t) := by
  refine ⟨?_,?_⟩
  · have hgains := exec_gains (I := Inv maxnconn) rank gain ?_ (init_inv maxnconn name opened) h
    · rw [rank_init] at hgains
      have hnone : gain (init name opened) = 0 := rfl
      have hgain : gain s = (n+4)*s.log.countP Event.dataRead := rfl
      omega
    · intro x a y hx hxy
      obtain ⟨hreports,hxy⟩ := restrict_eq_some.mp hxy
      exact ⟨step_inv hx hxy,hx.lowers hreports hxy⟩
  · rintro hmax hreturned hexited ⟨fd,hfd⟩
    have hi := reachable_inv (reachable_of_exec h).of_restrict
    obtain ⟨t,ht⟩ := hi.goes hmax hreturned hexited hfd
    exact ⟨obliging fd,t,ht⟩

/-- One file: it is asked for, the peer closes, and `main` returns. -/
theorem web_ends_one : ∃ s : State 1,
    exec (restrict reports (step 1)) (init (fun _ => ascii "/a.html") {0,1,2})
      (List.replicate 9 prompt) = some s ∧
    s.main = .returned ∧ 9 ≤ (1+4)+1*(3*1+10)+(1+4)*s.log.countP Event.dataRead := by
  obtain ⟨s,hs,hmain⟩ := Option.map_eq_some_iff.mp (show (exec (restrict reports (step 1))
    (init (fun _ : Fin 1 => ascii "/a.html") {0,1,2}) (List.replicate 9 prompt)).map
      (fun s => decide (s.main = .returned)) = some true by decide +kernel)
  exact ⟨s,hs,of_decide_eq_true hmain,(web_ends 1 1 _ _ _ s hs).1⟩

end Going

end Web
end CPrograming
