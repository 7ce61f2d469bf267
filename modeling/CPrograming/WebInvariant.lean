import CPrograming.Web

/-!
# Invariants of the non-blocking web client

The counters are numbers of files and the descriptor sets are the descriptors of
files, at every place of `main`: `Tables` says so with one file more when a
connection has been started and not yet counted. A step moves one file, and each
of the three moves of a file keeps the tables.
-/

namespace CPrograming
namespace Web

open Runs Counting Keys WebRequest

variable {n : ℕ}

abbrev File.Zero (f : File) : Prop := f.flags = .zero
abbrev File.Connecting (f : File) : Prop := f.flags = .connection
abbrev File.Active (f : File) : Prop := f.flags = .connection ∨ f.flags = .reading
abbrev File.Left (f : File) : Prop := f.flags ≠ .done

/-- The counters and the sets against the files; `due` connections are not yet counted. -/
structure Tables (due : ℤ) (s : State n) : Prop where
  nlefttoconn : s.nlefttoconn = count File.Zero s.file+due
  nconn : s.nconn+due = count File.Active s.file
  nlefttoread : s.nlefttoread = count File.Left s.file
  rset : s.rset = keys File.Active File.fd s.file
  wset : s.wset = keys File.Connecting File.fd s.file
  distinct : Distinct File.Active File.fd s.file
  opened : s.rset ⊆ s.opened
  maxfd : ∀ fd ∈ s.rset, fd ≤ s.maxfd

def Place (maxnconn : ℤ) (s : State n) : Prop :=
  match s.main with
  | .spawn => 0 < s.nlefttoread
  | .find k => (0 < s.nlefttoread ∧ s.nconn < maxnconn) ∧
      ∃ i : Fin n, k ≤ i.val ∧ (s.file i).Zero
  | .start i => (0 < s.nlefttoread ∧ s.nconn < maxnconn) ∧ (s.file i).Zero
  | .select => 0 < s.nlefttoread ∧ ¬ (s.nconn < maxnconn ∧ 0 < s.nlefttoconn)
  | .returned => s.nlefttoread ≤ 0
  | .nothingFound => False
  | .outer | .scan _ | .exited => True

structure Inv (maxnconn : ℤ) (s : State n) : Prop where
  tables : Tables 0 s
  limit : s.nconn ≤ max maxnconn 0
  place : Place maxnconn s

theorem init_inv (maxnconn : ℤ) (name : Fin n → List UInt8) (opened : Finset ℤ) :
    Inv maxnconn (init name opened) where
  tables := by
    have hactive : ∀ i, ¬ ((init name opened).file i).Active := by simp [init,File.Active]
    refine ⟨?_,?_,?_,?_,?_,?_,?_,?_⟩
    · simp [count,init]
    · rw [count_eq_zero_iff.mpr hactive]
      rfl
    · simp [count,init]
    · exact (keys_eq_empty_iff.mpr hactive).symm
    · exact (keys_eq_empty_iff.mpr (by simp [init])).symm
    · intro i hi
      exact absurd hi (hactive i)
    · exact Finset.empty_subset _
    · simp [init]
  limit := le_max_right maxnconn 0
  place := trivial

section Tables

variable {s : State n} {due : ℤ} {i : Fin n}

theorem Tables.frame (h : Tables due s) (m : Main n) (log : List (Event n)) (rs ws : FdSet) :
    Tables due { s with main := m, log := log, rs := rs, ws := ws } := by
  obtain ⟨h1,h2,h3,h4,h5,h6,h7,h8⟩ := h
  exact ⟨h1,h2,h3,h4,h5,h6,h7,h8⟩

theorem Tables.left_split (h : Tables due s) : s.nlefttoread = s.nlefttoconn+s.nconn := by
  have hsplit : count File.Left s.file = count File.Zero s.file+count File.Active s.file := by
    apply count_split
    · intro j
      cases hf : (s.file j).flags <;> simp [File.Left,File.Zero,File.Active,hf]
    · rintro j hz (ha | ha) <;> simp [File.Zero,ha] at hz
  have h1 := h.nlefttoconn
  have h2 := h.nconn
  have h3 := h.nlefttoread
  omega

theorem Tables.wset_subset (h : Tables due s) : s.wset ⊆ s.rset := by
  rw [h.rset,h.wset]
  exact keys_mono fun f hf => Or.inl hf

theorem Tables.mem_rset (h : Tables due s) (hi : (s.file i).Active) : (s.file i).fd ∈ s.rset := by
  rw [h.rset]
  exact key_mem_keys hi

theorem le_raised_left (maxfd fd : ℤ) : maxfd ≤ raised maxfd fd := by
  simp only [raised]
  split_ifs <;> omega

theorem le_raised_right (maxfd fd : ℤ) : fd ≤ raised maxfd fd := by
  simp only [raised]
  split_ifs <;> omega

/-- Replacing file `i` moves each counter by the weight that the file gains. -/
theorem Tables.update {t : State n} {due' : ℤ} {f : File} (h : Tables due s)
    (hfile : t.file = Function.update s.file i f)
    (h1 : t.nlefttoconn+weight File.Zero (s.file i)+due = s.nlefttoconn+weight File.Zero f+due')
    (h2 : t.nconn+weight File.Active (s.file i)+due' = s.nconn+weight File.Active f+due)
    (h3 : t.nlefttoread+weight File.Left (s.file i) = s.nlefttoread+weight File.Left f)
    (hr : t.rset = keys File.Active File.fd (Function.update s.file i f))
    (hw : t.wset = keys File.Connecting File.fd (Function.update s.file i f))
    (hd : Distinct File.Active File.fd (Function.update s.file i f))
    (ho : t.rset ⊆ t.opened) (hm : ∀ fd ∈ t.rset, fd ≤ t.maxfd) : Tables due' t := by
  have c1 := h.nlefttoconn
  have c2 := h.nconn
  have c3 := h.nlefttoread
  have hz : _ = _ := count_update (p := File.Zero) (f := s.file) i f
  have ha : _ = _ := count_update (p := File.Active) (f := s.file) i f
  have hl : _ = _ := count_update (p := File.Left) (f := s.file) i f
  rw [← hfile] at hr hw hd hz ha hl
  exact ⟨by omega,by omega,by omega,hr,hw,hd,ho,hm⟩

theorem Tables.socket {f : File} (h : Tables due s) (hz : (s.file i).flags = .zero)
    (hf : f.flags = .zero) (fd : ℤ) :
    Tables due { s with file := Function.update s.file i f, opened := insert fd s.opened } := by
  apply h.update rfl
  · simp [weight,File.Zero,hz,hf]
  · simp [weight,File.Active,hz,hf]
  · simp [weight,File.Left,hz,hf]
  · rw [keys_update_same (by simp [File.Active,hz,hf]) (by simp [File.Active,hf]),← h.rset]
  · rw [keys_update_same (by simp [File.Connecting,hz,hf]) (by simp [File.Connecting,hf]),← h.wset]
  · exact h.distinct.update (by simp [File.Active,hf])
  · exact h.opened.trans (Finset.subset_insert _ _)
  · exact h.maxfd

theorem Tables.start {f : File} (h : Tables 0 s) (hz : (s.file i).flags = .zero)
    (hf : f.Active) (hfd : f.fd ∉ s.opened) :
    Tables 1 { s with
      file := Function.update s.file i f, opened := insert f.fd s.opened,
      rset := insert f.fd s.rset,
      wset := if f.flags = .connection then insert f.fd s.wset else s.wset,
      maxfd := raised s.maxfd f.fd } := by
  have hnot : ¬ (s.file i).Active := by simp [File.Active,hz]
  apply h.update rfl
  · rcases hf with hf | hf <;> simp [weight,File.Zero,hz,hf]
  · rcases hf with hf | hf <;> simp [weight,File.Active,hz,hf]
  · rcases hf with hf | hf <;> simp [weight,File.Left,hz,hf]
  · rw [keys_update_insert hnot hf,← h.rset]
  · by_cases hc : f.Connecting
    · rw [if_pos hc,keys_update_insert (by simp [File.Connecting,hz]) hc,← h.wset]
    · rw [if_neg hc,keys_update_same (by simp [File.Connecting,hz,hc]) (fun hp => absurd hp hc),
        ← h.wset]
  · refine h.distinct.update ?_
    intro _ j _ hj hjf
    exact hfd (hjf ▸ h.opened (h.mem_rset hj))
  · exact Finset.insert_subset_insert _ h.opened
  · intro fd hfd
    rcases Finset.mem_insert.mp hfd with rfl | hfd
    · exact le_raised_right _ _
    · exact (h.maxfd fd hfd).trans (le_raised_left _ _)

theorem Tables.established {f : File} (h : Tables due s) (hi : (s.file i).flags = .connection)
    (hf : f.flags = .reading) (hfd : f.fd = (s.file i).fd) :
    Tables due { s with
      file := Function.update s.file i f, rset := insert f.fd s.rset,
      wset := s.wset.erase f.fd, maxfd := raised s.maxfd f.fd } := by
  have hact : (s.file i).Active := Or.inl hi
  have hmem : f.fd ∈ s.rset := hfd ▸ h.mem_rset hact
  have hsame : insert f.fd s.rset = s.rset := Finset.insert_eq_of_mem hmem
  have hconn : Distinct File.Connecting File.fd s.file :=
    h.distinct.mono fun j hj => Or.inl hj
  apply h.update rfl
  · simp [weight,File.Zero,hi,hf]
  · simp [weight,File.Active,hi,hf]
  · simp [weight,File.Left,hi,hf]
  · rw [hsame,keys_update_same (by simp [File.Active,hi,hf]) (fun _ => hfd),← h.rset]
  · rw [keys_update_erase hconn hi (by simp [File.Connecting,hf]),← h.wset,hfd]
  · refine h.distinct.update ?_
    intro _ j hji hj hjf
    exact hji (h.distinct hj hact (hjf.trans hfd))
  · rw [hsame]
    exact h.opened
  · rw [hsame]
    exact fun fd hfd => (h.maxfd fd hfd).trans (le_raised_left _ _)

theorem Tables.finished {f : File} (h : Tables due s) (hi : (s.file i).flags = .reading)
    (hf : f.flags = .done) :
    Tables due { s with
      file := Function.update s.file i f, opened := s.opened.erase (s.file i).fd,
      rset := s.rset.erase (s.file i).fd, nconn := s.nconn-1, nlefttoread := s.nlefttoread-1 } := by
  have hact : (s.file i).Active := Or.inr hi
  apply h.update rfl
  · simp [weight,File.Zero,hi,hf]
  · simp [weight,File.Active,hi,hf]
  · simp [weight,File.Left,hi,hf]
  · rw [keys_update_erase h.distinct hact (by simp [File.Active,hf]),← h.rset]
  · rw [keys_update_same (by simp [File.Connecting,hi,hf]) (by simp [File.Connecting,hf]),← h.wset]
  · exact h.distinct.update (by simp [File.Active,hf])
  · exact Finset.erase_subset_erase _ h.opened
  · intro fd hfd
    exact h.maxfd fd (Finset.mem_of_mem_erase hfd)

end Tables

section Calls

variable {s t : State n} {i : Fin n} {a : Answers}

theorem writeGetCmd_eq (h : writeGetCmd s i a = some t) :
    ∃ log, t = { s with
      file := Function.update s.file i { s.file i with flags := .reading },
      rset := insert (s.file i).fd s.rset, maxfd := raised s.maxfd (s.file i).fd,
      log := log } := by
  simp only [writeGetCmd] at h
  obtain ⟨r,-,rfl⟩ := Option.map_eq_some_iff.mp h
  exact ⟨_,rfl⟩

/-- All that `start_connect` can do: `exit`, or make the file active under a new
descriptor. -/
theorem startConnect_cases (h : startConnect s i a = some t) :
    ∃ fd log, fd ∉ s.opened ∧
      (t = { s with
        file := Function.update s.file i { s.file i with fd := fd },
        opened := insert fd s.opened, main := .exited, log := log } ∨
      ∃ f : File, f.Active ∧ f.fd = fd ∧ t = { s with
        file := Function.update s.file i f, opened := insert fd s.opened,
        rset := insert fd s.rset,
        wset := if f.flags = .connection then insert fd s.wset else s.wset,
        maxfd := raised s.maxfd fd, log := log }) := by
  simp only [startConnect] at h
  split_ifs at h with hfd
  refine ⟨a.socket,t.log,hfd.2.2,?_⟩
  cases hc : a.connect with
  | fail =>
    simp only [hc,Option.some.injEq] at h
    left
    rw [← h]
    rfl
  | inProgress =>
    simp only [hc,Option.some.injEq] at h
    refine Or.inr ⟨⟨(s.file i).name,a.socket,.connection⟩,Or.inl rfl,rfl,?_⟩
    rw [← h]
    simp [State.put,State.record,State.print]
  | connected =>
    simp only [hc] at h
    obtain ⟨log,rfl⟩ := writeGetCmd_eq h
    refine Or.inr ⟨⟨(s.file i).name,a.socket,.reading⟩,Or.inr rfl,rfl,?_⟩
    simp [State.put,State.record,State.print]

/-- All that one round of the loop over the files can do. -/
theorem handle_cases (h : handle s i a = some t) :
    ∃ log, t = { s with log := log } ∨
      ((s.file i).flags = .connection ∧ t = { s with main := .exited, log := log }) ∨
      ((s.file i).flags = .connection ∧ t = { s with
        file := Function.update s.file i { s.file i with flags := .reading },
        rset := insert (s.file i).fd s.rset, wset := s.wset.erase (s.file i).fd,
        maxfd := raised s.maxfd (s.file i).fd, log := log }) ∨
      ((s.file i).flags = .reading ∧ t = { s with
        file := Function.update s.file i { s.file i with flags := .done },
        opened := s.opened.erase (s.file i).fd, rset := s.rset.erase (s.file i).fd,
        nconn := s.nconn-1, nlefttoread := s.nlefttoread-1, log := log }) := by
  simp only [handle] at h
  split_ifs at h with hskip hconn hopt hread heof
  · exact ⟨s.log,Or.inl (Option.some.inj h).symm⟩
  · obtain ⟨log,heq⟩ := writeGetCmd_eq h
    exact ⟨log,Or.inr (Or.inr (Or.inl ⟨hconn.1,heq⟩))⟩
  · exact ⟨_,Or.inr (Or.inl ⟨hconn.1,(Option.some.inj h).symm⟩)⟩
  · exact ⟨_,Or.inr (Or.inr (Or.inr ⟨hread.1,(Option.some.inj h).symm⟩))⟩
  · exact ⟨_,Or.inl (Option.some.inj h).symm⟩
  · exact ⟨s.log,Or.inl (Option.some.inj h).symm⟩

end Calls

section Steps

variable {maxnconn : ℤ} {s t : State n}

theorem Inv.goto {m : Main n} (hi : Inv maxnconn s) (hplace : Place maxnconn (s.goto m)) :
    Inv maxnconn (s.goto m) :=
  ⟨hi.tables.frame m s.log s.rs s.ws,hi.limit,hplace⟩

theorem inv_find {i : ℕ} (hi : Inv maxnconn s) (hm : s.main = .find i) (h : i < n) :
    Inv maxnconn (s.goto
      (if (s.file ⟨i,h⟩).flags = .zero then .start ⟨i,h⟩ else .find (i+1))) := by
  have hplace := hi.place
  simp only [Place,hm] at hplace
  obtain ⟨hlt,j,hj,hz⟩ := hplace
  split_ifs with hzero
  · exact hi.goto ⟨hlt,hzero⟩
  · have hne : j.val ≠ i := by
      rintro rfl
      exact hzero hz
    exact hi.goto ⟨hlt,j,by omega,hz⟩

/-- The search for an unflagged file cannot run off the end. -/
theorem find_bound {i : ℕ} (hi : Inv maxnconn s) (hm : s.main = .find i) : i < n := by
  have hplace := hi.place
  simp only [Place,hm] at hplace
  obtain ⟨-,j,hj,-⟩ := hplace
  exact lt_of_le_of_lt hj j.isLt

theorem inv_spawn (hi : Inv maxnconn s) (hm : s.main = .spawn) :
    Inv maxnconn (s.goto
      (if s.nconn < maxnconn ∧ 0 < s.nlefttoconn then .find 0 else .select)) := by
  have hplace := hi.place
  simp only [Place,hm] at hplace
  split_ifs with h
  · have hz := hi.tables.nlefttoconn
    obtain ⟨i,hzero⟩ := count_pos_iff.mp (show 0 < count File.Zero s.file by omega)
    exact hi.goto ⟨⟨hplace,h.1⟩,i,Nat.zero_le _,hzero⟩
  · exact hi.goto ⟨hplace,h⟩

theorem Tables.counted (h : Tables 1 s) (m : Main n) :
    Tables 0 { s.goto m with nconn := s.nconn+1, nlefttoconn := s.nlefttoconn-1 } := by
  obtain ⟨h1,h2,h3,h4,h5,h6,h7,h8⟩ := h
  exact ⟨by simp [h1,State.goto],by simpa [State.goto] using h2,h3,h4,h5,h6,h7,h8⟩

theorem inv_start {i : Fin n} {a : Answers} (hi : Inv maxnconn s) (hm : s.main = .start i)
    (h : startConnect s i a = some t) :
    Inv maxnconn (t.andThen fun t =>
      { t.goto .spawn with nconn := t.nconn+1, nlefttoconn := t.nlefttoconn-1 }) := by
  have hplace := hi.place
  simp only [Place,hm] at hplace
  obtain ⟨fd,log,hfresh,rfl | ⟨f,hf,rfl,rfl⟩⟩ := startConnect_cases h
  · have htables := hi.tables.socket (f := { s.file i with fd := fd }) hplace.2 hplace.2 fd
    exact ⟨htables.frame .exited log s.rs s.ws,hi.limit,trivial⟩
  · have htables := (hi.tables.start hplace.2 hf hfresh).frame s.main log s.rs s.ws
    simp only [State.andThen,hm,reduceCtorEq,if_false]
    refine ⟨?_,?_,hplace.1.1⟩
    · exact htables.counted .spawn
    · show s.nconn+1 ≤ max maxnconn 0
      have := le_max_left maxnconn 0
      omega

theorem inv_handle {i : Fin n} {a : Answers} (hi : Inv maxnconn s) (k : ℕ) (hm : s.main = .scan k)
    (h : handle s i a = some t) : Inv maxnconn (t.andThen fun t => t.goto (.scan (k+1))) := by
  obtain ⟨log,rfl | ⟨-,rfl⟩ | ⟨hf,rfl⟩ | ⟨hf,rfl⟩⟩ := handle_cases h
  · simp only [State.andThen,hm,reduceCtorEq,if_false]
    exact ⟨hi.tables.frame _ log s.rs s.ws,hi.limit,trivial⟩
  · exact ⟨hi.tables.frame _ log s.rs s.ws,hi.limit,trivial⟩
  · have htables := hi.tables.established (f := { s.file i with flags := .reading }) hf rfl rfl
    simp only [State.andThen,hm,reduceCtorEq,if_false]
    exact ⟨htables.frame _ log s.rs s.ws,hi.limit,trivial⟩
  · have htables := hi.tables.finished (f := { s.file i with flags := .done }) hf rfl
    simp only [State.andThen,hm,reduceCtorEq,if_false]
    refine ⟨htables.frame _ log s.rs s.ws,?_,trivial⟩
    show s.nconn-1 ≤ max maxnconn 0
    have := hi.limit
    omega

theorem step_inv {a : Answers} (hi : Inv maxnconn s) (h : step maxnconn s a = some t) :
    Inv maxnconn t := by
  cases step_cases h with
  | outer hm =>
    split_ifs with hleft
    · exact hi.goto hleft
    · exact hi.goto (not_lt.mp hleft)
  | spawn hm => exact inv_spawn hi hm
  | find i hm => exact inv_find hi hm i.isLt
  | missing i hm hn => exact absurd (find_bound hi hm) (not_lt.mpr hn)
  | start i hm hu => exact inv_start hi hm hu
  | select hm => exact ⟨hi.tables.frame _ _ _ _,hi.limit,trivial⟩
  | scan i hm hu => exact inv_handle hi i hm hu
  | pass i hm hn => exact hi.goto trivial

/-- Every state of every run satisfies the invariant. -/
theorem reachable_inv {name : Fin n → List UInt8} {opened : Finset ℤ}
    (h : Reachable (step maxnconn) (init name opened) t) : Inv maxnconn t :=
  h.invariant (init_inv maxnconn name opened) fun _ _ _ hi hs => step_inv hi hs

end Steps

end Web
end CPrograming
