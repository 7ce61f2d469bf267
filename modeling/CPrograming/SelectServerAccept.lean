import CPrograming.SelectServerTable

/-!
# What `select_server.c` does with the result of `accept`

The server puts the result of `accept` into its table and its set without a look at it.
A result that is not a bit of the set takes it out of the defined behaviour at once, and
nothing else does.
-/

namespace CPrograming
namespace SelectServer

open Runs Keys EchoServer

variable {size : ℕ}

def AllUsable (size : ℕ) (log : List (Event Selected)) : Prop :=
  ∀ fd, .accept fd ∈ log → inSet size fd

/-- The call of `accept` led to no use of a set or of the table outside its bounds, and if
the connection is not in the table then nothing that keeps track of connections has
changed. -/
structure Robust (fd : ℤ) (s t : State size) : Prop where
  defined : t.main ≠ .undefined
  untracked : fd ∉ t.clients →
    t.client = s.client ∧ t.allset = s.allset ∧ t.maxi = s.maxi ∧ t.maxfd = s.maxfd

section Steps

variable {s t : State size} {a : Answers} {fd : ℤ}

theorem AllUsable.append {log es : List (Event Selected)} (h : AllUsable size log)
    (hes : ∀ fd, .accept fd ∉ es) : AllUsable size (log ++ es) := by
  intro fd hfd
  rcases List.mem_append.mp hfd with hfd | hfd
  · exact h fd hfd
  · exact absurd hfd (hes fd)

theorem Visit.allUsable {i : Fin size} (h : Visit s i a t) (hs : AllUsable size s.log) :
    AllUsable size t.log := by
  cases h with
  | free => exact hs
  | outside | idle | closed | echoed => exact hs.append (by simp)

theorem accept_undefined (hout : ¬ inSet size fd) : (s.accept fd).main = .undefined := by
  simp only [State.accept,if_neg hout]

theorem accept_mem_log (s : State size) (fd : ℤ) : .accept fd ∈ (s.accept fd).log := by
  simp only [State.accept]
  split_ifs <;> simp

theorem AllUsable.accept (h : AllUsable size s.log) (hin : inSet size fd) :
    AllUsable size (s.accept fd).log := by
  intro x hx
  simp only [State.accept,if_pos hin,List.mem_append,List.mem_cons,List.not_mem_nil,or_false] at hx
  rcases hx with hx | hx | hx | hx
  · exact h x hx
  · cases hx
  · cases hx
    exact hin
  · cases hx

theorem Table.accept_tracked (h : Table s) (fd : ℤ) (hneg : fd ≠ -1) :
    fd ∈ (s.accept fd).clients := by
  obtain ⟨i,hslot,-⟩ := h.exists_slot
  rw [mem_clients]
  refine ⟨i,?_⟩
  simp only [State.accept,hslot,Option.elim_some]
  split_ifs <;> simp [hneg]

theorem Table.robust_iff (h : Table s) (hok : acceptable s.opened fd) :
    Robust fd s (s.accept fd) ↔ SelectServer.inSet size fd := by
  constructor
  · intro hrobust
    by_contra hout
    exact hrobust.defined (accept_undefined hout)
  · intro hin
    have hneg : fd ≠ -1 := by
      have := hin.1
      omega
    have hnew : fd ∉ s.opened := (hok.resolve_left hneg).2
    exact ⟨(h.accept hin hnew).defined,fun hno => absurd (h.accept_tracked fd hneg) hno⟩

end Steps

section Runs

variable {base : FdSet} {serve : ℤ} {buffer : Memory UInt8} {t : State size}

/-- Either the table is in order, or the server has left the defined behaviour and an unusable
descriptor is the reason. -/
def Accounted (size : ℕ) (serve : ℤ) (t : State size) : Prop :=
  (Table t ∧ inSet size serve ∧ AllUsable size t.log) ∨
    (t.main = .undefined ∧ ¬ (inSet size serve ∧ AllUsable size t.log))

theorem Accounted.step {s : State size} {a : Answers} (h : Accounted size serve s)
    (hstep : step s a = some t) : Accounted size serve t := by
  rcases h with ⟨htable,hin,hall⟩ | ⟨hmain,-⟩
  · cases step_cases hstep with
    | wait => exact Or.inl ⟨htable.wait a.select,hin,hall.append (by simp)⟩
    | visit i _ hvisit => exact Or.inl ⟨htable.visit hvisit,hin,hvisit.allUsable hall⟩
    | beyond i _ hle hout => exact absurd (hle.trans_lt htable.maxi_lt) (not_lt.mpr hout)
    | finish => exact Or.inl ⟨htable.goto (by simp),hin,hall⟩
    | accept _ hok =>
      by_cases hfd : inSet size a.accept
      · exact Or.inl ⟨htable.accept hfd (Usable.not_mem hfd hok),hin,hall.accept hfd⟩
      · exact Or.inr ⟨accept_undefined hfd,fun hno => hfd (hno.2 _ (accept_mem_log s a.accept))⟩
  · simp [SelectServer.step,hmain] at hstep

theorem reachable_accounted (hserve : inSet size serve → serve ∈ base)
    (hrun : Reachable step (start size base serve buffer) t) : Accounted size serve t := by
  refine hrun.invariant (I := Accounted size serve) ?_ fun _ _ _ hx hxy => hx.step hxy
  by_cases hin : inSet size serve
  · exact Or.inl ⟨Table.start buffer (hserve hin) hin,hin,by simp [AllUsable,start]⟩
  · exact Or.inr ⟨by simp [start,hin],fun h => hin h.1⟩

/-- In every run the server stays within the bounds of its sets and its table exactly as
long as the listening socket and every result of `accept` are descriptors that the sets
can hold, and a call of `accept` is handled as it should be exactly if its result is one. -/
theorem accept_robust_iff (hserve : inSet size serve → serve ∈ base)
    (hrun : Reachable step (start size base serve buffer) t) :
    (t.main ≠ .undefined ↔ inSet size serve ∧ AllUsable size t.log) ∧
      ∀ a u, t.main = .accepting → step t a = some u →
        (Robust a.accept t u ↔ inSet size a.accept) := by
  rcases reachable_accounted hserve hrun with ⟨htable,hin,hall⟩ | ⟨hmain,hbad⟩
  · refine ⟨by simp [htable.defined,hin,hall],?_⟩
    intro a u hacc hstep
    simp only [step,hacc] at hstep
    split_ifs at hstep with hok
    cases hstep
    exact htable.robust_iff hok
  · refine ⟨by simp [hmain,hbad],?_⟩
    intro a u hacc
    rw [hmain] at hacc
    cases hacc

end Runs

/-- The first connection gets descriptor 4. -/
theorem accept_robust_first : ∃ t : State 1024,
    Reachable step (start 1024 {3} 3 fun _ => 0) t ∧ t.main = .accepting ∧
      Robust 4 t (t.accept 4) := by
  obtain ⟨t,hrun,ht⟩ := exists_reachable step (start 1024 {3} 3 fun _ => 0)
    [.ready {3} 4 (.data [])] (fun t => t.main = .accepting && acceptable t.opened 4)
    (by decide +kernel)
  simp only [Bool.and_eq_true,decide_eq_true_eq] at ht
  obtain ⟨hmain,hok⟩ := ht
  have hstep : step t (.ready {3} 4 (.data [])) = some (t.accept 4) := by
    simp [step,hmain,Answers.ready,hok]
  exact ⟨t,hrun,hmain,((accept_robust_iff (by decide) hrun).2 _ _ hmain hstep).mpr (by decide)⟩

/-- The first call of `accept` fails; or it gives the first descriptor that is too large,
which is put into the table before the set is overrun. -/
theorem accept_unusable :
    ((exec step (start 1024 {3} 3 fun _ => 0)
      [.ready {3} (-1) (.data []),.ready {3} (-1) (.data [])]).map State.main =
        some .undefined) ∧
      (exec step (start 1024 {3} 3 fun _ => 0)
        [.ready {3} 1024 (.data []),.ready {3} 1024 (.data [])]).map
          (fun t => (t.main,t.client 0)) = some (.undefined,1024) := by
  decide +kernel

end SelectServer
end CPrograming
