import CPrograming.WebLifecycle

/-!
# What is sent before a file is read

`write_get_cmd` hands the request to `written` and sets `F_READING` whatever comes
back. The sockets are non-blocking, so `written` can give up in the middle of the
request. The results say which answers of the kernel let a file be read only after
its whole request was sent.
-/

namespace CPrograming
namespace Web

open Runs SocketFunc WebRequest

variable {n : ℕ}

def Event.request (fd : ℤ) : Event n → List UInt8
  | .writeGetCmd _ fd' sent => if fd' = fd then sent else []
  | _ => []

/-- What has been written to descriptor `fd` for file `i`. -/
def requestBytes (i : Fin n) (fd : ℤ) (log : List (Event n)) : List UInt8 :=
  (callsFor i log).flatMap (Event.request fd)

theorem requestBytes_eq_nil {i : Fin n} {log : List (Event n)}
    (h : Phase.writeGetCmd ∉ phases i log) (fd : ℤ) : requestBytes i fd log = [] := by
  rw [requestBytes,List.flatMap_eq_nil_iff]
  intro e he
  cases e with
  | writeGetCmd j fd' sent =>
    have hmem : Phase.writeGetCmd ∈ phases i log := List.mem_filterMap.mpr ⟨_,he,rfl⟩
    exact absurd hmem h
  | _ => rfl

section Steps

variable {maxnconn : ℤ} {s t : State n} {a : Answers} {i : Fin n}

theorem Told.requestBytes (h : Told s i)
    (hs : (s.file i).flags = .zero ∨ (s.file i).flags = .connection) (fd : ℤ) :
    requestBytes i fd s.log = [] := by
  apply requestBytes_eq_nil
  rcases h with hphases | ⟨-,-,hphases⟩
  · rcases hs with hs | hs <;> simp [hphases,hs,Flags.phases]
  · simp [hphases]

theorem Touches.requestBytes {es : List (Event n)} (h : Touches s t i es) (fd : ℤ) :
    requestBytes i fd t.log = requestBytes i fd s.log ++ es.flatMap (Event.request fd) := by
  simp only [Web.requestBytes,h.own,List.flatMap_append]

/-- Only the call of `write_get_cmd` makes a file readable, and it sends what it sends
to the file's descriptor. -/
theorem asks_step (hi : Inv maxnconn s) (htold : Told s i) (h : step maxnconn s a = some t)
    (hq : s.asks i a) : (t.file i).flags = .reading ∧
      requestBytes i (t.file i).fd t.log = sent s i a := by
  cases step_fileStep hi h i with
  | connected _ _ hs ht hl =>
    refine ⟨ht,?_⟩
    rw [hl.requestBytes,htold.requestBytes (Or.inl hs)]
    simp [Event.request]
  | request _ _ hs ht hl =>
    refine ⟨ht,?_⟩
    rw [hl.requestBytes,htold.requestBytes (Or.inr hs)]
    simp [Event.request]
  | stay hn | failed hn | connecting hn | finish hn => exact absurd hq hn

theorem reading_step (hi : Inv maxnconn s) (h : step maxnconn s a = some t)
    (ht : (t.file i).flags = .reading) :
    s.asks i a ∨ t.file i = s.file i ∧ callsFor i t.log = callsFor i s.log := by
  cases step_fileStep hi h i with
  | stay _ hf hl => exact Or.inr ⟨hf,hl⟩
  | connected hq => exact Or.inl hq
  | request hq => exact Or.inl hq
  | failed _ _ _ hz | connecting _ _ _ hz | finish _ _ _ hz => simp [ht] at hz

theorem reachable_name {name : Fin n → List UInt8} {opened : Finset ℤ}
    (h : Reachable (step maxnconn) (init name opened) s) (i : Fin n) :
    (s.file i).name = name i := by
  have hall : Inv maxnconn s ∧ (s.file i).name = name i := by
    apply h.invariant (I := fun u => Inv maxnconn u ∧ (u.file i).name = name i)
    · exact ⟨init_inv maxnconn name opened,rfl⟩
    · rintro a x y ⟨hi,hn⟩ hxy
      exact ⟨step_inv hi hxy,(step_fileStep hi hxy i).name.trans hn⟩
  exact hall.2

end Steps

/-- In a run with the answers `as`, a file whose request fits into the line is read only
after its whole request was sent, exactly if the kernel takes the whole of it whenever
`write_get_cmd` is called for the file. -/
theorem request_complete_iff (n : ℕ) (maxnconn : ℤ) (name : Fin n → List UInt8)
    (opened : Finset ℤ) (as : List Answers) (i : Fin n)
    (hname : (getCmd (name i)).length < maxLine) :
    (∀ pre s, pre <+: as → exec (step maxnconn) (init name opened) pre = some s →
      (s.file i).flags = .reading → requestBytes i (s.file i).fd s.log = getCmd (name i)) ↔
    (∀ pre a s t, pre ++ [a] <+: as → exec (step maxnconn) (init name opened) pre = some s →
      step maxnconn s a = some t → s.asks i a →
        takesAll (getCmd (name i)).length a.write = true) := by
  constructor
  · intro hall pre a s t hpre hs ht hq
    have hreach := reachable_of_exec hs
    have hexec : exec (step maxnconn) (init name opened) (pre ++ [a]) = some t := by
      rw [exec_snoc,hs]
      exact ht
    obtain ⟨hread,hbytes⟩ := asks_step (reachable_inv hreach) (reachable_told hreach i) ht hq
    have hcomplete := hall _ t hpre hexec hread
    rw [hbytes,sent,reachable_name hreach i] at hcomplete
    exact (sendRequest_all_iff hname a.line a.write).mp hcomplete
  · intro hall pre
    induction pre using List.reverseRecOn with
    | nil =>
      rintro s - hs hread
      obtain rfl := Option.some.inj hs
      simp [init] at hread
    | append_singleton pre a ih =>
      intro t hpre hexec hread
      rw [exec_snoc] at hexec
      obtain ⟨s,hs,ht⟩ := Option.bind_eq_some_iff.mp hexec
      have hreach := reachable_of_exec hs
      have hi := reachable_inv hreach
      rcases reading_step hi ht hread with hq | ⟨hf,hl⟩
      · have htakes := hall pre a s t hpre hs ht hq
        rw [(asks_step hi (reachable_told hreach i) ht hq).2,sent,reachable_name hreach i]
        exact (sendRequest_all_iff hname a.line a.write).mpr htakes
      · have hprev := ih s ((List.prefix_append pre [a]).trans hpre) hs
        rw [hf] at hread
        rw [hf,requestBytes,hl]
        exact hprev hread

theorem request_complete_prompt : ∃ s : State 1,
    exec (step 1) (init (fun _ => ascii "/a.html") {0,1,2}) (List.replicate 4 prompt) = some s ∧
      (s.file 0).flags = .reading ∧
      requestBytes 0 (s.file 0).fd s.log = ascii "GET /a.html HTTP/1.0\r\n\r\n" := by
  have hread : (exec (step 1) (init (fun _ : Fin 1 => ascii "/a.html") {0,1,2})
      (List.replicate 4 prompt)).map (fun s => decide ((s.file 0).flags = .reading)) =
      some true := by
    decide +kernel
  obtain ⟨s,hs,hflags⟩ := Option.map_eq_some_iff.mp hread
  have hflags : (s.file 0).flags = .reading := of_decide_eq_true hflags
  refine ⟨s,hs,hflags,?_⟩
  apply (request_complete_iff 1 1 (fun _ => ascii "/a.html") {0,1,2} (List.replicate 4 prompt) 0
    (by decide)).mpr _ _ s (List.prefix_refl _) hs hflags
  intro pre a u t hpre _ _ _
  have ha : a = prompt := List.eq_of_mem_replicate (hpre.subset (by simp : a ∈ pre ++ [a]))
  subst a
  decide

/-- The kernel takes four bytes and then has no room: the file is read although its
request was not sent. -/
theorem request_cut_short : ∃ s : State 1,
    Reachable (step 1) (init (fun _ => ascii "/a.html") {0,1,2}) s ∧
      (getCmd (ascii "/a.html")).length < maxLine ∧ (s.file 0).flags = .reading ∧
      requestBytes 0 (s.file 0).fd s.log = ascii "GET " := by
  obtain ⟨s,hs,hp⟩ := exists_reachable (step 1)
    (init (fun _ : Fin 1 => ascii "/a.html") {0,1,2})
    (List.replicate 4 { prompt with write := [.accepted 4,.fail .ewouldblock] })
    (fun s => decide ((s.file 0).flags = .reading ∧
      requestBytes 0 (s.file 0).fd s.log = ascii "GET ")) (by decide +kernel)
  obtain ⟨hread,hbytes⟩ := of_decide_eq_true hp
  exact ⟨s,hs,by decide,hread,hbytes⟩

end Web
end CPrograming
