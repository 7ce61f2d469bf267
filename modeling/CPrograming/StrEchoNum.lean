import CPrograming.StrExchange
import CPrograming.WebRequest

/-!
# The sums of `server.c`

`str_echo_num` reads a line, takes two numbers from it and sends their sum as a line, or
says that there was an error in the input. It does all of that in one buffer.
-/

namespace CPrograming
namespace StrEchoNum

open Connection Libc SocketFunc Readline Runs StrSession WebRequest

/-- What is formatted into the buffer. The sum wraps around. -/
def sumText (line : List UInt8) : List UInt8 :=
  match scanTwo line with
  | some (arg1,arg2) => decimal (arg1+arg2).toInt ++ [newline]
  | none => ascii "input error" ++ [newline]

/-- The body of the loop, once `readline` has returned `n`: the buffer holds the line. -/
def reply (s : Server) (n : ℤ) : Server :=
  let s := s.print "read %ld bytes from client\n" [.int n]
  let text := sumText (s.buffer.load 0 (maxLine+1))
  let s := { s with buffer := (snprintf s.buffer maxLine text).1 }
  let size := (cString (s.buffer.load 0 (maxLine+1))).length
  { s with place := .writing size (Writing.enter size) }

/-- The head of the loop of `str_echo_num`, where `readline` waits or has returned. -/
def head (s : Server) : Server :=
  let call := readline s.sock maxLine s.reader
  match call.ret with
  | none => { s with place := .reading }
  | some n =>
    let s := { s with buffer := s.buffer.storeAll call.stores, reader := call.reader }
    if 0 < n then reply s n
    else if n < 0 ∧ lastErrno s.reader = some .eintr then { s with place := .reading }
    else if n < 0 then { s.print "echo error\n" [] with place := .returned }
    else { s with place := .returned }

def strEchoNum : Process Server := lineLoop head

section Texts

theorem newline_not_mem_decimal (v : ℤ) : newline ∉ decimal v := by
  have hdigits : newline ∉ decimalNat v.natAbs := fun hmem =>
    absurd (isDigit_decimalNat _ _ hmem) (by decide)
  rw [decimal]
  split_ifs
  · simp only [List.mem_cons,not_or]
    exact ⟨by decide,hdigits⟩
  · exact hdigits

theorem decimalNat_length {v k : ℕ} (hk : 0 < k) (h : v < 10^k) : (decimalNat v).length ≤ k := by
  rw [decimalNat]
  split_ifs with hv
  · exact hk
  · rw [List.length_map,List.length_reverse]
    exact (Nat.digits_length_le_iff (by omega) v).mpr h

theorem decimal_length (x : Long) : (decimal x.toInt).length ≤ 20 := by
  have hlow := BitVec.le_toInt x
  have hhigh := BitVec.toInt_lt (x := x)
  have hnat : (decimalNat x.toInt.natAbs).length ≤ 19 := decimalNat_length (by omega) (by omega)
  rw [decimal]
  split_ifs
  · simp only [List.length_cons]
    omega
  · omega

theorem sumText_echoable (line : List UInt8) : Echoable (sumText line) := by
  rw [sumText]
  cases scanTwo line with
  | none => exact ⟨⟨ascii "input error",rfl,by decide⟩,by decide⟩
  | some args =>
    have hlen := decimal_length (args.1+args.2)
    refine ⟨⟨decimal (args.1+args.2).toInt,rfl,newline_not_mem_decimal _⟩,?_⟩
    simp only [List.length_append,List.length_singleton,maxLine]
    omega

theorem cString_sumText (line : List UInt8) : cString (sumText line) = sumText line := by
  rw [sumText]
  cases scanTwo line with
  | none => decide
  | some args => exact cString_decimal _ [newline]

theorem scanTwo_congr {line line' : List UInt8} (h : cString line = cString line') :
    scanTwo line = scanTwo line' := by
  rw [scanTwo,scanTwo,h]

end Texts

theorem reply_eq (s : Server) (n : ℤ) {line : List UInt8} (hline : line.length < maxLine)
    (r : Reader) :
    reply { s with
        buffer := s.buffer.storeAll (Memory.storesFrom 0 (line ++ [0]))
        reader := r } n =
      { s with
        place := .writing (sumText line).length (Writing.after (sumText line).length 0)
        buffer := (s.buffer.storeAll (Memory.storesFrom 0 (line ++ [0]))).store 0
          (sumText line ++ [0])
        reader := r
        stdout := s.stdout ++ [("read %ld bytes from client\n",[.int n])] } := by
  have hload := cString_load s.buffer (maxLine+1) (Nat.lt_succ_of_lt hline)
  have hsum : sumText ((s.buffer.storeAll (Memory.storesFrom 0 (line ++ [0]))).load 0 (maxLine+1)) =
      sumText line := by
    rw [sumText,scanTwo_congr hload,sumText]
  have hshort := (sumText_echoable line).short
  have htake : (sumText line).take (maxLine-1) = sumText line := List.take_of_length_le (by omega)
  have hlen := cString_load (s.buffer.storeAll (Memory.storesFrom 0 (line ++ [0]))) (maxLine+1)
    (Nat.lt_succ_of_lt hshort)
  rw [Memory.storeAll_storesFrom,cString_sumText] at hlen
  simp only [reply,Server.print,hsum,snprintf,htake,hlen,Writing.enter_eq_after]

/-- The loop of `str_echo_num` answers a line with its sum. -/
theorem sum_answers : Answers head sumText where
  waits s half hgot hnone hlen := by
    have hret : (readline s.sock maxLine s.reader).ret = none :=
      hgot.waits s.sock hnone (by exact_mod_cast hlen)
    simp only [head,hret]
  answers s line hgot hline := by
    have hlen : (line.length : ℤ) < maxLine := by exact_mod_cast hline.short
    obtain ⟨r,hr,hcall⟩ := hgot.line s.sock hline.line hlen
    have hpos := hline.length_pos
    have hhead : head s = reply
        { s with buffer := s.buffer.storeAll (Memory.storesFrom 0 (line ++ [0])), reader := r }
        line.length := by
      simp only [head,hcall]
      rw [if_pos (by exact_mod_cast hpos)]
    rw [hhead,reply_eq s _ hline.short r]
    exact ⟨rfl,hr,Memory.load_store_prefix _ 0 _ _⟩
  ne_nil line _ := List.length_pos_iff.mp (sumText_echoable line).length_pos

/-- `str_cli` talking to `str_echo_num`: however the two streams are cut, the client prints, in
order, the sum of each line with two numbers and the error for every other line. It has printed
all of them when it returns; until then one of the programs can get on, and there is a bound on
how often they do. -/
theorem session_prints_sums (input : List UInt8) (clientSock serverSock : ℤ)
    (recvline buffer : Memory UInt8)
    (hinput : ∀ line ∈ inputLines maxLine input, newline ∈ cString line) (as : List Act)
    (t : Session Client Server)
    (h : exec (restrict (fun _ a => Act.smooth a = true) (session strCli strEchoNum))
      (connectedTo head input clientSock serverSock recvline buffer) as = some t) :
    (∃ k, t.left.stdout = ((inputLines maxLine input).take k).flatMap sumText) ∧
    (t.left.place = .returned → t.left.stdout = (inputLines maxLine input).flatMap sumText) ∧
    (t.left.place ≠ .returned →
      as.countP Exchange.busy ≤ 2*input.length+43*(inputLines maxLine input).length ∧
      ∃ a u, Exchange.busy a = true ∧
        restrict (fun _ a => Act.smooth a = true) (session strCli strEchoNum) t a = some u) := by
  have hserved := session_served sum_answers hinput (fun line _ => sumText_echoable line) h
  obtain ⟨⟨k,hprinted⟩,hall⟩ := session_prints sum_answers hserved
  simp only [cString_sumText] at hprinted hall
  refine ⟨⟨k,hprinted⟩,hall,?_⟩
  intro hopen
  have hended : lineClient.ended t.left = false := by simp [lineClient,hopen]
  refine ⟨(hserved.bounded hended).trans ?_,hserved.moves hended⟩
  have hwork : ∀ past : List (List UInt8),
      Exchange.work lineClient (lineServer sum_answers) past ≤
        2*past.flatten.length+43*past.length := by
    intro past
    induction past with
    | nil => simp [Exchange.work]
    | cons line past ih =>
      have hlen : (sumText line).length ≤ 21 := by
        rw [sumText]
        cases scanTwo line with
        | none => decide
        | some args =>
          have hlong := decimal_length (args.1+args.2)
          simp only [List.length_append,List.length_singleton]
          omega
      rw [Exchange.work_cons,List.flatten_cons,List.length_append,List.length_cons]
      change 2*line.length+2*(sumText line).length+1+_ ≤ _
      omega
  have hbound := hwork (inputLines maxLine input)
  rwa [inputLines_flatten (by decide)] at hbound

/-- A line of two words is answered with an error, a line of two numbers with their sum. -/
theorem session_prints_two : ∃ t : Session Client Server,
    exec (restrict (fun _ a => Act.smooth a = true) (session strCli strEchoNum))
      (connectedTo head (ascii "x y\n-1 3\n") 3 4 (fun _ => 0) fun _ => 0)
      [.left .compute,.left (.write 9),.right (.read 9),.right (.write 9),.right (.write 9),
        .left (.read 99),.left .compute,.left (.write 9),.right (.read 9),.right (.write 9),
        .left (.read 9),.left .compute] = some t ∧
    t.left.place = .returned ∧ t.left.stdout = ascii "input error\n2\n" := by
  obtain ⟨t,ht,hp⟩ := Option.map_eq_some_iff.mp (show (exec
    (restrict (fun _ a => Act.smooth a = true) (session strCli strEchoNum))
    (connectedTo head (ascii "x y\n-1 3\n") 3 4 (fun _ => 0) fun _ => 0)
    [.left .compute,.left (.write 9),.right (.read 9),.right (.write 9),.right (.write 9),
      .left (.read 99),.left .compute,.left (.write 9),.right (.read 9),.right (.write 9),
      .left (.read 9),.left .compute]).map (fun t => decide (t.left.place = .returned)) =
        some true by decide +kernel)
  have hret : t.left.place = .returned := of_decide_eq_true hp
  have hprinted := (session_prints_sums _ _ _ _ _ (by decide +kernel) _ t ht).2.1 hret
  exact ⟨t,ht,hret,hprinted.trans (by decide +kernel)⟩

def question (args : Long × Long) : List UInt8 :=
  decimal args.1.toInt ++ 32 :: (decimal args.2.toInt ++ [newline])

theorem question_echoable (args : Long × Long) : Echoable (question args) := by
  have hleft := decimal_length args.1
  have hright := decimal_length args.2
  refine ⟨⟨decimal args.1.toInt ++ 32 :: decimal args.2.toInt,by simp [question],?_⟩,?_⟩
  · simp only [List.mem_append,List.mem_cons,not_or]
    exact ⟨newline_not_mem_decimal _,by decide,newline_not_mem_decimal _⟩
  · simp only [question,List.length_append,List.length_cons,List.length_nil,maxLine]
    omega

theorem question_lines (pairs : List (Long × Long)) :
    inputLines maxLine (pairs.flatMap question) = pairs.map question := by
  rw [List.flatMap_def]
  apply inputLines_whole (by decide)
  intro line hline
  obtain ⟨args,-,rfl⟩ := List.mem_map.mp hline
  obtain ⟨⟨body,heq,hbody⟩,hshort⟩ := question_echoable args
  rw [heq] at hshort ⊢
  refine ⟨Or.inl (by simp),by simpa using hbody,?_⟩
  simp only [maxLine] at hshort ⊢
  omega

theorem cString_question (args : Long × Long) : cString (question args) = question args := by
  rw [question,cString_decimal]
  congr 1
  rw [cString,List.takeWhile_cons_of_pos (by decide)]
  exact congrArg _ (cString_decimal _ [newline])

/-- A client that is given pairs of numbers in decimal, one pair on a line, has printed their
sums in decimal when it returns. -/
theorem session_adds (pairs : List (Long × Long)) (clientSock serverSock : ℤ)
    (recvline buffer : Memory UInt8) (as : List Act) (t : Session Client Server)
    (h : exec (restrict (fun _ a => Act.smooth a = true) (session strCli strEchoNum))
      (connectedTo head (pairs.flatMap question) clientSock serverSock recvline buffer) as = some t)
    (hret : t.left.place = .returned) :
    t.left.stdout = pairs.flatMap fun args => decimal (args.1+args.2).toInt ++ [newline] := by
  have hcomplete : Complete (pairs.flatMap question) := by
    intro line hline
    rw [question_lines] at hline
    obtain ⟨args,-,rfl⟩ := List.mem_map.mp hline
    rw [cString_question]
    exact (question_echoable args).newline_mem
  have hserved := session_served sum_answers hcomplete (fun line _ => sumText_echoable line) h
  have hprinted := (session_prints sum_answers hserved).2 hret
  simp only [cString_sumText,question_lines,List.flatMap_map] at hprinted
  rw [hprinted]
  congr 1
  funext args
  simp only [sumText,question,scanTwo_decimal]

theorem session_adds_two : ∃ t : Session Client Server,
    exec (restrict (fun _ a => Act.smooth a = true) (session strCli strEchoNum))
      (connectedTo head (List.flatMap question [(20,22),(BitVec.ofInt 64 (-5),2)]) 3 4 (fun _ => 0)
        fun _ => 0)
      [.left .compute,.left (.write 9),.right (.read 9),.right (.write 9),.left (.read 99),
        .left .compute,.left (.write 9),.right (.read 9),.right (.write 9),
        .left (.read 9),.left .compute] = some t ∧
    t.left.stdout = ascii "42\n-3\n" := by
  obtain ⟨t,ht,hp⟩ := Option.map_eq_some_iff.mp (show (exec
    (restrict (fun _ a => Act.smooth a = true) (session strCli strEchoNum))
    (connectedTo head (List.flatMap question [(20,22),(BitVec.ofInt 64 (-5),2)]) 3 4 (fun _ => 0)
      fun _ => 0)
    [.left .compute,.left (.write 9),.right (.read 9),.right (.write 9),.left (.read 99),
      .left .compute,.left (.write 9),.right (.read 9),.right (.write 9),
      .left (.read 9),.left .compute]).map (fun t => decide (t.left.place = .returned)) =
        some true by decide +kernel)
  have hret : t.left.place = .returned := of_decide_eq_true hp
  exact ⟨t,ht,(session_adds _ _ _ _ _ _ t ht hret).trans (by decide +kernel)⟩

end StrEchoNum
end CPrograming
