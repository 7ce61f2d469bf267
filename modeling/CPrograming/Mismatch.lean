import CPrograming.StrExchange
import CPrograming.SumExchange
import CPrograming.Stall

/-!
# Lines and records

`client.c` calls `str_cli`, which sends lines, and `server.c` calls `number_echo`, which waits
for records of sixteen bytes. Either program has the counterpart of the other in a comment:
`number_cli` sends records, and `str_echo` and `str_echo_num` wait for lines. A client of one
kind and a server of the other do not agree on where a message ends.
-/

namespace CPrograming
namespace Mismatch

open Connection Libc SocketFunc Readline Runs

section LinesToRecords

open StrSession

/-- The programs of `client.c` and `server.c` at the ends of a new connection. -/
def linesToRecords (input : List UInt8) (clientSock sockfd : ℤ) (recvline args : Memory UInt8)
    (sum : Long) : Session Client Sum.Server :=
  ⟨Client.start clientSock input recvline,Sum.Server.start sockfd args sum,⟨[],false⟩,⟨[],false⟩⟩

/-- What is shorter than a record is the first part of one. -/
theorem short_unfinished {text : List UInt8} (hne : text ≠ [])
    (hshort : text.length < Sum.sizeofArgs) :
    Exchange.Unfinished lineClient Sum.numberServer [] text text where
  skip _ hmem := by cases hmem
  request := rfl
  request_ne := hne
  part := by
    refine ⟨List.replicate (Sum.sizeofArgs-text.length) 0,?_,?_⟩
    · rw [ne_eq,List.replicate_eq_nil_iff]
      omega
    · rw [List.length_append,List.length_replicate]
      omega

/-- If the first line of the input is shorter than a record, the client prints nothing and does
not return: it waits for a line, and the server with that first line for the rest of a record. -/
theorem short_line_deadlocks (input line : List UInt8) (lines : List (List UInt8))
    (hinput : inputLines maxLine input = line :: lines) (hne : cString line ≠ [])
    (hshort : (cString line).length < Sum.sizeofArgs) (clientSock sockfd : ℤ)
    (recvline args : Memory UInt8) (sum : Long) (as : List Act)
    (t : Session Client Sum.Server)
    (h : exec (restrict (fun _ a => Act.smooth a = true) (session strCli Sum.numberEcho))
      (linesToRecords input clientSock sockfd recvline args sum) as = some t) :
    t.left.stdout = [] ∧ t.left.place ≠ .returned ∧
    (∃ half, half <+: cString line ∧ t.right.Waits half) ∧
    as.countP Exchange.busy ≤ 2*(cString line).length+1 ∧
    (t.left.place = .reading ∧ t.right.Waits (cString line) ∨
      ∃ a u, Exchange.busy a = true ∧
        restrict (fun _ a => Act.smooth a = true) (session strCli Sum.numberEcho) t a =
          some u) := by
  have hready : lineClient.Ready ([] ++ cString line :: lines.map cString,[])
      (linesToRecords input clientSock sockfd recvline args sum).left :=
    ⟨rfl,fresh_got,by simp only [linesToRecords,Client.todo,Client.start,hinput]; rfl,rfl⟩
  have hstalled := Exchange.stalled (short_unfinished hne hshort) hready
    (Sum.start_waits sockfd args sum) rfl rfl h
  have hbound := hstalled.bounded
  rw [List.length_nil] at hbound
  refine ⟨?_,?_,hstalled.waits,by omega,?_⟩
  · obtain ⟨past,hpast,hprinted⟩ := hstalled.shows
    rw [List.prefix_nil.mp hpast] at hprinted
    exact hprinted
  · exact of_decide_eq_false hstalled.running
  · exact hstalled.moves.imp_left fun hdead => ⟨hdead.1.1,hdead.2⟩

/-- A client that is given two numbers on a line. -/
theorem short_line_deadlocks_numbers : ∃ t : Session Client Sum.Server,
    exec (restrict (fun _ a => Act.smooth a = true) (session strCli Sum.numberEcho))
      (linesToRecords (ascii "1 2\n") 3 4 (fun _ => 0) (fun _ => 0) 0)
      [.left .compute,.left (.write 3),.right (.read 1),.right (.read 9)] = some t ∧
    t.left.stdout = [] ∧ t.left.place = .reading := by
  obtain ⟨t,ht,hp⟩ := Option.map_eq_some_iff.mp (show (exec
    (restrict (fun _ a => Act.smooth a = true) (session strCli Sum.numberEcho))
    (linesToRecords (ascii "1 2\n") 3 4 (fun _ => 0) (fun _ => 0) 0)
    [.left .compute,.left (.write 3),.right (.read 1),.right (.read 9)]).map
      (fun t => decide (t.left.place = .reading)) = some true by decide +kernel)
  have hinput : inputLines maxLine (ascii "1 2\n") = [ascii "1 2\n"] := by decide +kernel
  exact ⟨t,ht,(short_line_deadlocks _ _ [] hinput (by decide) (by decide) _ _ _ _ _ _ t ht).1,
    of_decide_eq_true hp⟩

end LinesToRecords

section RecordsToLines

open StrSession (Answers Server Echoable lineLoop lineServer)

variable {head : Server → Server} {answer : List UInt8 → List UInt8}

end RecordsToLines

end Mismatch
end CPrograming
