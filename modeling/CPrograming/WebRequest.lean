import CPrograming.SocketFunc

/-!
# The request of the web clients

`web.c` and `web_thread.c` format the request into a line on the stack and hand
that line to `written`. The line has `MAXLINE` bytes; what lies behind it is
whatever the stack holds.
-/

namespace CPrograming
namespace WebRequest

open SocketFunc

/-- `GET_CMD` with the name of the file. -/
def getCmd (name : List UInt8) : List UInt8 :=
  ascii "GET " ++ name ++ ascii " HTTP/1.0\r\n\r\n"

/-- `snprintf(dst, size, ...)` for a text: it stores what fits with the final NUL and
returns the length of the whole text. -/
def snprintf (dst : Memory UInt8) (size : ℕ) (text : List UInt8) : Memory UInt8 × ℤ :=
  (dst.store 0 (text.take (size-1) ++ [0]),text.length)

/-- The line is formatted and written; the first component is the `n` that is passed on. -/
def sendRequest (name : List UInt8) (line : Memory UInt8) (answers : List WriteAnswer) :
    ℤ × Written :=
  let (line,n) := snprintf line maxLine (getCmd name)
  (n,written line n answers)

/-- A request that fits into the line is sent in full exactly if the answers take all
of it. -/
theorem sendRequest_all_iff {name : List UInt8} (h : (getCmd name).length < maxLine)
    (line : Memory UInt8) (answers : List WriteAnswer) :
    (sendRequest name line answers).2.sent = getCmd name ↔
      takesAll (getCmd name).length answers = true := by
  have htake : (getCmd name).take (maxLine-1) = getCmd name := List.take_of_length_le (by omega)
  have hline : (line.store 0 (getCmd name ++ [0])).load 0 (getCmd name).length = getCmd name :=
    Memory.load_store_prefix line 0 (getCmd name) [0]
  have hall := written_all_iff (line.store 0 (getCmd name ++ [0])) (getCmd name).length answers
  rw [hline] at hall
  simpa only [sendRequest,snprintf,htake] using hall

end WebRequest
end CPrograming
