import CPrograming.Posix

/-!
# What a sequence of reads gives

The answers to successive calls of `read` are a stream. It ends at the first end of file
or at the first error that is not an interrupt; with neither among the answers the next
call is still waiting.
-/

namespace CPrograming
namespace ReadStream

/-- How the stream ends, as far as the answers go. -/
inductive Closing
  | waiting | eof | error
  deriving DecidableEq, Repr

def arriving : List ReadAnswer → List UInt8
  | [] => []
  | .data [] :: _ => []
  | .data (b :: bytes) :: rest => b :: bytes ++ arriving rest
  | .fail .eintr :: rest => arriving rest
  | .fail _ :: _ => []

def closing : List ReadAnswer → Closing
  | [] => .waiting
  | .data [] :: _ => .eof
  | .data (_ :: _) :: rest => closing rest
  | .fail .eintr :: rest => closing rest
  | .fail _ :: _ => .error

variable {bytes : List UInt8} {e : Errno}

theorem arriving_data (h : bytes ≠ []) (rest : List ReadAnswer) :
    arriving (.data bytes :: rest) = bytes ++ arriving rest := by
  cases bytes with
  | nil => exact absurd rfl h
  | cons b bytes => rfl

theorem closing_data (h : bytes ≠ []) (rest : List ReadAnswer) :
    closing (.data bytes :: rest) = closing rest := by
  cases bytes with
  | nil => exact absurd rfl h
  | cons b bytes => rfl

theorem arriving_failed (h : e ≠ .eintr) (rest : List ReadAnswer) :
    arriving (.fail e :: rest) = [] := by
  cases e with
  | eintr => exact absurd rfl h
  | ewouldblock | other => rfl

theorem closing_failed (h : e ≠ .eintr) (rest : List ReadAnswer) :
    closing (.fail e :: rest) = .error := by
  cases e with
  | eintr => exact absurd rfl h
  | ewouldblock | other => rfl

end ReadStream
end CPrograming
