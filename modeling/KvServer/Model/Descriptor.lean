/-
The robust I/O of `csapp.c`, call by call.

`read` and `write` return what they please: any part of what there is, an interruption, an error.
What the calls on a descriptor are going to return is a list, and a function of the package uses
up the beginning of it; where the list ends before the function has returned, the last call
blocks, and there is no result.
-/
import KvServer.Model.Rio

namespace KvServer

/-- `RIO_BUFSIZE`. -/
def rioBufSize : Nat := 8192

/-- The bytes that `read` has stored in an internal buffer. -/
structure Chunk where
  bytes : Str
  nonempty : bytes ≠ []
  fits : bytes.length ≤ rioBufSize
  deriving DecidableEq

inductive ReadResult
  | data (chunk : Chunk)
  /-- 0 -/
  | eof
  /-- -1, with `EINTR` -/
  | interrupted
  /-- -1, with another error -/
  | failed
  deriving DecidableEq

/-- What calls of `read` bring before one of them ends the input. -/
def brought : List ReadResult → Str
  | [] => []
  | .data chunk :: rest => chunk.bytes ++ brought rest
  | .interrupted :: rest => brought rest
  | .eof :: _ => []
  | .failed :: _ => []

inductive WriteResult
  /-- so many bytes, or all there are -/
  | wrote (n : Nat) (hpos : 0 < n)
  /-- 0 or -1, with `EINTR` -/
  | interrupted
  /-- 0 or -1, with another error -/
  | failed
  deriving DecidableEq

/-- A `rio_t`: the `rio_cnt` bytes from `rio_bufptr` on. -/
structure Rio where
  unread : Str := []
  deriving DecidableEq

inductive RioRead
  | copied (bytes : Str)
  | eof
  | failed
  deriving DecidableEq

/-- What comes of a function, with the internal buffer after it and the calls to come. -/
abbrev Calls (α : Type) := Option (α × Rio × List ReadResult)

namespace Rio

/-- `memcpy` out of the internal buffer. -/
def copy (rp : Rio) (n : Nat) (calls : List ReadResult) : Calls RioRead :=
  some (.copied (rp.unread.take n), { unread := rp.unread.drop n }, calls)

/-- `rio_read`. -/
def read (n : Nat) (rp : Rio) (calls : List ReadResult) : Calls RioRead :=
  if rp.unread = [] then
    match calls with
    | [] => none
    | .data chunk :: rest => copy { unread := chunk.bytes } n rest
    | .eof :: rest => some (.eof, rp, rest)
    | .interrupted :: rest => read n rp rest
    | .failed :: rest => some (.failed, rp, rest)
  else copy rp n calls

/-- How the loop of `rio_readlineb` ends. -/
inductive LineEnd
  | stored
  | eof
  | failed
  deriving DecidableEq

/-- The loop of `rio_readlineb`, with room for `n` more bytes after those in `got`. -/
def lineLoop : Nat → Str → Rio → List ReadResult → Calls (LineEnd × Str)
  | 0, got, rp, calls => some ((.stored, got), rp, calls)
  | n + 1, got, rp, calls =>
      match read 1 rp calls with
      | none => none
      | some (.copied c, rp, calls) =>
          if c = [newline] then some ((.stored, got ++ c), rp, calls)
          else lineLoop n (got ++ c) rp calls
      | some (.eof, rp, calls) => some ((if got = [] then .eof else .stored, got), rp, calls)
      | some (.failed, rp, calls) => some ((.failed, got), rp, calls)

/-- What `rio_readlineb` returns, and the bytes at the buffer's address. -/
structure LineRead where
  n : Int
  buf : Str
  deriving DecidableEq

/-- `rio_readlineb`.  After an error the buffer has no NUL behind what has been stored. -/
def readlineb (rp : Rio) (buf : Str) (maxlen : Nat) (calls : List ReadResult) : Calls LineRead :=
  (lineLoop (maxlen - 1) [] rp calls).map fun ((how, got), rest) =>
    match how with
    | .stored => ({ n := got.length, buf := got ++ nul :: buf.drop (got.length + 1) }, rest)
    | .eof => ({ n := 0, buf := buf }, rest)
    | .failed => ({ n := -1, buf := got ++ buf.drop got.length }, rest)

end Rio

/-- One round of the loop of `rio_writen`: what is left to write; `none` where it returns -1. -/
def writeRound (left : Str) : WriteResult → Option Str
  | .wrote n _ => some (left.drop n)
  | .interrupted => some left
  | .failed => none

/-- What a round has given to the kernel. -/
def WriteResult.taken (left : Str) : WriteResult → Str
  | .wrote n _ => left.take n
  | _ => []

end KvServer
