/-
The line reader of `csapp.c`.

A connection's input is the list of bytes that are still to come, followed by end
of input; how the bytes arrive is hidden by `rio_read`, which blocks for more.
-/
import KvServer.Model.Bytes

namespace KvServer

/-- The loop of `rio_readlineb`: at most `n` bytes, up to and with the first newline. -/
def readLoop : Nat → Str → Str × Str
  | 0, input => ([], input)
  | _ + 1, [] => ([], [])
  | n + 1, c :: input =>
      if c = newline then ([c], input)
      else ((c :: (readLoop n input).1), (readLoop n input).2)

/-- What a call leaves: its result, the bytes at the buffer's address, and the input after it. -/
structure ReadLine where
  n : Nat
  buf : Str
  rest : Str
  deriving DecidableEq

/--
`rio_readlineb(rp, buf, maxlen)`.  At end of input with nothing read it returns 0
and leaves the buffer as it was; otherwise it stores the bytes read and a NUL over
the beginning of what the buffer held.
-/
def rioReadlineb (input buf : Str) (maxlen : Nat) : ReadLine :=
  if input = [] then { n := 0, buf := buf, rest := [] }
  else
    let (got, rest) := readLoop (maxlen - 1) input
    { n := got.length, buf := got ++ nul :: buf.drop (got.length + 1), rest := rest }

end KvServer
