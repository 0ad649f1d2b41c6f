import Kubeka.Library.Buffer
import Kubeka.Model.Exec

/-!
# The result of a command (`kbexec_shell` in `kbexec.c`, the parent)

The parent copies what it reads into a buffer that it makes larger as needed,
each time with a NUL behind it. At the end of the file it takes the status
from the last four bytes of what it has read. Sizes are far from 2^64, so that
only a subtraction can wrap around. Allocations succeed; what `realloc` leaves
in new memory of a size is given as `fresh`.
-/

namespace Kubeka

/-- The variables of the loop. -/
structure PipeReader where
  dst : Buffer UInt8
  dstlen : ℕ
  index : ℕ

/-- `better to reallocate earlier than necessary` -/
def resizeBuffer (fresh : ℕ → ℕ → UInt8) (dst : Buffer UInt8) (len index : ℕ) :
    Buffer UInt8 × ℕ :=
  let index := index + 2
  if index < len then (dst, len)
  else
    let newsize := index * 2
    (dst.resize (newsize + 2) (fresh newsize), newsize)

/-- One iteration of the loop, `none` for a write outside of the buffer. -/
def readChunk (fresh : ℕ → ℕ → UInt8) (s : PipeReader) (buf : List UInt8) : Option PipeReader :=
  let (dst, dstlen) := resizeBuffer fresh s.dst s.dstlen (s.index + buf.length + 1)
  (dst.write s.index buf).bind fun dst =>
    let index := s.index + buf.length
    (dst.write index [0]).map fun dst => { dst := dst, dstlen := dstlen, index := index }

/-- The loop over what `read` gives; no bytes are the end of the file. -/
def readChunks (fresh : ℕ → ℕ → UInt8) : PipeReader → List (List UInt8) → Option PipeReader
  | s, [] => some s
  | s, buf :: bufs =>
    if buf = [] then some s else (readChunk fresh s buf).bind fun s => readChunks fresh s bufs

/-- A difference of two values of type `size_t`. -/
def subSize (n k : ℕ) : ℕ := if k ≤ n then n - k else 2 ^ 64 + n - k

/-- What the parent makes of the stream: `index` is where it takes the status from. -/
structure Received where
  dst : Buffer UInt8
  dstlen : ℕ
  index : ℕ
  ret : CInt

/-- Behind the loop; `outside` is what is found in place of bytes that are not in the buffer. -/
def decodeTrailer (outside : CInt) (s : PipeReader) : Received :=
  let index := subSize s.index 4
  { dst := s.dst
    dstlen := subSize index 1
    index := index
    ret := if index + 4 ≤ s.dst.size then intOf (s.dst.slice index 4) else outside }

/-- The parent from `fork` to the cleanup, with the caller's NULL in `*dst`. -/
def receiveResult (fresh : ℕ → ℕ → UInt8) (outside : CInt) (bufs : List (List UInt8)) :
    Option Received :=
  let (dst, dstlen) := resizeBuffer fresh { size := 0, cells := fun _ => 0 } 0 0
  (dst.write 0 [0]).bind fun dst =>
    (readChunks fresh { dst := dst, dstlen := dstlen, index := 0 } bufs).map
      (decodeTrailer outside)

end Kubeka
