/-! Writing to a file through a buffer. What was written is what has reached the file
and then what still waits. -/
namespace PdfConform

structure Buffer where
  sent : String
  held : String
  deriving DecidableEq

namespace Buffer

def empty : Buffer := ⟨"", ""⟩

def capacity : Nat := 8192

def flush (b : Buffer) : Buffer := ⟨b.sent ++ b.held, ""⟩

/-- What waits goes out when the next text does not fit beside it. A text as large as
the buffer does not wait at all. -/
def write (b : Buffer) (text : String) : Buffer :=
  let b := if capacity < b.held.utf8ByteSize + text.utf8ByteSize then b.flush else b
  let b := { b with held := b.held ++ text }
  if capacity ≤ text.utf8ByteSize then b.flush else b

end Buffer

end PdfConform
