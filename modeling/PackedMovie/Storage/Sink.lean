import PackedMovie.Bytes.LittleEndian
import PackedMovie.Storage.SystemError

/-!
# Sinks

A sink takes bytes in order. It may be full after some number of them, and it may refuse to be flushed.
What it took before it was full it keeps.
-/
namespace PackedMovie

structure Sink where
  written : Bytes
  limit : Option Nat
  flushFails : Bool
  deriving DecidableEq, Repr

namespace Sink

/-- An empty sink that never fails. -/
def unlimited : Sink := ⟨[], none, false⟩

/-- How many of some bytes there is room for. -/
def room (s : Sink) (count : Nat) : Nat :=
  match s.limit with
  | none => count
  | some limit => min count (limit - s.written.length)

def write (bytes : Bytes) (s : Sink) : Except SystemError Unit × Sink :=
  let taken := bytes.take (s.room bytes.length)
  (if taken.length = bytes.length then .ok () else .error .streamBroken,
    { s with written := s.written ++ taken })

def flush (s : Sink) : Except SystemError Unit :=
  if s.flushFails then .error .streamBroken else .ok ()

@[simp] theorem write_unlimited (bytes written : Bytes) :
    write bytes ⟨written, none, false⟩ = (.ok (), ⟨written ++ bytes, none, false⟩) := by
  simp [write, room]

end Sink
end PackedMovie
