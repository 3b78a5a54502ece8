/-!
# Sinks

What a program prints goes to a sink of bytes. A sink may have a capacity; a
write that does not fit fails, and what fits of it is kept.
-/

namespace Gradual

structure Sink where
  /-- The number of bytes that fit, if there is a limit. -/
  capacity : Option Nat := none
  written : ByteArray := .empty

namespace Sink

def fits (s : Sink) (n : Nat) : Bool :=
  match s.capacity with
  | none => true
  | some c => s.written.size + n ≤ c

def write (s : Sink) (bytes : ByteArray) : Sink :=
  match s.capacity with
  | none => { s with written := s.written ++ bytes }
  | some c => { s with written := s.written ++ bytes.extract 0 (c - s.written.size) }

def fullReason : String :=
  "sink full"

def since (s : Sink) (start : Nat) : ByteArray :=
  s.written.extract start s.written.size

end Sink

end Gradual
