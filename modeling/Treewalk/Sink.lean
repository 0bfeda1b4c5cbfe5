/-!
# Output sinks

A sink keeps what a program has printed. It may take a limited number of bytes only; a write that
exceeds what is left is cut there and fails, and so does every later write of anything.
-/

namespace Treewalk

structure Sink where
  written : ByteArray
  /-- How many bytes it still takes, if that is limited. -/
  room : Option Nat
  /-- Why it fails when it is full. -/
  reason : String

namespace Sink

def unlimited : Sink := ⟨.empty, none, ""⟩

def limited (room : Nat) (reason : String) : Sink := ⟨.empty, some room, reason⟩

/-- Why the sink does not take all of `bytes`, if it does not. -/
def refusal? (s : Sink) (bytes : ByteArray) : Option String :=
  match s.room with
  | none => none
  | some n => if bytes.size ≤ n then none else some s.reason

/-- Takes as much of `bytes` as fits. -/
def write (s : Sink) (bytes : ByteArray) : Sink :=
  match s.room with
  | none => { s with written := s.written ++ bytes }
  | some n => { s with written := s.written ++ bytes.extract 0 n, room := some (n - bytes.size) }

/-- Without a limit nothing is refused. -/
theorem refusal?_of_room_none {s : Sink} (h : s.room = none) (bytes : ByteArray) :
    s.refusal? bytes = none := by
  simp [refusal?, h]

/-- What has been written, and the sink without it. -/
def drain (s : Sink) : ByteArray × Sink :=
  (s.written, { s with written := .empty })

end Sink

end Treewalk
