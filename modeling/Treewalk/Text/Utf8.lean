/-!
# UTF-8

Bytes are text only if they are valid UTF-8. Where they are not, the fault says at which byte the
first bad sequence starts and how many bytes of it could have begun a character.
-/

namespace Treewalk

/-- Why bytes are no text. -/
inductive Utf8Fault where
  /-- The byte behind these `length` bytes continues no character that they begin. -/
  | invalid (length start : Nat)
  /-- The bytes end inside a character. -/
  | incomplete (start : Nat)
deriving DecidableEq, Repr

def Utf8Fault.message : Utf8Fault → String
  | invalid length start =>
    "invalid utf-8 sequence of " ++ toString length ++ " bytes from index " ++ toString start
  | incomplete start => "incomplete utf-8 byte sequence from index " ++ toString start

namespace Utf8

/-- A range of bytes, both ends included. -/
structure ByteRange where
  low : UInt8
  high : UInt8
deriving DecidableEq, Repr

def ByteRange.contains (r : ByteRange) (b : UInt8) : Bool :=
  r.low ≤ b && b ≤ r.high

/-- The bytes that continue a character. -/
def continuation : ByteRange := ⟨0x80, 0xBF⟩

/-- What has to follow a byte that begins a character. The narrow second ranges leave out overlong
forms, surrogates and what is beyond the last character. -/
def followers? (lead : UInt8) : Option (List ByteRange) :=
  if lead ≤ 0x7F then some []
  else if lead < 0xC2 then none
  else if lead ≤ 0xDF then some [continuation]
  else if lead = 0xE0 then some [⟨0xA0, 0xBF⟩, continuation]
  else if lead = 0xED then some [⟨0x80, 0x9F⟩, continuation]
  else if lead ≤ 0xEF then some [continuation, continuation]
  else if lead = 0xF0 then some [⟨0x90, 0xBF⟩, continuation, continuation]
  else if lead ≤ 0xF3 then some [continuation, continuation, continuation]
  else if lead = 0xF4 then some [⟨0x80, 0x8F⟩, continuation, continuation]
  else none

/-- How many bytes are in their ranges, from the first on. -/
def matching : List ByteRange → List UInt8 → Nat
  | r :: ranges, b :: bytes => if r.contains b then matching ranges bytes + 1 else 0
  | _, _ => 0

/-- The first fault of bytes that start at the given index; where there is none, the end. -/
def firstFault (start : Nat) : List UInt8 → Utf8Fault
  | [] => .incomplete start
  | lead :: rest =>
    match followers? lead with
    | none => .invalid 1 start
    | some ranges =>
      let n := matching ranges rest
      if n = ranges.length then firstFault (start + 1 + n) (rest.drop n)
      else if n = rest.length then .incomplete start
      else .invalid (n + 1) start
termination_by bytes => bytes.length
decreasing_by simp only [List.length_drop, List.length_cons]; omega

/-- The text that bytes encode. -/
def decode (bytes : ByteArray) : Except Utf8Fault String :=
  match String.fromUTF8? bytes with
  | some s => .ok s
  | none => .error (firstFault 0 bytes.toList)

/-- The text that bytes encode, up to the first fault; a replacement character stands for it. -/
def decodeCut (bytes : ByteArray) : String :=
  match decode bytes with
  | .ok s => s
  | .error (.invalid _ start) | .error (.incomplete start) =>
    (String.fromUTF8? (bytes.extract 0 start)).getD "" ++ "\ufffd"

end Utf8

end Treewalk
