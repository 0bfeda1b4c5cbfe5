import Treewalk.Decimal.Notation
/-!
# Values

Functions, classes and instances are references into the heap, so a copy of a value is the same
object.
-/

namespace Treewalk

abbrev ScopeId := Nat
abbrev FunctionId := Nat
abbrev ClassId := Nat
abbrev InstanceId := Nat

/-- Functions that no program declares. -/
inductive Native where
  /-- The current time in seconds. -/
  | clock
deriving DecidableEq, Repr

inductive Value where
  | nil
  | bool (b : Bool)
  | number (x : Float)
  | string (s : String)
  | native (f : Native)
  | function (f : FunctionId)
  | class (c : ClassId)
  | instance (i : InstanceId)
deriving DecidableEq, Repr

namespace Native

def name : Native → String
  | clock => "clock"

def arity : Native → Nat
  | clock => 0

end Native

namespace Value

/-- Everything is true but `false` and `nil`. -/
def isTruthy : Value → Bool
  | .nil | .bool false => false
  | _ => true

/-- Numbers are compared as numbers: the two zeros are equal, and what is no number differs from
itself. Everything else is equal to itself only. -/
def equals : Value → Value → Bool
  | .number x, .number y => x == y
  | v, w => v = w

def typeName : Value → String
  | .nil => "nil"
  | .bool _ => "boolean"
  | .number _ => "number"
  | .string _ => "string"
  | .native _ | .function _ => "function"
  | .class _ => "class"
  | .instance _ => "instance"

/-- A number as a program prints it. -/
def numberText (x : Float) : String :=
  Decimal.plain "Infinity" x

end Value

end Treewalk
