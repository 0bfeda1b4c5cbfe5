import Treewalk.Decimal.Notation
import Treewalk.Token.Basic
/-!
# Token listings

A token is listed either as its kind, lexeme and literal, or as a JSON object.
-/

namespace Treewalk

namespace Token

open Decimal

/-- Integers below `10 ^ 15` have `.0` and no sign of zero; other numbers are in plain notation. -/
def numberText (x : Float) : String :=
  match magnitude x with
  | .finite m =>
    match m.natural? with
    | some n =>
      if n < Nat.pow 10 15 then signed (isNegative x && n ≠ 0) (Nat.toDigits 10 n ++ ['.', '0'])
      else plain "inf" x
    | none => plain "inf" x
  | _ => plain "inf" x

/-- The literal that a kind carries, or `null`. -/
def literalText : Kind → String
  | .string contents => contents
  | .number x => numberText x
  | _ => "null"

/-- Kind, lexeme and literal, separated by blanks. -/
def listing (t : Token) : String :=
  t.kind.name ++ " " ++ t.lexeme ++ " " ++ literalText t.kind

/-! ### JSON -/

def hexDigit (n : Nat) : Char :=
  Nat.digitChar n

/-- The characters that stand for `c` in a JSON string. Only quotes, backslashes and control
characters are escaped. -/
def escape (c : Char) : List Char :=
  match c with
  | '"' => ['\\', '"']
  | '\\' => ['\\', '\\']
  | '\n' => ['\\', 'n']
  | '\r' => ['\\', 'r']
  | '\t' => ['\\', 't']
  | '\x08' => ['\\', 'b']
  | '\x0c' => ['\\', 'f']
  | _ =>
    if c.toNat < 0x20 then
      ['\\', 'u', '0', '0', hexDigit (c.toNat / 16), hexDigit (c.toNat % 16)]
    else
      [c]

def quote (s : String) : String :=
  String.ofList ('"' :: s.toList.flatMap escape ++ ['"'])

/-- Exponents of the leading digit from -5 to 15 are written positionally, integers with `.0`; a tie
between shortest decimals goes to the even one. -/
def numberJson (x : Float) : String :=
  match magnitude x with
  | .finite m =>
    let d := shortest .toEven m
    if -5 ≤ d.leading ∧ d.leading < 16 then
      signed (isNegative x) (d.positional ++ if 0 ≤ d.exponent then ['.', '0'] else [])
    else
      signed (isNegative x) d.scientific
  | _ => "null"

/-- A kind with a literal is an object of one member, any other kind its name. -/
def kindJson (k : Kind) : String :=
  match k with
  | .string contents => "\x7b" ++ quote k.name ++ ":" ++ quote contents ++ "\x7d"
  | .number x => "\x7b" ++ quote k.name ++ ":" ++ numberJson x ++ "\x7d"
  | _ => quote k.name

def json (t : Token) : String :=
  "\x7b\"token_type\":" ++ kindJson t.kind ++ ",\"lexeme\":" ++ quote t.lexeme ++ ",\"line\":"
    ++ toString t.line ++ "\x7d"

end Token

end Treewalk
