import Treewalk.Token.Basic
/-!
# Lexical analysis

The text is cut into spans that leave nothing out: tokens, blanks, newlines, comments, single
characters that begin no token, and strings that miss their closing quote. Lines are counted over
the spans afterwards, so what is cut on one line does not depend on any other.
-/

namespace Treewalk

/-- What a span of the text is. -/
inductive Piece where
  | blank
  | newline
  | comment
  | token (kind : Kind)
  | unexpected (c : Char)
  | unterminated
deriving DecidableEq, Repr

structure Span where
  piece : Piece
  text : List Char
deriving DecidableEq, Repr

/-- Why a span is no token. -/
inductive LexicalFault where
  | unexpectedCharacter (c : Char)
  | unterminatedString
deriving DecidableEq, Repr

structure LexicalError where
  line : Nat
  fault : LexicalFault
deriving DecidableEq, Repr

/-- A span as it is reported: a token or an error. -/
inductive Item where
  | token (t : Token)
  | error (e : LexicalError)
deriving DecidableEq, Repr

namespace Lexer

def isBlank (c : Char) : Bool :=
  c = ' ' || c = '\t' || c = '\r'

def isDigit (c : Char) : Bool :=
  '0' ≤ c && c ≤ '9'

/-- The characters that begin a name: ASCII letters and the underscore. -/
def isNameStart (c : Char) : Bool :=
  ('a' ≤ c && c ≤ 'z') || ('A' ≤ c && c ≤ 'Z') || c = '_'

def isNamePart (c : Char) : Bool :=
  isNameStart c || isDigit c

/-- A reserved word or an identifier. -/
def wordKind (word : List Char) : Kind :=
  match Keyword.all.find? fun k => k.spelling.toList = word with
  | some k => .keyword k
  | none => .identifier

/-- The digits of the fraction that `cs` begins with: a point counts only before a digit. -/
def fraction (cs : List Char) : List Char :=
  match cs with
  | '.' :: rest => rest.takeWhile isDigit
  | _ => []

/-- The value of a string of digits. -/
def natural (digits : List Char) : Nat :=
  digits.foldl (fun n c => 10 * n + (c.toNat - '0'.toNat)) 0

/-- The binary64 value nearest to a decimal with the given integer digits and fraction digits. -/
def decimal (whole part : List Char) : Float :=
  Float.ofScientific (natural (whole ++ part)) true part.length

/-- A mark of one character, or of two when an equals sign follows. -/
def orEqual (alone withEqual : Mark) (rest : List Char) : Piece × Nat :=
  match rest with
  | '=' :: _ => (.token (.mark withEqual), 1)
  | _ => (.token (.mark alone), 0)

/-- The text of a line up to its newline. -/
def lineRest (cs : List Char) : List Char :=
  cs.takeWhile (· ≠ '\n')

/-- A second slash begins a comment, which leaves the newline in place. -/
def slash (rest : List Char) : Piece × Nat :=
  match rest with
  | '/' :: text => (.comment, (lineRest text).length + 1)
  | _ => (.token (.mark .slash), 0)

/-- A string closes on its own line or not at all. -/
def quoted (rest : List Char) : Piece × Nat :=
  let contents := rest.takeWhile fun c => c ≠ '"' && c ≠ '\n'
  match rest.drop contents.length with
  | '"' :: _ => (.token (.string (String.ofList contents)), contents.length + 1)
  | _ => (.unterminated, contents.length)

def number (c : Char) (rest : List Char) : Piece × Nat :=
  let whole := c :: rest.takeWhile isDigit
  let part := fraction (rest.dropWhile isDigit)
  let length := if part.isEmpty then whole.length else whole.length + 1 + part.length
  (.token (.number (decimal whole part)), length - 1)

def word (c : Char) (rest : List Char) : Piece × Nat :=
  let tail := rest.takeWhile isNamePart
  (.token (wordKind (c :: tail)), tail.length)

/-- What begins with `c`, and how many of the characters after `c` belong to it. -/
def cut (c : Char) (rest : List Char) : Piece × Nat :=
  match c with
  | '(' => (.token (.mark .leftParen), 0)
  | ')' => (.token (.mark .rightParen), 0)
  | '{' => (.token (.mark .leftBrace), 0)
  | '}' => (.token (.mark .rightBrace), 0)
  | ',' => (.token (.mark .comma), 0)
  | '.' => (.token (.mark .dot), 0)
  | '-' => (.token (.mark .minus), 0)
  | '+' => (.token (.mark .plus), 0)
  | ';' => (.token (.mark .semicolon), 0)
  | '*' => (.token (.mark .star), 0)
  | '!' => orEqual .bang .bangEqual rest
  | '=' => orEqual .equal .equalEqual rest
  | '<' => orEqual .less .lessEqual rest
  | '>' => orEqual .greater .greaterEqual rest
  | '\n' => (.newline, 0)
  | '/' => slash rest
  | '"' => quoted rest
  | _ =>
    if isBlank c then (.blank, 0)
    else if isDigit c then number c rest
    else if isNameStart c then word c rest
    else (.unexpected c, 0)

/-- The spans of a text, in order. -/
def spans : List Char → List Span
  | [] => []
  | c :: rest =>
    let (piece, more) := cut c rest
    ⟨piece, c :: rest.take more⟩ :: spans (rest.drop more)
termination_by cs => cs.length
decreasing_by simp only [List.length_drop, List.length_cons]; omega

/-- The spans leave nothing out. -/
theorem spans_text (cs : List Char) : (spans cs).flatMap (·.text) = cs := by
  fun_induction spans cs with
  | case1 => rfl
  | case2 c rest piece more _ ih => simp [ih]

end Lexer

/-- What a span on the given line is reported as, if at all. -/
def Span.item? (s : Span) (line : Nat) : Option Item :=
  match s.piece with
  | .token kind => some (.token ⟨kind, String.ofList s.text, line⟩)
  | .unexpected c => some (.error ⟨line, .unexpectedCharacter c⟩)
  | .unterminated => some (.error ⟨line, .unterminatedString⟩)
  | .blank | .newline | .comment => none

/-- The line after a span. -/
def Span.nextLine (s : Span) (line : Nat) : Nat :=
  if s.piece = .newline then line + 1 else line

/-- The reports of spans from the given line on, closed by the end-of-input token. -/
def Item.ofSpans : List Span → (line : Nat) → List Item
  | [], line => [.token ⟨.eof, "", line⟩]
  | s :: rest, line => (s.item? line).toList ++ ofSpans rest (s.nextLine line)

/-- Everything that scanning a text reports. -/
def scan (source : String) : List Item :=
  Item.ofSpans (Lexer.spans source.toList) 1

def Item.token? : Item → Option Token
  | .token t => some t
  | .error _ => none

def Item.error? : Item → Option LexicalError
  | .token _ => none
  | .error e => some e

end Treewalk
