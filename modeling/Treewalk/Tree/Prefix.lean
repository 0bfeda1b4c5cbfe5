import Treewalk.Decimal.Notation
import Treewalk.Tree.Basic
/-!
# Trees in prefix form

Every node is written as a parenthesised list whose head says what it is.
-/

namespace Treewalk

open Decimal

/-- Integers have their whole expansion and `.0`; other numbers are in plain notation. -/
def Literal.numberText (x : Float) : String :=
  match magnitude x with
  | .finite m =>
    match m.natural? with
    | some n => signed (isNegative x) (Nat.toDigits 10 n ++ ['.', '0'])
    | none => plain "inf" x
  | _ => plain "inf" x

def Literal.prefixText : Literal → String
  | .nil => "nil"
  | .bool true => "true"
  | .bool false => "false"
  | .number x => numberText x
  | .string s => s

/-- The items of a list, each behind a blank. -/
def spaced (items : List String) : String :=
  String.join (items.map (" " ++ ·))

/-- A head and its items, in parentheses. -/
def listed (head : String) (items : List String) : String :=
  "(" ++ head ++ spaced items ++ ")"

mutual

def Expr.prefixText : Expr → String
  | .literal value => value.prefixText
  | .grouping inner => listed "group" [inner.prefixText]
  | .unary operator operand => listed operator.lexeme [operand.prefixText]
  | .binary left operator right => listed operator.lexeme [left.prefixText, right.prefixText]
  | .logical left operator right => listed operator.lexeme [left.prefixText, right.prefixText]
  | .variable _ name => name.lexeme
  | .assign _ name value => listed "=" [name.lexeme, value.prefixText]
  | .call callee _ arguments => listed "call" (callee.prefixText :: Expr.prefixTexts arguments)
  | .get object name => listed "." [object.prefixText, name.lexeme]
  | .set object name value =>
    listed "=" [listed "." [object.prefixText, name.lexeme], value.prefixText]
  | .this _ _ => "this"
  | .super _ _ method => listed "super" [method.lexeme]

def Expr.prefixTexts : List Expr → List String
  | [] => []
  | e :: rest => e.prefixText :: Expr.prefixTexts rest

end

mutual

def Stmt.prefixText : Stmt → String
  | .expression e => listed ";" [e.prefixText]
  | .print e => listed "print" [e.prefixText]
  | .var name none => listed "var" [name.lexeme]
  | .var name (some e) => listed "var" [name.lexeme, "=", e.prefixText]
  | .block body => listed "block" (Stmt.prefixTexts body)
  | .if condition consequent none => listed "if" [condition.prefixText, consequent.prefixText]
  | .if condition consequent (some alternative) =>
    listed "if" [condition.prefixText, consequent.prefixText, alternative.prefixText]
  | .while condition body => listed "while" [condition.prefixText, body.prefixText]
  | .function f => f.prefixText "fun"
  | .return _ none => listed "return" []
  | .return _ (some e) => listed "return" [e.prefixText]
  | .class name none methods => listed "class" (name.lexeme :: Stmt.methodTexts methods)
  | .class name (some e) methods =>
    listed "class" (name.lexeme :: "<" :: e.prefixText :: Stmt.methodTexts methods)

def Stmt.prefixTexts : List Stmt → List String
  | [] => []
  | s :: rest => s.prefixText :: Stmt.prefixTexts rest

def FunctionDecl.prefixText : FunctionDecl → (head : String) → String
  | ⟨name, parameters, body⟩, head =>
    let names := "(" ++ " ".intercalate (parameters.map (·.lexeme)) ++ ")"
    listed head (name.lexeme :: names :: Stmt.prefixTexts body)

def Stmt.methodTexts : List FunctionDecl → List String
  | [] => []
  | f :: rest => f.prefixText "method" :: Stmt.methodTexts rest

end

end Treewalk
