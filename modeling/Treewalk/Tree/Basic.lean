import Treewalk.Token.Basic
/-!
# Syntax trees

Trees keep the tokens they were read from, because errors found later point at them. A node that
refers to a name has an identity of its own: two references of one spelling may mean different
variables.
-/

namespace Treewalk

abbrev NodeId := Nat

inductive Literal where
  | nil
  | bool (b : Bool)
  | number (x : Float)
  | string (s : String)
deriving DecidableEq, Repr

inductive Expr where
  | literal (value : Literal)
  | grouping (inner : Expr)
  | unary (operator : Token) (operand : Expr)
  | binary (left : Expr) (operator : Token) (right : Expr)
  /-- The right operand is evaluated only if the left one does not decide. -/
  | logical (left : Expr) (operator : Token) (right : Expr)
  | variable (node : NodeId) (name : Token)
  | assign (node : NodeId) (name : Token) (value : Expr)
  /-- Errors of a call are reported on the line of its closing parenthesis. -/
  | call (callee : Expr) (closing : Token) (arguments : List Expr)
  | get (object : Expr) (name : Token)
  | set (object : Expr) (name : Token) (value : Expr)
  | this (node : NodeId) (keyword : Token)
  | super (node : NodeId) (keyword : Token) (method : Token)
deriving Repr

mutual

inductive Stmt where
  | expression (e : Expr)
  | print (e : Expr)
  | var (name : Token) (initial : Option Expr)
  | block (body : List Stmt)
  | if (condition : Expr) (consequent : Stmt) (alternative : Option Stmt)
  | while (condition : Expr) (body : Stmt)
  | function (f : FunctionDecl)
  | return (keyword : Token) (value : Option Expr)
  | class (name : Token) (superclass : Option Expr) (methods : List FunctionDecl)

/-- A function or a method. -/
structure FunctionDecl where
  name : Token
  parameters : List Token
  body : List Stmt

end

deriving instance Repr for Stmt, FunctionDecl

/-- The method that runs on a new instance. -/
def initializerName : String := "init"

/-- The most parameters a function may have, and the most arguments a call. -/
def maxArity : Nat := 255

def FunctionDecl.isInitializer (f : FunctionDecl) : Bool :=
  f.name.lexeme = initializerName

end Treewalk
