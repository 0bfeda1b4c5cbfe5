import Std.Data.TreeMap
import Treewalk.Bindings
import Treewalk.Diagnostic
import Treewalk.Tree.Basic
/-!
# Resolution of names

A walk over the tree with a stack of scopes that follows the text: a block, a function with its
parameters, the body of a class (which binds `this`) and the body of a class with a superclass
(which binds `super` outside of that) each open one. A reference is resolved to the number of scopes
between it and the innermost one that has declared its name by then. The outermost level of a
program is no scope, and what is found in none is global.

The same walk finds the errors that show without running the program. It goes on after an error.
-/

namespace Treewalk

/-- The body that the walk is in, which decides what may be returned. -/
inductive FunctionContext where
  | none
  | function
  | initializer
  | method
deriving DecidableEq, Repr

/-- The class that the walk is in, which decides whether `this` and `super` mean anything. -/
inductive ClassContext where
  | none
  | plain
  | derived
deriving DecidableEq, Repr

/-- How a reference was resolved; without a distance it is global. -/
structure Reference where
  node : NodeId
  name : String
  distance : Option Nat
deriving DecidableEq, Repr

structure Resolver where
  /-- The scopes, innermost first, and whether each name is past its own initializer. -/
  scopes : List (Bindings Bool)
  inFunction : FunctionContext
  inClass : ClassContext
  /-- The references so far, latest first. -/
  references : List Reference
  /-- The errors so far, latest first. -/
  errors : List StaticError

namespace Resolver

def initial : Resolver := ⟨[], .none, .none, [], []⟩

def error (t : Token) (fault : StaticFault) (r : Resolver) : Resolver :=
  { r with errors := ⟨t, fault⟩ :: r.errors }

def errorIf (condition : Bool) (t : Token) (fault : StaticFault) (r : Resolver) : Resolver :=
  if condition then r.error t fault else r

def push (scope : Bindings Bool) (r : Resolver) : Resolver :=
  { r with scopes := scope :: r.scopes }

def pop (r : Resolver) : Resolver :=
  { r with scopes := r.scopes.tail }

/-- Binds a name in the innermost scope, if there is one. -/
def bind (x : String) (isDefined : Bool) (r : Resolver) : Resolver :=
  match r.scopes with
  | [] => r
  | scope :: outer => { r with scopes := scope.set x isDefined :: outer }

/-- Whether the innermost scope has the name in the given state. -/
def innermost? (x : String) (r : Resolver) : Option Bool :=
  r.scopes.head?.bind (·.get? x)

/-- A second declaration in one scope is an error and keeps the first. -/
def declare (name : Token) (r : Resolver) : Resolver :=
  if (r.innermost? name.lexeme).isSome then r.error name .alreadyDeclared
  else r.bind name.lexeme false

def define (name : Token) (r : Resolver) : Resolver :=
  r.bind name.lexeme true

def declareAll (names : List Token) (r : Resolver) : Resolver :=
  names.foldl (fun r name => (r.declare name).define name) r

/-- Resolves a reference to the innermost scope that has its name. -/
def refer (node : NodeId) (name : Token) (r : Resolver) : Resolver :=
  let distance := r.scopes.findIdx? (·.contains name.lexeme)
  { r with references := ⟨node, name.lexeme, distance⟩ :: r.references }

/-- A call of a property named like the initializer. -/
def checkCallee (callee : Expr) (r : Resolver) : Resolver :=
  match callee with
  | .get _ name => r.errorIf (name.lexeme = initializerName) name .directInitializerCall
  | _ => r

/-- A superclass that is spelled like the class itself. -/
def checkSuperclass (name : Token) (superclass : Expr) (r : Resolver) : Resolver :=
  match superclass with
  | .variable _ superName => r.errorIf (superName.lexeme = name.lexeme) superName .selfInheritance
  | _ => r

/-- A return outside of functions, or one that would hide the new instance. -/
def checkReturn (keyword : Token) (hasValue : Bool) (r : Resolver) : Resolver :=
  (r.errorIf (r.inFunction = .none) keyword .returnAtTopLevel).errorIf
    (hasValue && r.inFunction = .initializer) keyword .returnFromInitializer

def this (node : NodeId) (keyword : Token) (r : Resolver) : Resolver :=
  match r.inClass with
  | .none => r.error keyword .thisOutsideClass
  | .plain | .derived => r.refer node keyword

def super (node : NodeId) (keyword : Token) (r : Resolver) : Resolver :=
  match r.inClass with
  | .none => r.error keyword .superOutsideClass
  | .plain => r.error keyword .superWithoutSuperclass
  | .derived => r.refer node keyword

/-! ### The walk -/

mutual

def expr : Expr → Resolver → Resolver
  | .literal _, r => r
  | .grouping inner, r => expr inner r
  | .unary _ operand, r => expr operand r
  | .binary left _ right, r => expr right (expr left r)
  | .logical left _ right, r => expr right (expr left r)
  | .variable node name, r =>
    (r.errorIf (r.innermost? name.lexeme = some false) name .ownInitializer).refer node name
  | .assign node name value, r => (expr value r).refer node name
  | .call callee _ arguments, r => exprs arguments (expr callee (r.checkCallee callee))
  | .get object _, r => expr object r
  | .set object _ value, r => expr object (expr value r)
  | .this node keyword, r => r.this node keyword
  | .super node keyword _, r => r.super node keyword

def exprs : List Expr → Resolver → Resolver
  | [], r => r
  | e :: rest, r => exprs rest (expr e r)

end

mutual

def stmt : Stmt → Resolver → Resolver
  | .expression e, r => expr e r
  | .print e, r => expr e r
  | .var name none, r => (r.declare name).define name
  | .var name (some e), r => (expr e (r.declare name)).define name
  | .block body, r => (stmts body (r.push [])).pop
  | .if condition consequent none, r => stmt consequent (expr condition r)
  | .if condition consequent (some alternative), r =>
    stmt alternative (stmt consequent (expr condition r))
  | .while condition body, r => stmt body (expr condition r)
  | .function f, r => functionDecl f .function ((r.declare f.name).define f.name)
  | .return keyword none, r => r.checkReturn keyword false
  | .return keyword (some e), r => expr e (r.checkReturn keyword true)
  | .class name none ms, r =>
    let inside := { (r.declare name).define name with inClass := .plain }
    { (methods ms (inside.push [("this", true)])).pop with inClass := r.inClass }
  | .class name (some superclass) ms, r =>
    let named := (r.declare name).define name
    let inside := expr superclass
      { named.checkSuperclass name superclass with inClass := .derived }
    let body := (inside.push [("super", true)]).push [("this", true)]
    { (methods ms body).pop.pop with inClass := r.inClass }

def stmts : List Stmt → Resolver → Resolver
  | [], r => r
  | s :: rest, r => stmts rest (stmt s r)

/-- One scope holds the parameters and the body's own declarations. -/
def functionDecl : FunctionDecl → FunctionContext → Resolver → Resolver
  | ⟨_, parameters, body⟩, context, r =>
    let inside := { (r.push []).declareAll parameters with inFunction := context }
    { (stmts body inside).pop with inFunction := r.inFunction }

def methods : List FunctionDecl → Resolver → Resolver
  | [], r => r
  | m :: rest, r =>
    methods rest (functionDecl m (if m.isInitializer then .initializer else .method) r)

end

end Resolver

/-- What resolving a program finds. -/
structure Resolution where
  /-- The references in the order of the walk. -/
  references : List Reference
  /-- The errors in the order of the walk. -/
  errors : List StaticError

/-- Resolves the statements of a program. -/
def resolve (program : List Stmt) : Resolution :=
  let r := Resolver.stmts program .initial
  ⟨r.references.reverse, r.errors.reverse⟩

/-- The distances of all references that are not global. -/
abbrev Distances := Std.TreeMap NodeId Nat

/-- Adds the distances of resolved references. -/
def Distances.record (d : Distances) (references : List Reference) : Distances :=
  references.foldl (fun d ref =>
    match ref.distance with
    | some n => d.insert ref.node n
    | none => d) d

end Treewalk
