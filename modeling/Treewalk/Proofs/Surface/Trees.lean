import Treewalk.Tree.Parser
/-!
# Trees with `for`

Trees that keep a `for` as it is written. Only declarations bring names, and only statements are
branches and bodies, so the two are types of their own. Lowering such a tree gives the one that the
parser makes (`Declaration.loweredAll`), where a `for` is blocks around a `while`.
-/

namespace Treewalk
namespace Surface

/-- What a `for` begins with. -/
inductive Initial where
  | variable (name : Token) (value : Option Expr)
  | expression (e : Expr)

mutual

inductive Stmt where
  | expression (e : Expr)
  | print (e : Expr)
  | block (body : List Declaration)
  | if (condition : Expr) (consequent : Stmt) (alternative : Option Stmt)
  | while (condition : Expr) (body : Stmt)
  | for (initial : Option Initial) (condition increment : Option Expr) (body : Stmt)
  | return (keyword : Token) (value : Option Expr)

inductive Declaration where
  | statement (s : Stmt)
  | variable (name : Token) (value : Option Expr)
  | function (f : FunctionDecl)
  | class (name : Token) (superclass : Option Expr) (methods : List FunctionDecl)

structure FunctionDecl where
  name : Token
  parameters : List Token
  body : List Declaration

end

/-- A whole program. -/
abbrev Program := List Declaration

def FunctionDecl.isInitializer (f : FunctionDecl) : Bool :=
  f.name.lexeme = initializerName

/-! ### Lowering -/

def Initial.lowered : Initial → Treewalk.Stmt
  | .variable name value => .var name value
  | .expression e => .expression e

mutual

def Stmt.lowered : Stmt → Treewalk.Stmt
  | .expression e => .expression e
  | .print e => .print e
  | .block body => .block (Declaration.loweredAll body)
  | .if condition consequent none => .if condition consequent.lowered none
  | .if condition consequent (some alternative) =>
    .if condition consequent.lowered (some alternative.lowered)
  | .while condition body => .while condition body.lowered
  | .for initial condition increment body =>
    Rule.desugarFor (initial.map Initial.lowered) condition increment body.lowered
  | .return keyword value => .return keyword value

def Declaration.lowered : Declaration → Treewalk.Stmt
  | .statement s => s.lowered
  | .variable name value => .var name value
  | .function f => .function f.lowered
  | .class name superclass methods => .class name superclass (FunctionDecl.loweredAll methods)

def Declaration.loweredAll : List Declaration → List Treewalk.Stmt
  | [] => []
  | d :: rest => d.lowered :: Declaration.loweredAll rest

def FunctionDecl.lowered : FunctionDecl → Treewalk.FunctionDecl
  | ⟨name, parameters, body⟩ => ⟨name, parameters, Declaration.loweredAll body⟩

def FunctionDecl.loweredAll : List FunctionDecl → List Treewalk.FunctionDecl
  | [] => []
  | f :: rest => f.lowered :: FunctionDecl.loweredAll rest

end

@[simp] theorem FunctionDecl.name_lowered (f : FunctionDecl) : f.lowered.name = f.name := by
  cases f; rfl

@[simp] theorem FunctionDecl.parameters_lowered (f : FunctionDecl) :
    f.lowered.parameters = f.parameters := by
  cases f; rfl

@[simp] theorem FunctionDecl.body_lowered (f : FunctionDecl) :
    f.lowered.body = Declaration.loweredAll f.body := by
  cases f; rfl

@[simp] theorem FunctionDecl.isInitializer_lowered (f : FunctionDecl) :
    f.lowered.isInitializer = f.isInitializer := by
  cases f; rfl

end Surface
end Treewalk
