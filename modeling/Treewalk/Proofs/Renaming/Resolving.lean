import Treewalk.Proofs.Renaming.Trees
import Treewalk.Proofs.Resolution.Calls
/-!
# Resolving renamed programs

The walk looks at the spelling of names only. So of a renamed program it records the renamed
references, with the distances as they are, and it finds the same errors at the renamed tokens. At
the outermost level no scope is open, so of two programs one behind the other it finds what it finds
of each (`resolve_append_rename`).
-/

namespace Treewalk

def Reference.rename (ρ : Renaming) (x : Reference) : Reference := { x with node := ρ.node x.node }

def StaticError.rename (ρ : Renaming) (e : StaticError) : StaticError := ⟨e.token.rename ρ, e.fault⟩

/-- The renamed walk, going on from what an earlier one has recorded. -/
def Resolver.rename (ρ : Renaming) (r old : Resolver) : Resolver :=
  { r with
    references := r.references.map (Reference.rename ρ) ++ old.references
    errors := r.errors.map (StaticError.rename ρ) ++ old.errors }

namespace Resolver

variable (ρ : Renaming) (r old : Resolver)

theorem error_rename (t : Token) (fault : StaticFault) :
    (r.rename ρ old).error (t.rename ρ) fault = (r.error t fault).rename ρ old := rfl

theorem push_rename (scope : Bindings Bool) :
    (r.rename ρ old).push scope = (r.push scope).rename ρ old := rfl

theorem pop_rename : (r.rename ρ old).pop = r.pop.rename ρ old := rfl

theorem refer_rename (node : NodeId) (name : Token) :
    (r.rename ρ old).refer (ρ.node node) (name.rename ρ) = (r.refer node name).rename ρ old := rfl

theorem errorIf_rename (condition : Bool) (t : Token) (fault : StaticFault) :
    (r.rename ρ old).errorIf condition (t.rename ρ) fault =
      (r.errorIf condition t fault).rename ρ old := by
  cases condition <;> rfl

theorem bind_rename (x : String) (isDefined : Bool) :
    (r.rename ρ old).bind x isDefined = (r.bind x isDefined).rename ρ old := by
  obtain ⟨_ | ⟨scope, outer⟩, inFunction, inClass, references, errors⟩ := r <;> rfl

theorem declare_rename (name : Token) :
    (r.rename ρ old).declare (name.rename ρ) = (r.declare name).rename ρ old := by
  have hinnermost : (r.rename ρ old).innermost? name.lexeme = r.innermost? name.lexeme := rfl
  unfold declare
  rw [Token.lexeme_rename, hinnermost, bind_rename, error_rename]
  split <;> rfl

theorem define_rename (name : Token) :
    (r.rename ρ old).define (name.rename ρ) = (r.define name).rename ρ old :=
  bind_rename ..

theorem declareAll_rename (names : List Token) :
    (r.rename ρ old).declareAll (names.map (Token.rename ρ)) = (r.declareAll names).rename ρ old := by
  induction names generalizing r with
  | nil => rfl
  | cons name rest ih =>
    have hfirst : ((r.rename ρ old).declare (name.rename ρ)).define (name.rename ρ) =
        ((r.declare name).define name).rename ρ old := by
      rw [declare_rename, define_rename]
    exact (congrArg (declareAll (rest.map (Token.rename ρ))) hfirst).trans (ih _)

theorem checkCallee_rename (callee : Expr) :
    (r.rename ρ old).checkCallee (callee.rename ρ) = (r.checkCallee callee).rename ρ old := by
  cases callee with
  | get object name => exact errorIf_rename ..
  | _ => rfl

theorem checkSuperclass_rename (name : Token) (superclass : Expr) :
    (r.rename ρ old).checkSuperclass (name.rename ρ) (superclass.rename ρ) =
      (r.checkSuperclass name superclass).rename ρ old := by
  match superclass with
  | .variable node superName => exact errorIf_rename ..
  | .literal _ | .grouping _ | .unary _ _ | .binary _ _ _ | .logical _ _ _ | .assign _ _ _
  | .call _ _ _ | .get _ _ | .set _ _ _ | .this _ _ | .super _ _ _ => rfl

theorem checkReturn_rename (keyword : Token) (hasValue : Bool) :
    (r.rename ρ old).checkReturn (keyword.rename ρ) hasValue = (r.checkReturn keyword hasValue).rename ρ old := by
  unfold checkReturn
  rw [errorIf_rename, errorIf_rename]
  rfl

theorem this_rename (node : NodeId) (keyword : Token) :
    (r.rename ρ old).this (ρ.node node) (keyword.rename ρ) = (r.this node keyword).rename ρ old := by
  unfold this
  obtain ⟨_, _, inClass, _, _⟩ := r
  cases inClass <;> rfl

theorem super_rename (node : NodeId) (keyword : Token) :
    (r.rename ρ old).super (ρ.node node) (keyword.rename ρ) =
      (r.super node keyword).rename ρ old := by
  unfold super
  obtain ⟨_, _, inClass, _, _⟩ := r
  cases inClass <;> rfl

theorem classBody_rename (name : Token) :
    (r.rename ρ old).classBody (name.rename ρ) = (r.classBody name).rename ρ old := by
  unfold classBody named
  rw [declare_rename, define_rename]
  rfl

theorem beforeSuperclass_rename (name : Token) (superclass : Expr) :
    (r.rename ρ old).beforeSuperclass (name.rename ρ) (superclass.rename ρ) =
      (r.beforeSuperclass name superclass).rename ρ old := by
  unfold beforeSuperclass named
  rw [declare_rename, define_rename, checkSuperclass_rename]
  rfl

theorem functionBody_rename (parameters : List Token) (context : FunctionContext) :
    (r.rename ρ old).functionBody (parameters.map (Token.rename ρ)) context =
      (r.functionBody parameters context).rename ρ old := by
  unfold functionBody
  rw [push_rename, declareAll_rename]
  rfl

/-! ### The walk -/

mutual

theorem expr_rename : (e : Expr) → (r : Resolver) →
    expr (e.rename ρ) (r.rename ρ old) = (expr e r).rename ρ old
  | .literal _, _ => rfl
  | .grouping inner, r => expr_rename inner r
  | .unary _ operand, r => expr_rename operand r
  | .binary left _ right, r | .logical left _ right, r => by
    rw [Expr.rename, expr, expr_rename left, expr_rename right, expr]
  | .variable node name, r => by
    have herror := errorIf_rename ρ r old (r.innermost? name.lexeme = some false) name .ownInitializer
    exact congrArg (refer (ρ.node node) (name.rename ρ)) herror
  | .assign _ _ value, r => by
    rw [Expr.rename, expr, expr_rename value, refer_rename, expr]
  | .call callee _ arguments, r => by
    rw [Expr.rename, expr, checkCallee_rename, expr_rename callee, exprs_rename arguments, expr]
  | .get object _, r => expr_rename object r
  | .set object _ value, r => by
    rw [Expr.rename, expr, expr_rename value, expr_rename object, expr]
  | .this _ _, r => this_rename ..
  | .super _ _ _, r => super_rename ..

theorem exprs_rename : (es : List Expr) → (r : Resolver) →
    exprs (Expr.renameAll ρ es) (r.rename ρ old) = (exprs es r).rename ρ old
  | [], _ => rfl
  | e :: rest, r => by rw [Expr.renameAll, exprs, expr_rename e, exprs_rename rest, exprs]

end

mutual

theorem stmt_rename : (s : Stmt) → (r : Resolver) →
    stmt (s.rename ρ) (r.rename ρ old) = (stmt s r).rename ρ old
  | .expression e, r | .print e, r => expr_rename ρ old e r
  | .var name none, r => by
    rw [Stmt.rename, stmt, declare_rename, define_rename, stmt]
  | .var name (some e), r => by
    rw [Stmt.rename, stmt, declare_rename, expr_rename, define_rename, stmt]
  | .block body, r => by
    rw [Stmt.rename, stmt, push_rename, stmts_rename body, pop_rename, stmt]
  | .if condition consequent none, r => by
    rw [Stmt.rename, stmt, expr_rename, stmt_rename consequent, stmt]
  | .if condition consequent (some alternative), r => by
    rw [Stmt.rename, stmt, expr_rename, stmt_rename consequent, stmt_rename alternative, stmt]
  | .while condition body, r => by
    rw [Stmt.rename, stmt, expr_rename, stmt_rename body, stmt]
  | .function f, r => by
    rw [Stmt.rename, stmt, FunctionDecl.name_rename, declare_rename, define_rename,
      functionDecl_rename f, stmt]
  | .return keyword none, r => checkReturn_rename ..
  | .return keyword (some e), r => by
    rw [Stmt.rename, stmt, checkReturn_rename, expr_rename, stmt]
  | .class name none ms, r => by
    show { (methods (Stmt.renameMethods ρ ms) ((r.rename ρ old).classBody (name.rename ρ))).pop with
      inClass := r.inClass } = _
    rw [classBody_rename, methods_rename ms]
    rfl
  | .class name (some superclass) ms, r => by
    have hsuperclass := expr_rename ρ old superclass (r.beforeSuperclass name superclass)
    rw [← beforeSuperclass_rename] at hsuperclass
    show { (methods (Stmt.renameMethods ρ ms) (((expr (superclass.rename ρ)
      ((r.rename ρ old).beforeSuperclass (name.rename ρ) (superclass.rename ρ))).push
        [("super", true)]).push [("this", true)])).pop.pop with inClass := r.inClass } = _
    rw [hsuperclass, push_rename, push_rename, methods_rename ms]
    rfl

theorem stmts_rename : (ss : List Stmt) → (r : Resolver) →
    stmts (Stmt.renameAll ρ ss) (r.rename ρ old) = (stmts ss r).rename ρ old
  | [], _ => rfl
  | s :: rest, r => by rw [Stmt.renameAll, stmts, stmt_rename s, stmts_rename rest, stmts]

theorem functionDecl_rename : (f : FunctionDecl) → (context : FunctionContext) → (r : Resolver) →
    functionDecl (f.rename ρ) context (r.rename ρ old) = (functionDecl f context r).rename ρ old
  | ⟨_, parameters, body⟩, context, r => by
    show { (stmts (Stmt.renameAll ρ body) ((r.rename ρ old).functionBody
      (parameters.map (Token.rename ρ)) context)).pop with inFunction := r.inFunction } = _
    rw [functionBody_rename, stmts_rename body]
    rfl

theorem methods_rename : (ms : List FunctionDecl) → (r : Resolver) →
    methods (Stmt.renameMethods ρ ms) (r.rename ρ old) = (methods ms r).rename ρ old
  | [], _ => rfl
  | m :: rest, r => by
    rw [Stmt.renameMethods, methods, FunctionDecl.isInitializer_rename, functionDecl_rename m,
      methods_rename rest, methods]

end

theorem stmts_append (p q : List Stmt) : stmts (p ++ q) r = stmts q (stmts p r) := by
  induction p generalizing r with
  | nil => rfl
  | cons s rest ih => exact ih (stmt s r)

end Resolver

/-- Behind a program another one is resolved as ever, since no scope is open there. If it has been
renamed, so are its references and errors. -/
theorem resolve_append_rename (ρ : Renaming) (p q : List Stmt) :
    resolve (p ++ q.map (Stmt.rename ρ)) =
      ⟨(resolve p).references ++ (resolve q).references.map (Reference.rename ρ),
        (resolve p).errors ++ (resolve q).errors.map (StaticError.rename ρ)⟩ := by
  have hwalk := Resolver.stmts_rename ρ (Resolver.stmts p .initial) q .initial
  have hgains := Resolver.stmts_gains p .initial
  have hbetween : Resolver.initial.rename ρ (Resolver.stmts p .initial) =
      Resolver.stmts p .initial := by
    generalize Resolver.stmts p .initial = r at hgains
    obtain ⟨scopes, inFunction, inClass, references, errors⟩ := r
    obtain ⟨-, hscopes, hfunction, hclass⟩ := hgains
    obtain rfl : scopes = [] := hscopes
    obtain rfl : inFunction = .none := hfunction
    obtain rfl : inClass = .none := hclass
    rfl
  rw [hbetween, Stmt.renameAll_eq] at hwalk
  rw [resolve, Resolver.stmts_append, hwalk]
  simp only [resolve, Resolver.rename, List.reverse_append, List.map_reverse]

theorem resolve_rename (ρ : Renaming) (p : List Stmt) :
    resolve (p.map (Stmt.rename ρ)) =
      ⟨(resolve p).references.map (Reference.rename ρ),
        (resolve p).errors.map (StaticError.rename ρ)⟩ :=
  resolve_append_rename ρ [] p

end Treewalk
