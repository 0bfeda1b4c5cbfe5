import Treewalk.Proofs.Resolution.Walk
/-!
# The calls of a walk

A walk over a program consists of calls: at each it is in front of something, in a state of its own.
`Visits` says which calls the walks over given programs make. What a call finds, the walk that it is
a part of has found in the end (`Visits.onward`).
-/

namespace Treewalk
namespace Resolver

/-! ### States inside declarations -/

/-- The number of scopes up to the innermost one that has the name. -/
def distance? (x : String) (r : Resolver) : Option Nat :=
  r.scopes.findIdx? (·.contains x)

/-- Behind the name of a function or class. -/
def named (name : Token) (r : Resolver) : Resolver :=
  (r.declare name).define name

/-- In front of a superclass. -/
def beforeSuperclass (name : Token) (superclass : Expr) (r : Resolver) : Resolver :=
  { (r.named name).checkSuperclass name superclass with inClass := .derived }

/-- In front of the methods of a class without a superclass. -/
def classBody (name : Token) (r : Resolver) : Resolver :=
  push [("this", true)] { r.named name with inClass := .plain }

/-- In front of the methods of a class with a superclass. -/
def subclassBody (name : Token) (superclass : Expr) (r : Resolver) : Resolver :=
  ((expr superclass (r.beforeSuperclass name superclass)).push [("super", true)]).push
    [("this", true)]

/-- In front of the statements of a function. -/
def functionBody (parameters : List Token) (context : FunctionContext) (r : Resolver) : Resolver :=
  { (r.push []).declareAll parameters with inFunction := context }

end Resolver

/-- The body that a method is. -/
def FunctionDecl.methodContext (m : FunctionDecl) : FunctionContext :=
  if m.isInitializer then .initializer else .method

open Resolver

/-- What a walk is in front of, and its state there. -/
inductive Call where
  | expr (e : Expr) (r : Resolver)
  | exprs (es : List Expr) (r : Resolver)
  | stmt (s : Stmt) (r : Resolver)
  | stmts (ss : List Stmt) (r : Resolver)
  | function (f : FunctionDecl) (context : FunctionContext) (r : Resolver)
  | methods (ms : List FunctionDecl) (r : Resolver)

namespace Call

/-- The state behind. -/
def result : Call → Resolver
  | expr e r => Resolver.expr e r
  | exprs es r => Resolver.exprs es r
  | stmt s r => Resolver.stmt s r
  | stmts ss r => Resolver.stmts ss r
  | function f context r => Resolver.functionDecl f context r
  | methods ms r => Resolver.methods ms r

/-- The calls that a call makes itself, in order. -/
def parts : Call → List Call
  | .expr (.literal _) _ | .expr (.variable ..) _ | .expr (.this ..) _ | .expr (.super ..) _ => []
  | .expr (.grouping inner) r => [.expr inner r]
  | .expr (.unary _ operand) r => [.expr operand r]
  | .expr (.binary left _ right) r | .expr (.logical left _ right) r =>
    [.expr left r, .expr right (Resolver.expr left r)]
  | .expr (.assign _ _ value) r => [.expr value r]
  | .expr (.call callee _ arguments) r =>
    [.expr callee (r.checkCallee callee),
      .exprs arguments (Resolver.expr callee (r.checkCallee callee))]
  | .expr (.get object _) r => [.expr object r]
  | .expr (.set object _ value) r => [.expr value r, .expr object (Resolver.expr value r)]
  | .exprs [] _ => []
  | .exprs (e :: rest) r => [.expr e r, .exprs rest (Resolver.expr e r)]
  | .stmt (.expression e) r | .stmt (.print e) r => [.expr e r]
  | .stmt (.var _ none) _ => []
  | .stmt (.var name (some e)) r => [.expr e (r.declare name)]
  | .stmt (.block body) r => [.stmts body (r.push [])]
  | .stmt (.if condition consequent none) r =>
    [.expr condition r, .stmt consequent (Resolver.expr condition r)]
  | .stmt (.if condition consequent (some alternative)) r =>
    [.expr condition r, .stmt consequent (Resolver.expr condition r),
      .stmt alternative (Resolver.stmt consequent (Resolver.expr condition r))]
  | .stmt (.while condition body) r =>
    [.expr condition r, .stmt body (Resolver.expr condition r)]
  | .stmt (.function f) r => [.function f .function (r.named f.name)]
  | .stmt (.return _ none) _ => []
  | .stmt (.return keyword (some e)) r => [.expr e (r.checkReturn keyword true)]
  | .stmt (.class name none ms) r => [.methods ms (r.classBody name)]
  | .stmt (.class name (some superclass) ms) r =>
    [.expr superclass (r.beforeSuperclass name superclass),
      .methods ms (r.subclassBody name superclass)]
  | .stmts [] _ => []
  | .stmts (s :: rest) r => [.stmt s r, .stmts rest (Resolver.stmt s r)]
  | .function ⟨_, parameters, body⟩ context r => [.stmts body (r.functionBody parameters context)]
  | .methods [] _ => []
  | .methods (m :: rest) r =>
    [.function m m.methodContext r, .methods rest (Resolver.functionDecl m m.methodContext r)]

/-- What a part finds the whole has found in the end. -/
theorem part_onward {c p : Call} (h : p ∈ c.parts) : Onward p.result c.result := by
  cases c with
  | expr e r =>
    cases e <;> simp only [parts, List.mem_cons, List.not_mem_nil, or_false] at h
    case grouping | unary | get => subst h; exact .refl _
    case binary | logical =>
      rcases h with rfl | rfl
      · exact (expr_notes _ _).toOnward
      · exact .refl _
    case assign => subst h; exact (refer_notes ..).toOnward
    case call =>
      rcases h with rfl | rfl
      · exact (exprs_notes _ _).toOnward
      · exact .refl _
    case set =>
      rcases h with rfl | rfl
      · exact (expr_notes _ _).toOnward
      · exact .refl _
  | exprs es r =>
    cases es <;> simp only [parts, List.mem_cons, List.not_mem_nil, or_false] at h
    rcases h with rfl | rfl
    · exact (exprs_notes _ _).toOnward
    · exact .refl _
  | stmt s r =>
    match s with
    | .expression _ | .print _ =>
      obtain rfl := List.mem_singleton.1 h; exact .refl _
    | .var _ none | .return _ none => cases h
    | .var name (some e) => obtain rfl := List.mem_singleton.1 h; exact bind_onward ..
    | .block body => obtain rfl := List.mem_singleton.1 h; exact ⟨List.suffix_refl _, List.suffix_refl _⟩
    | .if condition consequent none =>
      simp only [parts, List.mem_cons, List.not_mem_nil, or_false] at h
      rcases h with rfl | rfl
      · exact (stmt_gains ..).toOnward
      · exact .refl _
    | .if condition consequent (some alternative) =>
      simp only [parts, List.mem_cons, List.not_mem_nil, or_false] at h
      rcases h with rfl | rfl | rfl
      · exact (stmt_gains ..).toOnward.trans (stmt_gains ..).toOnward
      · exact (stmt_gains ..).toOnward
      · exact .refl _
    | .while condition body =>
      simp only [parts, List.mem_cons, List.not_mem_nil, or_false] at h
      rcases h with rfl | rfl
      · exact (stmt_gains ..).toOnward
      · exact .refl _
    | .function f => obtain rfl := List.mem_singleton.1 h; exact .refl _
    | .return keyword (some e) => obtain rfl := List.mem_singleton.1 h; exact .refl _
    | .class name none ms =>
      obtain rfl := List.mem_singleton.1 h; exact ⟨List.suffix_refl _, List.suffix_refl _⟩
    | .class name (some superclass) ms =>
      simp only [parts, List.mem_cons, List.not_mem_nil, or_false] at h
      have body := methods_gains ms (r.subclassBody name superclass)
      rcases h with rfl | rfl
      · exact ⟨body.references, body.errors⟩
      · exact ⟨List.suffix_refl _, List.suffix_refl _⟩
  | stmts ss r =>
    cases ss <;> simp only [parts, List.mem_cons, List.not_mem_nil, or_false] at h
    rcases h with rfl | rfl
    · exact (stmts_gains _ _).toOnward
    · exact .refl _
  | function f context r =>
    obtain ⟨_, _, _⟩ := f
    obtain rfl := List.mem_singleton.1 h; exact ⟨List.suffix_refl _, List.suffix_refl _⟩
  | methods ms r =>
    cases ms <;> simp only [parts, List.mem_cons, List.not_mem_nil, or_false] at h
    rcases h with rfl | rfl
    · exact (methods_gains _ _).toOnward
    · exact .refl _

end Call

/-- The calls that the walks over the given programs make. -/
inductive Visits (programs : List (List Stmt)) : Call → Prop where
  | program {p : List Stmt} : p ∈ programs → Visits programs (.stmts p .initial)
  | part {c p : Call} : Visits programs c → p ∈ c.parts → Visits programs p

namespace Visits

variable {programs programs' : List (List Stmt)} {c : Call}

theorem mono (h : programs ⊆ programs') (hc : Visits programs c) : Visits programs' c := by
  induction hc with
  | program hp => exact .program (h hp)
  | part _ hp ih => exact .part ih hp

theorem onward (h : Visits programs c) :
    ∃ p ∈ programs, Onward c.result (Resolver.stmts p .initial) := by
  induction h with
  | program hp => exact ⟨_, hp, .refl _⟩
  | part _ hp ih =>
    obtain ⟨p, hmem, hon⟩ := ih
    exact ⟨p, hmem, (Call.part_onward hp).trans hon⟩

end Visits

end Treewalk
