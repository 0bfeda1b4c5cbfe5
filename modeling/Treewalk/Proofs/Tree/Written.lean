import Mathlib
import Treewalk.Proofs.Tree.Form
import Treewalk.Tree.Prefix
/-!
# Writing trees out

A tree is written out as the tokens it stands for, in order. Of some of them it keeps the token
itself, of the others it tells the kind alone (`Slot`), and `Stmt.Written` relates trees to all lists of
tokens that agree with that. Not every tree can be read back: `Stmt.Fitting` says that each part binds
as tightly as its place needs, so that no parentheses are missing, and that an `else` belongs to the
nearest `if`.
-/

namespace Treewalk

/-! ### Slots -/

/-- What a tree tells of one of its tokens. -/
inductive Slot where
  | kept (t : Token)
  | implied (k : Kind)

namespace Slot

abbrev mark (m : Mark) : Slot := .implied (.mark m)

abbrev keyword (k : Keyword) : Slot := .implied (.keyword k)

def kind : Slot → Kind
  | kept t => t.kind
  | implied k => k

/-- The token is as the tree tells. -/
def Holds : Slot → Token → Prop
  | kept t, t' => t' = t
  | implied k, t' => t'.kind = k

theorem Holds.kind_eq {s : Slot} {t : Token} (h : s.Holds t) : t.kind = s.kind := by
  cases s with
  | kept t' => exact congrArg Token.kind h
  | implied k => exact h

/-- The lists, separated by commas. -/
def separated : List (List Slot) → List Slot
  | [] => []
  | [slots] => slots
  | slots :: more :: rest => slots ++ mark .comma :: separated (more :: rest)

end Slot

/-- How a token of the kind is spelled, if its kind tells. -/
def Kind.spelling : Kind → String
  | .mark m => m.spelling
  | .keyword k => k.spelling
  | .string contents => "\"" ++ contents ++ "\""
  | .number value => Literal.numberText value
  | .identifier | .eof => ""

/-- The kept token, or one of the implied kind. -/
def Slot.token : Slot → Token
  | .kept t => t
  | .implied k => ⟨k, k.spelling, 1⟩

theorem Slot.holds_token (s : Slot) : s.Holds s.token := by
  cases s <;> rfl

/-- The tokens are as the slots tell, one by one. -/
abbrev Slot.Match (s : List Slot) (u : List Token) : Prop :=
  List.Forall₂ Slot.Holds s u

namespace Slot

variable {s s' : List Slot} {u : List Token}

theorem match_tokens (s : List Slot) : Match s (s.map Slot.token) := by
  induction s with
  | nil => exact .nil
  | cons slot rest ih => exact .cons slot.holds_token ih

theorem match_nil : Match [] u ↔ u = [] :=
  List.forall₂_nil_left_iff

theorem match_kept {t : Token} : Match (kept t :: s) u ↔ ∃ v, u = t :: v ∧ Match s v := by
  refine List.forall₂_cons_left_iff.trans ⟨?_, ?_⟩
  · rintro ⟨_, v, rfl, hs, rfl⟩
    exact ⟨v, rfl, hs⟩
  · rintro ⟨v, rfl, hs⟩
    exact ⟨t, v, rfl, hs, rfl⟩

theorem match_implied {k : Kind} :
    Match (implied k :: s) u ↔ ∃ t v, u = t :: v ∧ t.kind = k ∧ Match s v := by
  refine List.forall₂_cons_left_iff.trans ⟨?_, ?_⟩
  · rintro ⟨t, v, hk, hs, rfl⟩
    exact ⟨t, v, rfl, hk, hs⟩
  · rintro ⟨t, v, rfl, hk, hs⟩
    exact ⟨t, v, hk, hs, rfl⟩

theorem match_append :
    Match (s ++ s') u ↔ ∃ v w, u = v ++ w ∧ Match s v ∧ Match s' w := by
  constructor
  · intro h
    refine ⟨u.take s.length, u.drop s.length, (List.take_append_drop _ _).symm, ?_, ?_⟩
    · exact List.forall₂_take_append u s s' h.flip |>.flip
    · exact List.forall₂_drop_append u s s' h.flip |>.flip
  · rintro ⟨v, w, rfl, hv, hw⟩
    exact List.rel_append hv hw

end Slot

/-! ### The slots of a tree -/

def Literal.kind : Literal → Kind
  | .nil => .keyword .nil
  | .bool true => .keyword .true
  | .bool false => .keyword .false
  | .number x => .number x
  | .string s => .string s

open Slot (kept)

mutual

def Expr.slots : Expr → List Slot
  | .literal value => [.implied value.kind]
  | .grouping inner => .mark .leftParen :: inner.slots ++ [.mark .rightParen]
  | .unary operator operand => kept operator :: operand.slots
  | .binary left operator right => left.slots ++ kept operator :: right.slots
  | .logical left operator right => left.slots ++ kept operator :: right.slots
  | .variable _ name => [kept name]
  | .assign _ name value => kept name :: .mark .equal :: value.slots
  | .call callee closing arguments =>
    callee.slots ++ .mark .leftParen :: Slot.separated (Expr.slotsAll arguments) ++ [kept closing]
  | .get object name => object.slots ++ [.mark .dot, kept name]
  | .set object name value => object.slots ++ .mark .dot :: kept name :: .mark .equal :: value.slots
  | .this _ keyword => [kept keyword]
  | .super _ keyword method => [kept keyword, .mark .dot, kept method]

def Expr.slotsAll : List Expr → List (List Slot)
  | [] => []
  | e :: rest => e.slots :: Expr.slotsAll rest

end

mutual

def Stmt.slots : Stmt → List Slot
  | .expression e => e.slots ++ [.mark .semicolon]
  | .print e => .keyword .print :: e.slots ++ [.mark .semicolon]
  | .var name none => [.keyword .var, kept name, .mark .semicolon]
  | .var name (some e) =>
    .keyword .var :: kept name :: .mark .equal :: e.slots ++ [.mark .semicolon]
  | .block body => .mark .leftBrace :: Stmt.slotsAll body ++ [.mark .rightBrace]
  | .if condition consequent none =>
    .keyword .if :: .mark .leftParen :: condition.slots ++ .mark .rightParen :: consequent.slots
  | .if condition consequent (some alternative) =>
    .keyword .if :: .mark .leftParen :: condition.slots ++ .mark .rightParen :: consequent.slots ++
      .keyword .else :: alternative.slots
  | .while condition body =>
    .keyword .while :: .mark .leftParen :: condition.slots ++ .mark .rightParen :: body.slots
  | .function f => .keyword .fun :: f.slots
  | .return keyword none => [kept keyword, .mark .semicolon]
  | .return keyword (some e) => kept keyword :: e.slots ++ [.mark .semicolon]
  | .class name none methods =>
    .keyword .class :: kept name :: .mark .leftBrace :: Stmt.methodSlots methods ++
      [.mark .rightBrace]
  | .class name (some superclass) methods =>
    .keyword .class :: kept name :: .mark .less :: superclass.slots ++
      .mark .leftBrace :: Stmt.methodSlots methods ++ [.mark .rightBrace]

def Stmt.slotsAll : List Stmt → List Slot
  | [] => []
  | s :: rest => s.slots ++ Stmt.slotsAll rest

/-- A function without the keyword `fun`, as methods are. -/
def FunctionDecl.slots : FunctionDecl → List Slot
  | ⟨name, parameters, body⟩ =>
    kept name :: .mark .leftParen :: Slot.separated (parameters.map fun p => [kept p]) ++
      .mark .rightParen :: .mark .leftBrace :: Stmt.slotsAll body ++ [.mark .rightBrace]

def Stmt.methodSlots : List FunctionDecl → List Slot
  | [] => []
  | m :: rest => m.slots ++ Stmt.methodSlots rest

end

/-- The tokens are those of the statements: the same where the trees keep them, of the same kind, and
so of the same literal value, everywhere else. -/
def Stmt.Written (u : List Token) (ss : List Stmt) : Prop :=
  Slot.Match (Stmt.slotsAll ss) u

/-- The statements, written out. -/
def Stmt.tokensAll (ss : List Stmt) : List Token :=
  (Stmt.slotsAll ss).map Slot.token

/-! ### Trees that can be read back -/

/-- How loosely an expression binds, on the scale of the operators. -/
def Expr.rank : Expr → Nat
  | .binary _ operator _ | .logical _ operator _ => (Rule.operatorRank? operator.kind).getD 0
  | .assign _ _ _ | .set _ _ _ => Rule.assignmentRank
  | _ => 0

/-- Whether the expression can be called and have properties read without parentheses around it. -/
def Expr.isCall : Expr → Bool
  | .unary _ _ | .binary _ _ _ | .logical _ _ _ | .assign _ _ _ | .set _ _ _ => false
  | _ => true

mutual

/-- Every part binds as tightly as its place needs, and the tokens are of the kinds their places
need. -/
def Expr.Fitting : Expr → Prop
  | .literal _ => True
  | .grouping inner => inner.Fitting
  | .unary operator operand =>
    Rule.isUnaryOperator operator.kind = true ∧ operand.rank = 0 ∧ operand.Fitting
  | .binary left operator right =>
    (∃ rank < 5, Rule.operatorRank? operator.kind = some rank ∧ left.rank ≤ rank ∧
      right.rank < rank) ∧ left.Fitting ∧ right.Fitting
  | .logical left operator right =>
    (∃ rank ≥ 5, Rule.operatorRank? operator.kind = some rank ∧ left.rank ≤ rank ∧
      right.rank < rank) ∧ left.Fitting ∧ right.Fitting
  | .variable _ name => name.kind = .identifier
  | .assign _ name value => name.kind = .identifier ∧ value.Fitting
  | .call callee closing arguments =>
    (callee.isCall = true ∧ callee.Fitting) ∧ closing.kind = .mark .rightParen ∧
      arguments.length ≤ maxArity ∧ Expr.AllFitting arguments
  | .get object name => (object.isCall = true ∧ object.Fitting) ∧ name.kind = .identifier
  | .set object name value =>
    (object.isCall = true ∧ object.Fitting) ∧ name.kind = .identifier ∧ value.Fitting
  | .this _ keyword => keyword.kind = .keyword .this
  | .super _ keyword method => keyword.kind = .keyword .super ∧ method.kind = .identifier

def Expr.AllFitting : List Expr → Prop
  | [] => True
  | e :: rest => e.Fitting ∧ Expr.AllFitting rest

end

/-- Whether an `else` behind the statement would belong to an `if` at its end. -/
def Stmt.endsOpen : Stmt → Bool
  | .if _ _ none => true
  | .if _ _ (some alternative) => alternative.endsOpen
  | .while _ body => body.endsOpen
  | _ => false

mutual

def Stmt.Fitting : Stmt → Prop
  | .expression e => e.Fitting
  | .print e => e.Fitting
  | .var name none => name.kind = .identifier
  | .var name (some e) => name.kind = .identifier ∧ e.Fitting
  | .block body => Stmt.AllFitting body
  | .if condition consequent none =>
    condition.Fitting ∧ consequent.declared? = none ∧ consequent.Fitting
  | .if condition consequent (some alternative) =>
    condition.Fitting ∧ (consequent.declared? = none ∧ consequent.endsOpen = false ∧
      consequent.Fitting) ∧ alternative.declared? = none ∧ alternative.Fitting
  | .while condition body => condition.Fitting ∧ body.declared? = none ∧ body.Fitting
  | .function f => f.Fitting
  | .return keyword none => keyword.kind = .keyword .return
  | .return keyword (some e) => keyword.kind = .keyword .return ∧ e.Fitting
  | .class name none methods => name.kind = .identifier ∧ Stmt.MethodsFitting methods
  | .class name (some superclass) methods =>
    name.kind = .identifier ∧ (∃ node superName, superclass = .variable node superName ∧
      superName.kind = .identifier) ∧ Stmt.MethodsFitting methods

def Stmt.AllFitting : List Stmt → Prop
  | [] => True
  | s :: rest => s.Fitting ∧ Stmt.AllFitting rest

def FunctionDecl.Fitting : FunctionDecl → Prop
  | ⟨name, parameters, body⟩ =>
    name.kind = .identifier ∧ (∀ p ∈ parameters, p.kind = .identifier) ∧
      parameters.length ≤ maxArity ∧ Stmt.AllFitting body

def Stmt.MethodsFitting : List FunctionDecl → Prop
  | [] => True
  | m :: rest => m.Fitting ∧ Stmt.MethodsFitting rest

end

end Treewalk
