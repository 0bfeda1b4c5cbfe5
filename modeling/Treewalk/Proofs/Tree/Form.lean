import Treewalk.Tree.Parser
/-!
# Well-formed trees

`Expr.Formed` and `Stmt.Formed` say of a tree what its syntax promises: each token is of the kind that
its place needs, a superclass is a name, and no branch of a conditional and no body of a loop is a
declaration. The predicate `T` holds of all tokens in the tree.
-/

namespace Treewalk

/-- Keywords are spelled as they are, and names differently from all of them. -/
def Token.Spelled (t : Token) : Prop :=
  (∀ k, t.kind = .keyword k → t.lexeme = k.spelling) ∧
    (t.kind = .identifier → ∀ k : Keyword, t.lexeme ≠ k.spelling)

/-- The token in a place where a name has to stand. -/
def Token.Names (T : Token → Prop) (t : Token) : Prop :=
  T t ∧ t.kind = .identifier

/-- The name that a statement declares in the scope it is executed in. -/
def Stmt.declared? : Stmt → Option Token
  | .var name _ => some name
  | .function f => some f.name
  | .class name _ _ => some name
  | _ => none

theorem Token.Names.ne_keyword {t : Token} (h : t.Names Token.Spelled) (k : Keyword) :
    t.lexeme ≠ k.spelling :=
  h.1.2 h.2 k

variable (T : Token → Prop)

mutual

def Expr.Formed : Expr → Prop
  | .literal _ => True
  | .grouping inner => inner.Formed
  | .unary operator operand =>
    (T operator ∧ Rule.isUnaryOperator operator.kind = true) ∧ operand.Formed
  | .binary left operator right =>
    left.Formed ∧ (T operator ∧ ∃ rank ≤ 4, Rule.operatorRank? operator.kind = some rank) ∧
      right.Formed
  | .logical left operator right =>
    left.Formed ∧ (T operator ∧ (operator.kind = .keyword .and ∨ operator.kind = .keyword .or)) ∧
      right.Formed
  | .variable _ name => name.Names T
  | .assign _ name value => name.Names T ∧ value.Formed
  | .call callee closing arguments => callee.Formed ∧ T closing ∧ Expr.AllFormed arguments
  | .get object name => object.Formed ∧ name.Names T
  | .set object name value => object.Formed ∧ name.Names T ∧ value.Formed
  | .this _ keyword => T keyword ∧ keyword.kind = .keyword .this
  | .super _ keyword method => (T keyword ∧ keyword.kind = .keyword .super) ∧ method.Names T

def Expr.AllFormed : List Expr → Prop
  | [] => True
  | e :: rest => e.Formed ∧ Expr.AllFormed rest

end

mutual

def Stmt.Formed : Stmt → Prop
  | .expression e => e.Formed T
  | .print e => e.Formed T
  | .var name none => name.Names T
  | .var name (some e) => name.Names T ∧ e.Formed T
  | .block body => Stmt.AllFormed body
  | .if condition consequent none =>
    condition.Formed T ∧ consequent.declared? = none ∧ consequent.Formed
  | .if condition consequent (some alternative) =>
    condition.Formed T ∧ (consequent.declared? = none ∧ consequent.Formed) ∧
      alternative.declared? = none ∧ alternative.Formed
  | .while condition body => condition.Formed T ∧ body.declared? = none ∧ body.Formed
  | .function f => f.Formed
  | .return keyword none => T keyword
  | .return keyword (some e) => T keyword ∧ e.Formed T
  | .class name none methods => name.Names T ∧ Stmt.MethodsFormed methods
  | .class name (some superclass) methods =>
    name.Names T ∧ (∃ node superName, superclass = .variable node superName ∧ superName.Names T) ∧
      Stmt.MethodsFormed methods

def Stmt.AllFormed : List Stmt → Prop
  | [] => True
  | s :: rest => s.Formed ∧ Stmt.AllFormed rest

def FunctionDecl.Formed : FunctionDecl → Prop
  | ⟨name, parameters, body⟩ =>
    name.Names T ∧ (∀ p ∈ parameters, p.Names T) ∧ Stmt.AllFormed body

def Stmt.MethodsFormed : List FunctionDecl → Prop
  | [] => True
  | m :: rest => m.Formed ∧ Stmt.MethodsFormed rest

end

variable {T}

theorem FunctionDecl.Formed.name {f : FunctionDecl} (h : f.Formed T) : f.name.Names T := by
  obtain ⟨_, _, _⟩ := f
  unfold FunctionDecl.Formed at h
  exact h.1

theorem Stmt.Formed.declared {s : Stmt} (h : s.Formed T) {name : Token}
    (hs : s.declared? = some name) : name.Names T := by
  match s with
  | .var _ none | .var _ (some _) | .class _ none _ | .class _ (some _) _ =>
    obtain rfl := Option.some.inj hs
    simp only [Stmt.Formed] at h
    first | exact h.1 | exact h
  | .function f =>
    obtain rfl := Option.some.inj hs
    simp only [Stmt.Formed] at h
    exact h.name
  | .expression _ | .print _ | .block _ | .if _ _ _ | .while _ _ | .return _ _ => cases hs

end Treewalk
