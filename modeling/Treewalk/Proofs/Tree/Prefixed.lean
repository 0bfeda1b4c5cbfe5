import Treewalk.Proofs.Tree.Nested
/-!
# Trees as nested lists

The prefix form of a tree is the text of a nested list (`Expr.text_nested`, `Stmt.text_nested`), in which
no identities are.
-/

namespace Treewalk

/-! ### Trees as nested lists -/

mutual

def Expr.nested : Expr → Nested
  | .literal value => .atom value.prefixText
  | .grouping inner => .list [.atom "group", inner.nested]
  | .unary operator operand => .list [.atom operator.lexeme, operand.nested]
  | .binary left operator right => .list [.atom operator.lexeme, left.nested, right.nested]
  | .logical left operator right => .list [.atom operator.lexeme, left.nested, right.nested]
  | .variable _ name => .atom name.lexeme
  | .assign _ name value => .list [.atom "=", .atom name.lexeme, value.nested]
  | .call callee _ arguments =>
    .list (.atom "call" :: callee.nested :: Expr.nestedAll arguments)
  | .get object name => .list [.atom ".", object.nested, .atom name.lexeme]
  | .set object name value =>
    .list [.atom "=", .list [.atom ".", object.nested, .atom name.lexeme], value.nested]
  | .this _ _ => .atom "this"
  | .super _ _ method => .list [.atom "super", .atom method.lexeme]

def Expr.nestedAll : List Expr → List Nested
  | [] => []
  | e :: rest => e.nested :: Expr.nestedAll rest

end

mutual

def Stmt.nested : Stmt → Nested
  | .expression e => .list [.atom ";", e.nested]
  | .print e => .list [.atom "print", e.nested]
  | .var name none => .list [.atom "var", .atom name.lexeme]
  | .var name (some e) => .list [.atom "var", .atom name.lexeme, .atom "=", e.nested]
  | .block body => .list (.atom "block" :: Stmt.nestedAll body)
  | .if condition consequent none => .list [.atom "if", condition.nested, consequent.nested]
  | .if condition consequent (some alternative) =>
    .list [.atom "if", condition.nested, consequent.nested, alternative.nested]
  | .while condition body => .list [.atom "while", condition.nested, body.nested]
  | .function f => .list (.atom "fun" :: f.items)
  | .return _ none => .list [.atom "return"]
  | .return _ (some e) => .list [.atom "return", e.nested]
  | .class name none methods =>
    .list (.atom "class" :: .atom name.lexeme :: Stmt.nestedMethods methods)
  | .class name (some e) methods =>
    .list (.atom "class" :: .atom name.lexeme :: .atom "<" :: e.nested ::
      Stmt.nestedMethods methods)

def Stmt.nestedAll : List Stmt → List Nested
  | [] => []
  | s :: rest => s.nested :: Stmt.nestedAll rest

/-- What is behind the head. -/
def FunctionDecl.items : FunctionDecl → List Nested
  | ⟨name, parameters, body⟩ =>
    .atom name.lexeme :: .list (parameters.map fun p => .atom p.lexeme) :: Stmt.nestedAll body

def Stmt.nestedMethods : List FunctionDecl → List Nested
  | [] => []
  | m :: rest => .list (.atom "method" :: m.items) :: Stmt.nestedMethods rest

end

mutual

theorem Expr.text_nested : (e : Expr) → e.nested.text = e.prefixText
  | .literal _ | .variable _ _ | .this _ _ | .super _ _ _ => by simp [Expr.nested, Expr.prefixText]
  | .grouping inner => by simp [Expr.nested, Expr.prefixText, inner.text_nested]
  | .unary _ operand => by simp [Expr.nested, Expr.prefixText, operand.text_nested]
  | .binary left _ right | .logical left _ right => by
    simp [Expr.nested, Expr.prefixText, left.text_nested, right.text_nested]
  | .assign _ _ value => by simp [Expr.nested, Expr.prefixText, value.text_nested]
  | .call callee _ arguments => by
    simp [Expr.nested, Expr.prefixText, callee.text_nested, Expr.texts_nestedAll arguments]
  | .get object _ => by simp [Expr.nested, Expr.prefixText, object.text_nested]
  | .set object _ value => by
    simp [Expr.nested, Expr.prefixText, object.text_nested, value.text_nested]

theorem Expr.texts_nestedAll : (es : List Expr) →
    (Expr.nestedAll es).map Nested.text = Expr.prefixTexts es
  | [] => rfl
  | e :: rest => by
    simp [Expr.nestedAll, Expr.prefixTexts, e.text_nested, Expr.texts_nestedAll rest]

end

mutual

theorem Stmt.text_nested : (s : Stmt) → s.nested.text = s.prefixText
  | .expression e | .print e => by simp [Stmt.nested, Stmt.prefixText, e.text_nested]
  | .var _ none | .return _ none => by simp [Stmt.nested, Stmt.prefixText]
  | .var _ (some e) | .return _ (some e) => by
    simp [Stmt.nested, Stmt.prefixText, e.text_nested]
  | .block body => by simp [Stmt.nested, Stmt.prefixText, Stmt.texts_nestedAll body]
  | .if condition consequent none => by
    simp [Stmt.nested, Stmt.prefixText, condition.text_nested, consequent.text_nested]
  | .if condition consequent (some alternative) => by
    simp [Stmt.nested, Stmt.prefixText, condition.text_nested, consequent.text_nested,
      alternative.text_nested]
  | .while condition body => by
    simp [Stmt.nested, Stmt.prefixText, condition.text_nested, body.text_nested]
  | .function f => by simp [Stmt.nested, Stmt.prefixText, f.text_items]
  | .class _ none methods => by
    simp [Stmt.nested, Stmt.prefixText, Stmt.texts_nestedMethods methods]
  | .class _ (some superclass) methods => by
    simp [Stmt.nested, Stmt.prefixText, superclass.text_nested, Stmt.texts_nestedMethods methods]

theorem Stmt.texts_nestedAll : (ss : List Stmt) →
    (Stmt.nestedAll ss).map Nested.text = Stmt.prefixTexts ss
  | [] => rfl
  | s :: rest => by
    simp [Stmt.nestedAll, Stmt.prefixTexts, s.text_nested, Stmt.texts_nestedAll rest]

theorem FunctionDecl.text_items : (f : FunctionDecl) → (head : String) →
    listed head (f.items.map Nested.text) = f.prefixText head
  | ⟨_, parameters, body⟩, _ => by
    have hnames := Nested.text_names (parameters.map (·.lexeme))
    rw [List.map_map] at hnames
    simp [FunctionDecl.items, FunctionDecl.prefixText, Stmt.texts_nestedAll body, ← hnames,
      Function.comp_def]

theorem Stmt.texts_nestedMethods : (ms : List FunctionDecl) →
    (Stmt.nestedMethods ms).map Nested.text = Stmt.methodTexts ms
  | [] => rfl
  | m :: rest => by
    simp [Stmt.nestedMethods, Stmt.methodTexts, m.text_items, Stmt.texts_nestedMethods rest]

end

/-! ### Identities do not matter -/

mutual

theorem Expr.nested_anonymous : (e : Expr) → e.anonymous.nested = e.nested
  | .literal _ | .variable _ _ | .this _ _ | .super _ _ _ => by simp [Expr.nested]
  | .grouping inner => by simp [Expr.nested, inner.nested_anonymous]
  | .unary _ operand => by simp [Expr.nested, operand.nested_anonymous]
  | .binary left _ right | .logical left _ right => by
    simp [Expr.nested, left.nested_anonymous, right.nested_anonymous]
  | .assign _ _ value => by simp [Expr.nested, value.nested_anonymous]
  | .call callee _ arguments => by
    simp [Expr.nested, callee.nested_anonymous, Expr.nestedAll_anonymous arguments]
  | .get object _ => by simp [Expr.nested, object.nested_anonymous]
  | .set object _ value => by simp [Expr.nested, object.nested_anonymous, value.nested_anonymous]

theorem Expr.nestedAll_anonymous : (es : List Expr) →
    Expr.nestedAll (Expr.anonymousAll es) = Expr.nestedAll es
  | [] => rfl
  | e :: rest => by simp [Expr.nestedAll, e.nested_anonymous, Expr.nestedAll_anonymous rest]

end

mutual

theorem Stmt.nested_anonymous : (s : Stmt) → s.anonymous.nested = s.nested
  | .expression e | .print e => by simp [Stmt.nested, e.nested_anonymous]
  | .var _ none | .return _ none => by simp [Stmt.nested]
  | .var _ (some e) | .return _ (some e) => by simp [Stmt.nested, e.nested_anonymous]
  | .block body => by simp [Stmt.nested, Stmt.nestedAll_anonymous body]
  | .if condition consequent none => by
    simp [Stmt.nested, condition.nested_anonymous, consequent.nested_anonymous]
  | .if condition consequent (some alternative) => by
    simp [Stmt.nested, condition.nested_anonymous, consequent.nested_anonymous,
      alternative.nested_anonymous]
  | .while condition body => by
    simp [Stmt.nested, condition.nested_anonymous, body.nested_anonymous]
  | .function f => by simp [Stmt.nested, f.items_anonymous]
  | .class _ none methods => by simp [Stmt.nested, Stmt.nestedMethods_anonymous methods]
  | .class _ (some superclass) methods => by
    simp [Stmt.nested, superclass.nested_anonymous, Stmt.nestedMethods_anonymous methods]

theorem Stmt.nestedAll_anonymous : (ss : List Stmt) →
    Stmt.nestedAll (Stmt.anonymousAll ss) = Stmt.nestedAll ss
  | [] => rfl
  | s :: rest => by simp [Stmt.nestedAll, s.nested_anonymous, Stmt.nestedAll_anonymous rest]

theorem FunctionDecl.items_anonymous : (f : FunctionDecl) → f.anonymous.items = f.items
  | ⟨_, _, body⟩ => by simp [FunctionDecl.items, Stmt.nestedAll_anonymous body]

theorem Stmt.nestedMethods_anonymous : (ms : List FunctionDecl) →
    Stmt.nestedMethods (Stmt.anonymousMethods ms) = Stmt.nestedMethods ms
  | [] => rfl
  | m :: rest => by
    simp [Stmt.nestedMethods, m.items_anonymous,
      Stmt.nestedMethods_anonymous rest]

end

end Treewalk
