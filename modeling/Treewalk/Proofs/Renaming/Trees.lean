import Treewalk.Proofs.Resolution.Identities
/-!
# Renaming

A renaming gives new identities to the nodes of a tree and new lines to its tokens, and leaves
everything else as it is. Later modules show of each stage that it does not look at either.
-/

namespace Treewalk

structure Renaming where
  node : NodeId → NodeId
  line : Nat → Nat

namespace Renaming

/-- The renaming that changes nothing. -/
def same : Renaming := ⟨fun n => n, fun line => line⟩

/-- The renaming that keeps the lines. -/
def identities (f : NodeId → NodeId) : Renaming := ⟨f, fun line => line⟩

/-- The renaming that forgets the lines. -/
def unlined : Renaming := ⟨fun n => n, fun _ => 0⟩

/-- The renaming that counts nodes and lines from later on. -/
def shift (nodes lines : Nat) : Renaming := ⟨(· + nodes), (· + lines)⟩

/-- First one renaming and then the other. -/
def comp (ρ τ : Renaming) : Renaming := ⟨fun n => τ.node (ρ.node n), fun line => τ.line (ρ.line line)⟩

theorem shift_comp_unlined (lines : Nat) : (shift 0 lines).comp unlined = unlined := rfl

end Renaming

section Rename

variable (ρ τ : Renaming)

def Token.rename (t : Token) : Token := { t with line := ρ.line t.line }

mutual

def Expr.rename : Expr → Expr
  | .literal value => .literal value
  | .grouping inner => .grouping inner.rename
  | .unary operator operand => .unary (operator.rename ρ) operand.rename
  | .binary left operator right => .binary left.rename (operator.rename ρ) right.rename
  | .logical left operator right => .logical left.rename (operator.rename ρ) right.rename
  | .variable node name => .variable (ρ.node node) (name.rename ρ)
  | .assign node name value => .assign (ρ.node node) (name.rename ρ) value.rename
  | .call callee closing arguments =>
    .call callee.rename (closing.rename ρ) (Expr.renameAll arguments)
  | .get object name => .get object.rename (name.rename ρ)
  | .set object name value => .set object.rename (name.rename ρ) value.rename
  | .this node keyword => .this (ρ.node node) (keyword.rename ρ)
  | .super node keyword method => .super (ρ.node node) (keyword.rename ρ) (method.rename ρ)

def Expr.renameAll : List Expr → List Expr
  | [] => []
  | e :: rest => e.rename :: Expr.renameAll rest

end

mutual

def Stmt.rename : Stmt → Stmt
  | .expression e => .expression (e.rename ρ)
  | .print e => .print (e.rename ρ)
  | .var name none => .var (name.rename ρ) none
  | .var name (some e) => .var (name.rename ρ) (some (e.rename ρ))
  | .block body => .block (Stmt.renameAll body)
  | .if condition consequent none => .if (condition.rename ρ) consequent.rename none
  | .if condition consequent (some alternative) =>
    .if (condition.rename ρ) consequent.rename (some alternative.rename)
  | .while condition body => .while (condition.rename ρ) body.rename
  | .function f => .function f.rename
  | .return keyword none => .return (keyword.rename ρ) none
  | .return keyword (some e) => .return (keyword.rename ρ) (some (e.rename ρ))
  | .class name none methods => .class (name.rename ρ) none (Stmt.renameMethods methods)
  | .class name (some superclass) methods =>
    .class (name.rename ρ) (some (superclass.rename ρ)) (Stmt.renameMethods methods)

def Stmt.renameAll : List Stmt → List Stmt
  | [] => []
  | s :: rest => s.rename :: Stmt.renameAll rest

def FunctionDecl.rename : FunctionDecl → FunctionDecl
  | ⟨name, parameters, body⟩ =>
    ⟨name.rename ρ, parameters.map (Token.rename ρ), Stmt.renameAll body⟩

def Stmt.renameMethods : List FunctionDecl → List FunctionDecl
  | [] => []
  | m :: rest => m.rename :: Stmt.renameMethods rest

end

@[simp] theorem Token.kind_rename (t : Token) : (t.rename ρ).kind = t.kind := rfl

@[simp] theorem Token.lexeme_rename (t : Token) : (t.rename ρ).lexeme = t.lexeme := rfl

@[simp] theorem Expr.renameAll_eq (es : List Expr) : Expr.renameAll ρ es = es.map (Expr.rename ρ) := by
  induction es with
  | nil => rfl
  | cons e rest ih => rw [Expr.renameAll, ih]; rfl

@[simp] theorem Stmt.renameAll_eq (ss : List Stmt) : Stmt.renameAll ρ ss = ss.map (Stmt.rename ρ) := by
  induction ss with
  | nil => rfl
  | cons s rest ih => rw [Stmt.renameAll, ih]; rfl

@[simp] theorem Stmt.renameMethods_eq (ms : List FunctionDecl) :
    Stmt.renameMethods ρ ms = ms.map (FunctionDecl.rename ρ) := by
  induction ms with
  | nil => rfl
  | cons m rest ih => rw [Stmt.renameMethods, ih]; rfl

@[simp] theorem FunctionDecl.name_rename (f : FunctionDecl) : (f.rename ρ).name = f.name.rename ρ := by
  obtain ⟨name, parameters, body⟩ := f
  rfl

@[simp] theorem FunctionDecl.parameters_rename (f : FunctionDecl) :
    (f.rename ρ).parameters = f.parameters.map (Token.rename ρ) := by
  obtain ⟨name, parameters, body⟩ := f
  rfl

@[simp] theorem FunctionDecl.body_rename (f : FunctionDecl) :
    (f.rename ρ).body = f.body.map (Stmt.rename ρ) := by
  obtain ⟨name, parameters, body⟩ := f
  exact Stmt.renameAll_eq ρ body

@[simp] theorem FunctionDecl.isInitializer_rename (f : FunctionDecl) :
    (f.rename ρ).isInitializer = f.isInitializer := by
  obtain ⟨name, parameters, body⟩ := f
  rfl

/-! ### No renaming, and one after the other -/

section Identities

variable {f : NodeId → NodeId}

mutual

/-- A tree of which the identities stay as they are does so itself. -/
theorem Expr.rename_identities : (e : Expr) → (∀ n ∈ e.nodes, f n = n) →
    e.rename (.identities f) = e
  | .literal _, _ => rfl
  | .variable node name, h => congrArg (Expr.variable · name) (h node List.mem_cons_self)
  | .this node keyword, h => congrArg (Expr.this · keyword) (h node List.mem_cons_self)
  | .super node keyword method, h =>
    congrArg (Expr.super · keyword method) (h node List.mem_cons_self)
  | .grouping inner, h => by rw [Expr.rename, inner.rename_identities h]
  | .unary _ operand, h => by rw [Expr.rename, operand.rename_identities h]; rfl
  | .binary left _ right, h | .logical left _ right, h => by
    obtain ⟨hleft, hright⟩ := List.forall_mem_append.1 h
    rw [Expr.rename, left.rename_identities hleft, right.rename_identities hright]; rfl
  | .assign node name value, h => by
    obtain ⟨hvalue, hnode⟩ := List.forall_mem_append.1 h
    rw [Expr.rename, value.rename_identities hvalue]
    exact congrArg (Expr.assign · name value) (hnode node List.mem_cons_self)
  | .call callee _ arguments, h => by
    obtain ⟨hcallee, harguments⟩ := List.forall_mem_append.1 h
    rw [Expr.rename, callee.rename_identities hcallee,
      Expr.renameAll_identities arguments harguments]; rfl
  | .get object _, h => by rw [Expr.rename, object.rename_identities h]; rfl
  | .set object _ value, h => by
    obtain ⟨hvalue, hobject⟩ := List.forall_mem_append.1 h
    rw [Expr.rename, object.rename_identities hobject, value.rename_identities hvalue]; rfl

theorem Expr.renameAll_identities : (es : List Expr) → (∀ n ∈ Expr.nodesOfAll es, f n = n) →
    Expr.renameAll (.identities f) es = es
  | [], _ => rfl
  | e :: rest, h => by
    obtain ⟨hfirst, hrest⟩ := List.forall_mem_append.1 h
    rw [Expr.renameAll, e.rename_identities hfirst, Expr.renameAll_identities rest hrest]

end

mutual

theorem Stmt.rename_identities : (s : Stmt) → (∀ n ∈ s.nodes, f n = n) →
    s.rename (.identities f) = s
  | .expression e, h | .print e, h => by rw [Stmt.rename, e.rename_identities h]
  | .var _ none, _ | .return _ none, _ => rfl
  | .var _ (some e), h | .return _ (some e), h => by
    rw [Stmt.rename, e.rename_identities h]; rfl
  | .block body, h => by rw [Stmt.rename, Stmt.renameAll_identities body h]
  | .if condition consequent none, h => by
    obtain ⟨hcondition, hconsequent⟩ := List.forall_mem_append.1 h
    rw [Stmt.rename, condition.rename_identities hcondition,
      consequent.rename_identities hconsequent]
  | .if condition consequent (some alternative), h => by
    obtain ⟨hfront, halternative⟩ := List.forall_mem_append.1 h
    obtain ⟨hcondition, hconsequent⟩ := List.forall_mem_append.1 hfront
    rw [Stmt.rename, condition.rename_identities hcondition,
      consequent.rename_identities hconsequent, alternative.rename_identities halternative]
  | .while condition body, h => by
    obtain ⟨hcondition, hbody⟩ := List.forall_mem_append.1 h
    rw [Stmt.rename, condition.rename_identities hcondition, body.rename_identities hbody]
  | .function f, h => by rw [Stmt.rename, f.rename_identities h]
  | .class _ none methods, h => by rw [Stmt.rename, Stmt.renameMethods_identities methods h]; rfl
  | .class _ (some superclass) methods, h => by
    obtain ⟨hsuperclass, hmethods⟩ := List.forall_mem_append.1 h
    rw [Stmt.rename, superclass.rename_identities hsuperclass,
      Stmt.renameMethods_identities methods hmethods]; rfl

theorem Stmt.renameAll_identities : (ss : List Stmt) → (∀ n ∈ Stmt.nodesOfAll ss, f n = n) →
    Stmt.renameAll (.identities f) ss = ss
  | [], _ => rfl
  | s :: rest, h => by
    obtain ⟨hfirst, hrest⟩ := List.forall_mem_append.1 h
    rw [Stmt.renameAll, s.rename_identities hfirst, Stmt.renameAll_identities rest hrest]

theorem FunctionDecl.rename_identities : (g : FunctionDecl) → (∀ n ∈ g.nodes, f n = n) →
    g.rename (.identities f) = g
  | ⟨name, parameters, body⟩, h => by
    rw [FunctionDecl.rename, Stmt.renameAll_identities body h]
    exact congrArg (FunctionDecl.mk name · body) (List.map_id parameters)

theorem Stmt.renameMethods_identities : (ms : List FunctionDecl) →
    (∀ n ∈ Stmt.nodesOfMethods ms, f n = n) → Stmt.renameMethods (.identities f) ms = ms
  | [], _ => rfl
  | m :: rest, h => by
    obtain ⟨hfirst, hrest⟩ := List.forall_mem_append.1 h
    rw [Stmt.renameMethods, m.rename_identities hfirst, Stmt.renameMethods_identities rest hrest]

end

end Identities

theorem Expr.rename_same (e : Expr) : e.rename .same = e :=
  e.rename_identities fun _ _ => rfl

theorem Stmt.rename_same (s : Stmt) : s.rename .same = s :=
  s.rename_identities fun _ _ => rfl

theorem FunctionDecl.rename_same (g : FunctionDecl) : g.rename .same = g :=
  g.rename_identities fun _ _ => rfl

mutual

theorem Expr.rename_rename : (e : Expr) → (e.rename ρ).rename τ = e.rename (ρ.comp τ)
  | .literal _ | .variable _ _ | .this _ _ | .super _ _ _ => rfl
  | .grouping inner => by simp only [Expr.rename, inner.rename_rename]
  | .unary _ operand => by simp only [Expr.rename, operand.rename_rename]; rfl
  | .binary left _ right | .logical left _ right => by
    simp only [Expr.rename, left.rename_rename, right.rename_rename]; rfl
  | .assign _ _ value => by simp only [Expr.rename, value.rename_rename]; rfl
  | .call callee _ arguments => by
    simp only [Expr.rename, callee.rename_rename, Expr.renameAll_renameAll arguments]; rfl
  | .get object _ => by simp only [Expr.rename, object.rename_rename]; rfl
  | .set object _ value => by
    simp only [Expr.rename, object.rename_rename, value.rename_rename]; rfl

theorem Expr.renameAll_renameAll : (es : List Expr) →
    Expr.renameAll τ (Expr.renameAll ρ es) = Expr.renameAll (ρ.comp τ) es
  | [] => rfl
  | e :: rest => by
    simp only [Expr.renameAll, e.rename_rename, Expr.renameAll_renameAll rest]

end

mutual

theorem Stmt.rename_rename : (s : Stmt) → (s.rename ρ).rename τ = s.rename (ρ.comp τ)
  | .expression e | .print e => by simp only [Stmt.rename, e.rename_rename]
  | .var _ none | .return _ none => rfl
  | .var _ (some e) | .return _ (some e) => by simp only [Stmt.rename, e.rename_rename]; rfl
  | .block body => by simp only [Stmt.rename, Stmt.renameAll_renameAll body]
  | .if condition consequent none => by
    simp only [Stmt.rename, condition.rename_rename, consequent.rename_rename]
  | .if condition consequent (some alternative) => by
    simp only [Stmt.rename, condition.rename_rename, consequent.rename_rename,
      alternative.rename_rename]
  | .while condition body => by
    simp only [Stmt.rename, condition.rename_rename, body.rename_rename]
  | .function f => by simp only [Stmt.rename, f.rename_rename]
  | .class _ none methods => by simp only [Stmt.rename, Stmt.renameMethods_renameMethods methods]; rfl
  | .class _ (some superclass) methods => by
    simp only [Stmt.rename, superclass.rename_rename, Stmt.renameMethods_renameMethods methods]; rfl

theorem Stmt.renameAll_renameAll : (ss : List Stmt) →
    Stmt.renameAll τ (Stmt.renameAll ρ ss) = Stmt.renameAll (ρ.comp τ) ss
  | [] => rfl
  | s :: rest => by simp only [Stmt.renameAll, s.rename_rename, Stmt.renameAll_renameAll rest]

theorem FunctionDecl.rename_rename : (f : FunctionDecl) → (f.rename ρ).rename τ = f.rename (ρ.comp τ)
  | ⟨_, _, body⟩ => by
    simp only [FunctionDecl.rename, Stmt.renameAll_renameAll body, List.map_map]
    rfl

theorem Stmt.renameMethods_renameMethods : (ms : List FunctionDecl) →
    Stmt.renameMethods τ (Stmt.renameMethods ρ ms) = Stmt.renameMethods (ρ.comp τ) ms
  | [] => rfl
  | m :: rest => by
    simp only [Stmt.renameMethods, m.rename_rename, Stmt.renameMethods_renameMethods rest]

end

end Rename

end Treewalk
