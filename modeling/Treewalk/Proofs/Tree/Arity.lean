import Treewalk.Proofs.Tree.Sound
/-!
# Numbers of arguments and parameters

`Stmt.Moderate` says of a tree that no call in it has too many arguments and no function too many
parameters. Trees that are derived in the grammar are moderate (`Grammar.Declarations.moderate`).
-/

namespace Treewalk

mutual

def Expr.Moderate : Expr → Prop
  | .literal _ | .variable _ _ | .this _ _ | .super _ _ _ => True
  | .grouping inner => inner.Moderate
  | .unary _ operand => operand.Moderate
  | .binary left _ right => left.Moderate ∧ right.Moderate
  | .logical left _ right => left.Moderate ∧ right.Moderate
  | .assign _ _ value => value.Moderate
  | .call callee _ arguments =>
    callee.Moderate ∧ arguments.length ≤ maxArity ∧ Expr.AllModerate arguments
  | .get object _ => object.Moderate
  | .set object _ value => object.Moderate ∧ value.Moderate

def Expr.AllModerate : List Expr → Prop
  | [] => True
  | e :: rest => e.Moderate ∧ Expr.AllModerate rest

end

mutual

def Stmt.Moderate : Stmt → Prop
  | .expression e => e.Moderate
  | .print e => e.Moderate
  | .var _ none => True
  | .var _ (some e) => e.Moderate
  | .block body => Stmt.AllModerate body
  | .if condition consequent none => condition.Moderate ∧ consequent.Moderate
  | .if condition consequent (some alternative) =>
    condition.Moderate ∧ consequent.Moderate ∧ alternative.Moderate
  | .while condition body => condition.Moderate ∧ body.Moderate
  | .function f => f.Moderate
  | .return _ none => True
  | .return _ (some e) => e.Moderate
  | .class _ none methods => Stmt.MethodsModerate methods
  | .class _ (some superclass) methods => superclass.Moderate ∧ Stmt.MethodsModerate methods

def Stmt.AllModerate : List Stmt → Prop
  | [] => True
  | s :: rest => s.Moderate ∧ Stmt.AllModerate rest

def FunctionDecl.Moderate : FunctionDecl → Prop
  | ⟨_, parameters, body⟩ => parameters.length ≤ maxArity ∧ Stmt.AllModerate body

def Stmt.MethodsModerate : List FunctionDecl → Prop
  | [] => True
  | m :: rest => m.Moderate ∧ Stmt.MethodsModerate rest

end

/-! ### Identities do not matter -/

mutual

theorem Expr.moderate_anonymous : (e : Expr) → (e.anonymous.Moderate ↔ e.Moderate)
  | .literal _ | .variable _ _ | .this _ _ | .super _ _ _ => by simp [Expr.Moderate]
  | .grouping inner => by simpa [Expr.Moderate] using Expr.moderate_anonymous inner
  | .unary _ operand => by simp [Expr.Moderate, Expr.moderate_anonymous operand]
  | .binary left _ right | .logical left _ right => by
    simp [Expr.Moderate, Expr.moderate_anonymous left, Expr.moderate_anonymous right]
  | .assign _ _ value => by simp [Expr.Moderate, Expr.moderate_anonymous value]
  | .call callee _ arguments => by
    simp [Expr.Moderate, Expr.moderate_anonymous callee, Expr.allModerate_anonymous arguments]
  | .get object _ => by simp [Expr.Moderate, Expr.moderate_anonymous object]
  | .set object _ value => by
    simp [Expr.Moderate, Expr.moderate_anonymous object, Expr.moderate_anonymous value]

theorem Expr.allModerate_anonymous : (es : List Expr) →
    (Expr.AllModerate (Expr.anonymousAll es) ↔ Expr.AllModerate es)
  | [] => Iff.rfl
  | e :: rest => by
    simp [Expr.AllModerate, Expr.moderate_anonymous e, Expr.allModerate_anonymous rest]

end

mutual

theorem Stmt.moderate_anonymous : (s : Stmt) → (s.anonymous.Moderate ↔ s.Moderate)
  | .expression e | .print e => by simp [Stmt.Moderate, Expr.moderate_anonymous e]
  | .var _ none | .return _ none => by simp [Stmt.Moderate]
  | .var _ (some e) | .return _ (some e) => by simp [Stmt.Moderate, Expr.moderate_anonymous e]
  | .block body => by simp [Stmt.Moderate, Stmt.allModerate_anonymous body]
  | .if condition consequent none => by
    simp [Stmt.Moderate, Expr.moderate_anonymous condition, Stmt.moderate_anonymous consequent]
  | .if condition consequent (some alternative) => by
    simp [Stmt.Moderate, Expr.moderate_anonymous condition, Stmt.moderate_anonymous consequent,
      Stmt.moderate_anonymous alternative]
  | .while condition body => by
    simp [Stmt.Moderate, Expr.moderate_anonymous condition, Stmt.moderate_anonymous body]
  | .function f => by simpa [Stmt.Moderate] using FunctionDecl.moderate_anonymous f
  | .class _ none methods => by simp [Stmt.Moderate, Stmt.methodsModerate_anonymous methods]
  | .class _ (some superclass) methods => by
    simp [Stmt.Moderate, Expr.moderate_anonymous superclass,
      Stmt.methodsModerate_anonymous methods]

theorem Stmt.allModerate_anonymous : (ss : List Stmt) →
    (Stmt.AllModerate (Stmt.anonymousAll ss) ↔ Stmt.AllModerate ss)
  | [] => Iff.rfl
  | s :: rest => by
    simp [Stmt.AllModerate, Stmt.moderate_anonymous s, Stmt.allModerate_anonymous rest]

theorem FunctionDecl.moderate_anonymous : (f : FunctionDecl) →
    (f.anonymous.Moderate ↔ f.Moderate)
  | ⟨_, _, body⟩ => by simp [FunctionDecl.Moderate, Stmt.allModerate_anonymous body]

theorem Stmt.methodsModerate_anonymous : (ms : List FunctionDecl) →
    (Stmt.MethodsModerate (Stmt.anonymousMethods ms) ↔ Stmt.MethodsModerate ms)
  | [] => Iff.rfl
  | m :: rest => by
    simp [Stmt.MethodsModerate, FunctionDecl.moderate_anonymous m,
      Stmt.methodsModerate_anonymous rest]

end

/-! ### Derived trees -/

namespace Grammar

theorem operation_moderate {level : Nat} {operator : Token} {left right : Expr}
    (hl : left.Moderate) (hr : right.Moderate) :
    (operation level left operator right).Moderate := by
  unfold operation
  split
  · simp only [Expr.Moderate]
    exact ⟨hl, hr⟩
  · simp only [Expr.Moderate]
    exact ⟨hl, hr⟩

mutual

theorem Expression.moderate {u : List Token} {e : Expr} : Expression u e → e.Moderate
  | .assign _ _ hv => by simpa only [Expr.Moderate] using hv.moderate
  | .set ho _ _ _ hv => by
    simp only [Expr.Moderate]
    exact ⟨ho.moderate, hv.moderate⟩
  | .operation h => h.moderate

theorem Operation.moderate {level : Nat} {u : List Token} {e : Expr} : Operation level u e →
    e.Moderate
  | .unary h => h.moderate
  | .operand h => h.moderate
  | .operation hl _ hr => operation_moderate hl.moderate hr.moderate

theorem Unary.moderate {u : List Token} {e : Expr} : Unary u e → e.Moderate
  | .operator _ h => by simpa only [Expr.Moderate] using h.moderate
  | .call h => h.moderate

theorem Call.moderate {u : List Token} {e : Expr} : Call u e → e.Moderate
  | .primary h => h.moderate
  | .call h _ ha _ => by
    simp only [Expr.Moderate]
    exact ⟨h.moderate, ha.moderate⟩
  | .get h _ _ => by simpa only [Expr.Moderate] using h.moderate

theorem Arguments.moderate {u : List Token} {es : List Expr} : Arguments u es →
    es.length ≤ maxArity ∧ Expr.AllModerate es
  | .none => ⟨Nat.zero_le _, trivial⟩
  | .some h hlength => ⟨hlength, h.moderate⟩

theorem Expressions.moderate {u : List Token} {es : List Expr} : Expressions u es →
    Expr.AllModerate es
  | .one h => ⟨h.moderate, trivial⟩
  | .more h _ hs => ⟨h.moderate, hs.moderate⟩

theorem Primary.moderate {u : List Token} {e : Expr} : Primary u e → e.Moderate
  | .grouping _ h _ => by simpa only [Expr.Moderate] using h.moderate
  | .number _ | .string _ | .true _ | .false _ | .nil _ | .this _ | .variable _ | .super _ _ _ => by
    simp only [Expr.Moderate]

end

theorem Parameters.length_le {u names : List Token} (h : Parameters u names) :
    names.length ≤ maxArity := by
  cases h with
  | none => exact Nat.zero_le _
  | some _ hlength => exact hlength

theorem Optional.moderate {u : List Token} {o : Option Expr} (h : Optional u o) :
    ∀ e ∈ o, e.Moderate := by
  cases h with
  | none => exact nofun
  | some h =>
    rintro _ ⟨⟩
    exact h.moderate

theorem Variable.moderate {u : List Token} {s : Stmt} (h : Variable u s) : s.Moderate := by
  cases h with
  | plain _ _ _ => simp only [Stmt.Moderate]
  | initial _ _ _ he _ => simpa only [Stmt.Moderate] using he.moderate

theorem Initial.moderate {u : List Token} {o : Option Stmt} (h : Initial u o) :
    ∀ s ∈ o, s.Moderate := by
  cases h with
  | none => exact nofun
  | «variable» h =>
    rintro _ ⟨⟩
    exact h.moderate
  | expression h =>
    rintro _ ⟨⟩
    obtain ⟨h, -⟩ := h
    simpa only [Stmt.Moderate] using h.moderate

theorem lowered_moderate {initial : Option Stmt} {condition increment : Option Expr} {body : Stmt}
    (hi : ∀ s ∈ initial, s.Moderate) (hc : ∀ e ∈ condition, e.Moderate)
    (hn : ∀ e ∈ increment, e.Moderate) (hb : body.Moderate) :
    (lowered initial condition increment body).Moderate := by
  cases initial <;> cases condition <;> cases increment <;>
    simp_all [lowered, Stmt.Moderate, Stmt.AllModerate, Expr.Moderate]

mutual

theorem Statement.moderate {isOpen : Bool} {u : List Token} {s : Stmt} : Statement isOpen u s →
    s.Moderate
  | .expression (.intro h _) => by simpa only [Stmt.Moderate] using h.moderate
  | .for _ _ hi hc _ hn _ h => lowered_moderate hi.moderate hc.moderate hn.moderate h.moderate
  | .if _ _ he _ h => by
    simp only [Stmt.Moderate]
    exact ⟨he.moderate, h.moderate⟩
  | .ifElse _ _ he _ h _ h' => by
    simp only [Stmt.Moderate]
    exact ⟨he.moderate, h.moderate, h'.moderate⟩
  | .print _ h _ => by simpa only [Stmt.Moderate] using h.moderate
  | .return _ h _ => by
    cases h with
    | none => simp only [Stmt.Moderate]
    | some h => simpa only [Stmt.Moderate] using h.moderate
  | .while _ _ he _ h => by
    simp only [Stmt.Moderate]
    exact ⟨he.moderate, h.moderate⟩
  | .block h => by simpa only [Stmt.Moderate] using h.moderate

theorem Block.moderate {u : List Token} {ss : List Stmt} : Block u ss → Stmt.AllModerate ss
  | .intro _ h _ => h.moderate

theorem Declaration.moderate {u : List Token} {s : Stmt} : Declaration u s → s.Moderate
  | .class _ _ hs _ h _ => by
    cases hs with
    | none => simpa only [Stmt.Moderate] using h.moderate
    | some _ _ =>
      simp only [Stmt.Moderate, Expr.Moderate]
      exact ⟨trivial, h.moderate⟩
  | .function _ h => by simpa only [Stmt.Moderate] using h.moderate
  | .variable h => h.moderate
  | .statement h => h.moderate

theorem Declarations.moderate {u : List Token} {ss : List Stmt} : Declarations u ss →
    Stmt.AllModerate ss
  | .nil => by simp only [Stmt.AllModerate]
  | .cons h hs => by
    simp only [Stmt.AllModerate]
    exact ⟨h.moderate, hs.moderate⟩

theorem Function.moderate {u : List Token} {f : FunctionDecl} : Function u f → f.Moderate
  | .intro _ _ hp _ h => by
    simp only [FunctionDecl.Moderate]
    exact ⟨hp.length_le, h.moderate⟩

theorem Functions.moderate {u : List Token} {fs : List FunctionDecl} : Functions u fs →
    Stmt.MethodsModerate fs
  | .nil => by simp only [Stmt.MethodsModerate]
  | .cons h hs => by
    simp only [Stmt.MethodsModerate]
    exact ⟨h.moderate, hs.moderate⟩

end

end Grammar

end Treewalk
