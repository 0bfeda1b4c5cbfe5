import Treewalk.Proofs.Evaluation.Steps
import Treewalk.Proofs.Tree.Form
/-!
# What goes over from the steps of an evaluation to the whole

A relation between the results of two evaluations on one machine is `Compositional` if it holds where
both end at once, survives every primitive change of the machine (`Machine.Step`), and is kept by
running one evaluation after another and by running one in a new scope. Such a relation holds of a
rule's results when it holds of those of its parts, and so of whole evaluations
(`Compositional.nodes`), once it is known of the two ways of writing to a scope that exists: declaring
a name in the scope that is executing, and assigning to a name where it is found.
-/

namespace Treewalk

/-- A primitive change of the machine, other than by writing to a scope that exists. -/
inductive Machine.Step (m : Machine) : Machine → Prop where
  | scope (bindings : Bindings Value) (enclosing : ScopeId) :
    Step m { m with heap := m.heap.addScope bindings enclosing }
  | function (f : FunctionDecl) (closure : ScopeId) :
    Step m { m with heap := m.heap.addFunction ⟨f, closure, false⟩ }
  | method {c : ClassId} {x : String} {f : Function} (i : InstanceId) :
    m.heap.findMethod? c x = some f →
    Step m { m with
      heap := (m.heap.addScope [("this", .instance i)] f.closure).addFunction
        ⟨f.declaration, m.heap.scopes.size, f.isInitializer⟩ }
  | class (name : String) (superclass : Option ClassId) (methods : List FunctionDecl)
    (closure : ScopeId) :
    Step m { m with heap := m.heap.addClass ⟨name, superclass, Eval.methodTable methods closure⟩ }
  | instance (c : ClassId) : Step m { m with heap := m.heap.addInstance c }
  | field (i : InstanceId) (x : String) (v : Value) :
    Step m { m with heap := m.heap.setField i x v }
  | output (out : Sink) : Step m { m with out := out }
  | clock : Step m { m with readings := m.readings + 1 }

namespace Eval

/-- How an evaluation ended, and on which machine. -/
abbrev Result (α : Type) := EStateM.Result Stop Machine α

/-- The machine at the end, whether or not there is a value. -/
def ending {α : Type} : Result α → Machine
  | .ok _ m | .error _ m => m

/-- A relation between results of evaluations that begin on the same machine. The proposition is true
for statements, which may declare names in the scope that is executing. -/
structure Compositional
    (P : Prop → Machine → {α : Type} → Result α → Result α → Prop) : Prop where
  ok {S : Prop} {m : Machine} {α : Type} (a : α) : P S m (.ok a m) (.ok a m)
  error {S : Prop} {m : Machine} {α : Type} (e : Stop) :
    P S m (α := α) (.error e m) (.error e m)
  step {S : Prop} {m m' : Machine} {α : Type} {r r' : Result α} :
    m.Step m' → P S m' r r' → P S m r r'
  bind {S : Prop} {σ : Setting} {m : Machine} {α β : Type} {x y : Eval α} {f g : α → Eval β} :
    P S m (x σ m) (y σ m) → (∀ a m', x σ m = .ok a m' → P S m' (f a σ m') (g a σ m')) →
    P S m ((x >>= f) σ m) ((y >>= g) σ m)
  opened {S : Prop} {σ : Setting} {m : Machine} {α : Type} {bindings : Bindings Value}
    {enclosing : ScopeId} {x y : Eval α} :
    let inside : Machine :=
      { m with heap := m.heap.addScope bindings enclosing, cursor := m.heap.scopes.size }
    P True inside (x σ inside) (y σ inside) →
    P S m ((newScope bindings enclosing >>= fun scope => within scope x) σ m)
      ((newScope bindings enclosing >>= fun scope => within scope y) σ m)

/-- A transitive relation between machines that every primitive change makes goes over to the machines
before and behind an evaluation, if it holds around a new scope when it holds inside. -/
theorem Compositional.of_endings {R : Prop → Machine → Machine → Prop} (refl : ∀ S m, R S m m)
    (trans : ∀ {S m m' m''}, R S m m' → R S m' m'' → R S m m'')
    (step : ∀ {S m m'}, m.Step m' → R S m m')
    (opened : ∀ {S} {m m' : Machine} (bindings : Bindings Value) (enclosing : ScopeId),
      let inside : Machine :=
        { m with heap := m.heap.addScope bindings enclosing, cursor := m.heap.scopes.size }
      R True inside m' → R S m { m' with cursor := m.cursor }) :
    Compositional fun S m {_} r _ => R S m (ending r) where
  ok _ := refl ..
  error _ := refl ..
  step hs h := trans (step hs) h
  bind {S σ m α β x y f g} hx hf := by
    cases he : x σ m with
    | error e m' => rw [he] at hx; rw [bind_error he]; exact hx
    | ok a m' => rw [he] at hx; rw [bind_ok he]; exact trans hx (hf a m' he)
  opened {S σ m α b p x y} := by
    intro inside hx
    rw [newScope_bind, within_run]
    cases he : x σ inside <;> rw [he] at hx <;> exact opened b p hx

namespace Compositional

variable {P : Prop → Machine → {α : Type} → Result α → Result α → Prop} {S : Prop} {σ : Setting}
  {m : Machine} {α : Type}

theorem at_state {f g : Machine → Eval α} (h : P S m (f m σ m) (g m σ m)) :
    P S m ((get >>= f) σ m) ((get >>= g) σ m) := h

theorem at_heap {f g : Heap → Eval α} (h : P S m (f m.heap σ m) (g m.heap σ m)) :
    P S m ((heap >>= f) σ m) ((heap >>= g) σ m) := h

section Primitives

variable (hP : Compositional P)

include hP

theorem newFunction_bind {d : FunctionDecl} {closure : ScopeId} {f g : FunctionId → Eval α}
    (h : let grown : Machine := { m with heap := m.heap.addFunction ⟨d, closure, false⟩ }
      P S grown (f m.heap.functions.size σ grown) (g m.heap.functions.size σ grown)) :
    P S m ((newFunction ⟨d, closure, false⟩ >>= f) σ m)
      ((newFunction ⟨d, closure, false⟩ >>= g) σ m) :=
  hP.step (.function d closure) h

theorem settled (line : Nat) (r : Except RuntimeFault α) :
    P S m (settled line r m) (settled line r m) := by
  cases r
  · exact hP.error _
  · exact hP.ok _

theorem plainly (r : Except RuntimeError α) :
    P S m ((plainly r : Eval α) σ m) ((plainly r : Eval α) σ m) := by
  cases r
  · exact hP.error _
  · exact hP.ok _

theorem lookUp (node : NodeId) (name : Token) :
    P S m (lookUp node name σ m) (lookUp node name σ m) := by
  rw [lookUp_run]
  exact hP.settled ..

theorem unary (operator : Token) (v : Value) :
    P S m ((unary operator v : Eval Value) σ m) ((unary operator v : Eval Value) σ m) := by
  obtain ⟨r, hr, -⟩ := unary_plainly operator v
  rw [hr]; exact hP.plainly r

theorem binary (v : Value) (operator : Token) (w : Value) :
    P S m ((binary v operator w : Eval Value) σ m) ((binary v operator w : Eval Value) σ m) := by
  obtain ⟨r, hr, -⟩ := binary_plainly v operator w
  rw [hr]; exact hP.plainly r

theorem checkArity (expected got line : Nat) :
    P S m ((checkArity expected got line : Eval Unit) σ m)
      ((checkArity expected got line : Eval Unit) σ m) := by
  unfold Eval.checkArity; split
  · exact hP.ok _
  · exact hP.error _

theorem print (text : String) : P S m (print text σ m) (print text σ m) := by
  rw [print_run]
  refine hP.step (.output (m.out.write (text ++ "\n").toUTF8)) ?_
  split
  · exact hP.ok _
  · exact hP.error _

theorem callNative (f : Native) : P S m (callNative f σ m) (callNative f σ m) := by
  cases f
  exact hP.step .clock (hP.ok _)

theorem boundMethod {c : ClassId} {x : String} {f : Function}
    (hf : m.heap.findMethod? c x = some f) (i : InstanceId) :
    P S m (boundMethod f i σ m) (boundMethod f i σ m) :=
  hP.step (.method i hf) (hP.ok _)

theorem getProperty (v : Value) (name : Token) :
    P S m (getProperty v name σ m) (getProperty v name σ m) := by
  unfold Eval.getProperty
  split
  · next i =>
    refine at_heap ?_
    cases m.heap.instances[i]? with
    | none => exact hP.error _
    | some o =>
      cases hx : o.fields.get? name.lexeme with
      | some field => simp only [hx]; exact hP.ok _
      | none =>
        cases hf : m.heap.findMethod? o.ofClass name.lexeme with
        | some f => simp only [hx, hf]; exact hP.boundMethod hf i
        | none => simp only [hx, hf]; exact hP.error _
  · exact hP.error _

theorem superMethod (node : NodeId) (keyword method : Token) :
    P S m (superMethod node keyword method σ m) (superMethod node keyword method σ m) := by
  have getAt (k : Nat) (x : String) (line : Nat) {m : Machine} :
      P S m (Eval.getAt k x line σ m) (Eval.getAt k x line σ m) := by
    rw [getAt_run]; exact hP.settled ..
  unfold Eval.superMethod
  rw [read_bind]
  cases σ.distances[node]? with
  | none => exact hP.error _
  | some distance =>
    refine hP.bind (getAt ..) fun v m' _ => hP.bind (getAt ..) fun w m'' _ => ?_
    split
    · refine at_heap ?_
      cases hf : m''.heap.findMethod? _ method.lexeme with
      | some f => exact hP.boundMethod hf _
      | none => exact hP.error _
    · exact hP.error _

/-- A class is made and then declared. -/
theorem declareClass {name : Token} (superclass : Option ClassId) (methods : List FunctionDecl)
    (hd : ∀ v m, P True m (define name.lexeme v σ m) (define name.lexeme v σ m)) :
    P True m (declareClass name superclass methods σ m)
      (declareClass name superclass methods σ m) := by
  cases superclass with
  | none => exact hP.step (.class name.lexeme none methods m.cursor) (hd ..)
  | some s =>
    refine hP.step (.scope [("super", .class s)] m.cursor) ?_
    exact hP.step (.class name.lexeme (some s) methods m.heap.scopes.size) (hd ..)

end Primitives

/-! ### The rules -/

section Rules

variable (hP : Compositional P) {eval eval' : Expr → Eval Value} {exec exec' : Stmt → Eval Completion}

include hP

theorem statements (hs : ∀ s m, P True m (exec s σ m) (exec' s σ m)) (body : List Stmt) :
    P True m (statements exec body σ m) (statements exec' body σ m) := by
  induction body generalizing m with
  | nil => exact hP.ok _
  | cons s rest ih =>
    refine hP.bind (hs s m) fun c m' _ => ?_
    cases c with
    | normal => exact ih
    | returned v => exact hP.ok _

theorem values (he : ∀ e m, P S m (eval e σ m) (eval' e σ m)) (es : List Expr) :
    P S m (values eval es σ m) (values eval' es σ m) := by
  induction es generalizing m with
  | nil => exact hP.ok _
  | cons e rest ih =>
    exact hP.bind (he e m) fun v m' _ => hP.bind ih fun vs m'' _ => hP.ok _

section Calls

variable (hs : ∀ s m, P True m (exec s σ m) (exec' s σ m))

include hs

theorem callFunction (f : Function) (arguments : List Value) :
    P S m (callFunction exec f arguments σ m) (callFunction exec' f arguments σ m) := by
  unfold Eval.callFunction
  rw [← bind_assoc, ← bind_assoc]
  refine hP.bind (hP.opened (hP.statements hs _)) fun c m' _ => ?_
  split
  · refine at_heap ?_
    rw [lift_run]
    exact hP.settled ..
  · split <;> exact hP.ok _

theorem instantiate (c : ClassId) (arguments : List Value) :
    P S m (instantiate exec c arguments σ m) (instantiate exec' c arguments σ m) := by
  unfold Eval.instantiate
  rw [newInstance_bind, newInstance_bind]
  refine hP.step (.instance c) (at_heap ?_)
  cases (m.heap.addInstance c).findMethod? c initializerName with
  | none => exact hP.ok _
  | some f =>
    refine hP.step (.scope [("this", .instance m.heap.instances.size)] f.closure) ?_
    exact hP.bind (hP.callFunction hs ..) fun _ _ _ => hP.ok _

theorem callValue (callee : Value) (arguments : List Value) (line : Nat) :
    P S m (callValue exec callee arguments line σ m)
      (callValue exec' callee arguments line σ m) := by
  unfold Eval.callValue
  split
  · exact hP.bind (hP.checkArity ..) fun _ _ _ => hP.callNative _
  · next f =>
    refine at_heap ?_
    cases m.heap.functions[f]? with
    | none => exact hP.error _
    | some f => exact hP.bind (hP.checkArity ..) fun _ _ _ => hP.callFunction hs ..
  · exact at_heap (hP.bind (hP.checkArity ..) fun _ _ _ => hP.instantiate hs ..)
  · exact hP.error _

end Calls

/-- An expression, when its parts are related and also the assignments behind their values. -/
theorem exprRule {e : Expr} (he : ∀ e m, P S m (eval e σ m) (eval' e σ m))
    (hs : ∀ s m, P True m (exec s σ m) (exec' s σ m))
    (ha : ∀ {node name value}, e = .assign node name value → ∀ m₀ v m,
      eval value σ m₀ = .ok v m → P S m (assign node name v σ m) (assign node name v σ m)) :
    P S m (exprRule eval exec e σ m) (exprRule eval' exec' e σ m) := by
  cases e with
  | literal value => exact hP.ok _
  | grouping inner => exact he inner m
  | unary operator operand => exact hP.bind (he operand m) fun v m' _ => hP.unary ..
  | binary left operator right =>
    exact hP.bind (he left m) fun v m' _ => hP.bind (he right m') fun w m'' _ => hP.binary ..
  | logical left operator right =>
    refine hP.bind (he left m) fun v m' _ => ?_
    split
    · exact hP.ok _
    · exact he right m'
  | «variable» node name => exact hP.lookUp ..
  | assign node name value =>
    exact hP.bind (he value m) fun v m' hv => hP.bind (ha rfl _ _ _ hv) fun _ m'' _ => hP.ok _
  | call callee closing arguments =>
    exact hP.bind (he callee m) fun f m' _ => hP.bind (hP.values he arguments) fun vs m'' _ =>
      hP.callValue hs ..
  | get object name => exact hP.bind (he object m) fun v m' _ => hP.getProperty ..
  | set object name value =>
    refine hP.bind (he object m) fun v m' _ => ?_
    cases v with
    | «instance» i =>
      exact hP.bind (he value m') fun w m'' _ => hP.step (.field i name.lexeme w) (hP.ok w)
    | _ => exact hP.error _
  | this node keyword => exact hP.lookUp ..
  | super node keyword method => exact hP.superMethod ..

theorem loop (he : ∀ e m, P True m (eval e σ m) (eval' e σ m))
    (hs : ∀ s m, P True m (exec s σ m) (exec' s σ m)) (condition : Expr) (body : Stmt) (n : Nat) :
    P True m (loop eval exec condition body n σ m) (loop eval' exec' condition body n σ m) := by
  induction n generalizing m with
  | zero => exact hP.error _
  | succ n ih =>
    refine hP.bind (he condition m) fun v m' _ => ?_
    split
    · refine hP.bind (hs body m') fun c m'' _ => ?_
      cases c with
      | normal => exact ih
      | returned v => exact hP.ok _
    · exact hP.ok _

/-- A statement, when its parts are related and also the declaration of its name. -/
theorem stmtRule {s : Stmt} (he : ∀ e m, P True m (eval e σ m) (eval' e σ m))
    (hs : ∀ s m, P True m (exec s σ m) (exec' s σ m))
    (hd : ∀ {name}, s.declared? = some name → ∀ v m,
      P True m (define name.lexeme v σ m) (define name.lexeme v σ m)) (n : Nat) :
    P True m (stmtRule eval exec n s σ m) (stmtRule eval' exec' n s σ m) := by
  match s with
  | .expression e => exact hP.bind (he e m) fun _ _ _ => hP.ok _
  | .print e =>
    exact hP.bind (he e m) fun v m' _ => at_heap (hP.bind (hP.print _) fun _ _ _ => hP.ok _)
  | .var name none => exact hP.bind (hd rfl _ m) fun _ _ _ => hP.ok _
  | .var name (some e) =>
    exact hP.bind (he e m) fun v m' _ => hP.bind (hd rfl v m') fun _ _ _ => hP.ok _
  | .block body => exact at_state (hP.opened (hP.statements hs body))
  | .if condition consequent alternative =>
    refine hP.bind (he condition m) fun v m' _ => ?_
    split
    · exact hs consequent m'
    · split
      · exact hs _ m'
      · exact hP.ok _
  | .while condition body => exact hP.loop he hs condition body n
  | .function f =>
    exact at_state (hP.newFunction_bind (hP.bind (hd rfl ..) fun _ _ _ => hP.ok _))
  | .return _ none => exact hP.ok _
  | .return _ (some e) => exact hP.bind (he e m) fun v _ _ => hP.ok _
  | .class name none methods =>
    exact hP.bind (hP.declareClass none methods (hd rfl)) fun _ _ _ => hP.ok _
  | .class name (some superclass) methods =>
    refine hP.bind (he superclass m) fun v m' _ => ?_
    split
    · exact hP.bind (hP.declareClass _ methods (hd rfl)) fun _ _ _ => hP.ok _
    · exact hP.error _

end Rules

/-! ### Whole evaluations -/

section Whole

variable (hP : Compositional P)
  (ha : ∀ {S σ m} node name v, P S m (assign node name v σ m) (assign node name v σ m))
  (hd : ∀ {σ m} x v, P True m (define x v σ m) (define x v σ m))

include hP ha hd

theorem nodes (n : Nat) : (∀ S σ e m, P S m (expr n e σ m) (expr n e σ m)) ∧
    ∀ σ s m, P True m (stmt n s σ m) (stmt n s σ m) := by
  induction n with
  | zero => exact ⟨fun _ _ _ _ => hP.error _, fun _ _ _ => hP.error _⟩
  | succ n ih =>
    obtain ⟨he, hs⟩ := ih
    exact ⟨fun S σ e m => hP.exprRule (he S σ) (hs σ) fun _ _ _ _ _ => ha _ _ _,
      fun σ s m => hP.stmtRule (he True σ) (hs σ) (fun _ v _ => hd _ v) n⟩

theorem expr (n : Nat) (e : Expr) : P S m (expr n e σ m) (expr n e σ m) :=
  (hP.nodes ha hd n).1 S σ e m

theorem stmt (n : Nat) (s : Stmt) : P True m (stmt n s σ m) (stmt n s σ m) :=
  (hP.nodes ha hd n).2 σ s m

theorem program (fuel : Nat) (p : List Stmt) :
    P True m (program fuel p σ m) (program fuel p σ m) := by
  induction p generalizing m with
  | nil => exact hP.ok _
  | cons s rest ih => exact hP.bind (hP.stmt ha hd fuel s) fun _ _ _ => ih

end Whole

end Compositional
end Eval
end Treewalk
