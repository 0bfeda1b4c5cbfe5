import Treewalk.Proofs.Evaluation.Steps
/-!
# What holds of every evaluation

A property of evaluations that the primitives have and that running one after another keeps
(`Eval.Closed`) holds of all expressions and statements (`Closed.nodes`), and so of all programs
(`Closed.program`).
-/

namespace Treewalk
namespace Eval

/-- A step that changes the heap only, and does not see the output. -/
def heapStep {α : Type} (f : Heap → ScopeId → α × Heap) : Eval α :=
  modifyGet fun m => ((f m.heap m.cursor).1, { m with heap := (f m.heap m.cursor).2 })

/-- A property that primitives have and that running one after another keeps. -/
structure Closed (P : {α : Type} → Eval α → Prop) : Prop where
  pure {α : Type} (a : α) : P (pure a : Eval α)
  throw {α : Type} (e : Stop) : P (throw e : Eval α)
  bind {α β : Type} {x : Eval α} {f : α → Eval β} : P x → (∀ a, P (f a)) → P (x >>= f)
  get_bind {α : Type} {f : Heap → ScopeId → Eval α} :
    (∀ h c, P (f h c)) → P (get >>= fun m => f m.heap m.cursor)
  read_bind {α : Type} {f : Setting → Eval α} : (∀ σ, P (f σ)) → P (read >>= f)
  heapStep {α : Type} (f : Heap → ScopeId → α × Heap) : P (heapStep f)
  within {α : Type} (scope : ScopeId) {body : Eval α} : P body → P (within scope body)
  print (text : String) : P (print text)
  clock : P (callNative .clock)

namespace Closed

variable {P : {α : Type} → Eval α → Prop} {α β : Type}

section Primitives

variable (hP : Closed P)

include hP

theorem heap_bind {f : Heap → Eval β} (h : ∀ k, P (f k)) : P (Eval.heap >>= f) :=
  hP.get_bind (f := fun k _ => f k) fun k _ => h k

theorem lift (line : Nat) (r : Except RuntimeFault α) : P (Eval.lift line r : Eval α) := by
  cases r
  · exact hP.throw _
  · exact hP.pure _

theorem plainly (r : Except RuntimeError α) : P (Eval.plainly r : Eval α) := by
  cases r
  · exact hP.throw _
  · exact hP.pure _

theorem modifyHeap (f : Heap → Heap) : P (modifyHeap f) :=
  hP.heapStep fun h _ => ((), f h)

theorem newScope (b : Bindings Value) (enclosing : ScopeId) : P (newScope b enclosing) :=
  hP.heapStep fun h _ => (h.scopes.size, h.addScope b enclosing)

theorem newFunction (f : Function) : P (newFunction f) :=
  hP.heapStep fun h _ => (h.functions.size, h.addFunction f)

theorem newClass (c : Class) : P (newClass c) :=
  hP.heapStep fun h _ => (h.classes.size, h.addClass c)

theorem newInstance (c : ClassId) : P (newInstance c) :=
  hP.heapStep fun h _ => (h.instances.size, h.addInstance c)

theorem define (x : String) (v : Value) : P (define x v) :=
  hP.heapStep fun h c => ((), h.define c x v)

/-! ### Names -/

theorem getAt (distance : Nat) (x : String) (line : Nat) : P (getAt distance x line) :=
  hP.get_bind (f := fun h c => Eval.lift line (h.scopes.getAt c distance x)) fun _ _ => hP.lift ..

theorem lookUp (node : NodeId) (name : Token) : P (lookUp node name) := by
  refine hP.read_bind fun σ => ?_
  split
  · exact hP.getAt ..
  · exact hP.heap_bind fun _ => hP.lift ..

theorem locate (node : NodeId) (name : Token) : P (locate node name) := by
  let f (h : Heap) (c : ScopeId) : Eval ScopeId := read >>= fun σ => Eval.lift name.line <|
    σ.distances[node]?.elim (h.scopes.find Heap.globals name.lexeme) fun distance =>
      h.scopes.findAt c distance name.lexeme
  have hf : Eval.locate node name = get >>= fun m => f m.heap m.cursor := by
    refine congrArg _ (funext fun m => congrArg _ (funext fun σ => ?_))
    cases σ.distances[node]? <;> rfl
  rw [hf]
  exact hP.get_bind fun _ _ => hP.read_bind fun _ => hP.lift ..

theorem assign (node : NodeId) (name : Token) (v : Value) : P (assign node name v) :=
  hP.bind (hP.locate node name) fun _ => hP.modifyHeap _

/-! ### Operators, functions and classes -/

theorem unary (operator : Token) (v : Value) : P (unary operator v : Eval Value) := by
  obtain ⟨r, hr, -⟩ := unary_plainly operator v
  rw [hr]; exact hP.plainly r

theorem binary (v : Value) (operator : Token) (w : Value) :
    P (binary v operator w : Eval Value) := by
  obtain ⟨r, hr, -⟩ := binary_plainly v operator w
  rw [hr]; exact hP.plainly r

theorem checkArity (expected got line : Nat) : P (checkArity expected got line : Eval Unit) := by
  unfold Eval.checkArity; split
  · exact hP.pure _
  · exact hP.throw _

theorem bindMethod (f : Function) (i : InstanceId) : P (Eval.bind f i) :=
  hP.bind (hP.newScope ..) fun _ => hP.pure _

theorem boundMethod (f : Function) (i : InstanceId) : P (boundMethod f i) :=
  hP.bind (hP.bindMethod f i) fun _ => hP.bind (hP.newFunction _) fun _ => hP.pure _

theorem getProperty (v : Value) (name : Token) : P (getProperty v name) := by
  unfold Eval.getProperty; split
  · refine hP.heap_bind fun h => ?_
    split
    · split
      · exact hP.pure _
      · split
        · exact hP.boundMethod ..
        · exact hP.throw _
    · exact hP.throw _
  · exact hP.throw _

theorem superMethod (node : NodeId) (keyword method : Token) :
    P (superMethod node keyword method) := by
  refine hP.read_bind fun σ => ?_
  split
  · exact hP.throw _
  · refine hP.bind (hP.getAt ..) fun v => hP.bind (hP.getAt ..) fun w => ?_
    split
    · refine hP.heap_bind fun h => ?_
      split
      · exact hP.boundMethod ..
      · exact hP.throw _
    · exact hP.throw _

theorem declareClass (name : Token) (superclass : Option ClassId) (methods : List FunctionDecl) :
    P (declareClass name superclass methods) := by
  have closure : P (methodClosure superclass) := by
    cases superclass with
    | none => exact hP.get_bind (f := fun _ c => Pure.pure c) fun _ _ => hP.pure _
    | some s =>
      exact hP.get_bind (f := fun _ c => Eval.newScope [("super", .class s)] c)
        fun _ _ => hP.newScope ..
  exact hP.bind closure fun _ => hP.bind (hP.newClass _) fun _ => hP.define ..

end Primitives

/-! ### The rules -/

section Rules

variable {eval : Expr → Eval Value} {exec : Stmt → Eval Completion} (hP : Closed P)
  (he : ∀ e, P (eval e)) (hs : ∀ s, P (exec s))

include hP

theorem statements (hs : ∀ s, P (exec s)) (body : List Stmt) : P (statements exec body) := by
  induction body with
  | nil => exact hP.pure _
  | cons s rest ih =>
    refine hP.bind (hs s) fun c => ?_
    cases c with
    | normal => exact ih
    | returned v => exact hP.pure _

theorem values (he : ∀ e, P (eval e)) (es : List Expr) : P (values eval es) := by
  induction es with
  | nil => exact hP.pure _
  | cons e rest ih => exact hP.bind (he e) fun _ => hP.bind ih fun _ => hP.pure _

theorem callFunction (hs : ∀ s, P (exec s)) (f : Function) (arguments : List Value) :
    P (callFunction exec f arguments) := by
  refine hP.bind (hP.newScope ..) fun scope =>
    hP.bind (hP.within scope (hP.statements hs _)) fun c => ?_
  split
  · exact hP.heap_bind fun _ => hP.lift ..
  · split <;> exact hP.pure _

theorem instantiate (hs : ∀ s, P (exec s)) (c : ClassId) (arguments : List Value) :
    P (instantiate exec c arguments) := by
  refine hP.bind (hP.newInstance c) fun i => hP.heap_bind fun h => ?_
  split
  · exact hP.bind (hP.bindMethod ..) fun _ => hP.bind (hP.callFunction hs ..) fun _ => hP.pure _
  · exact hP.pure _

theorem callValue (hs : ∀ s, P (exec s)) (callee : Value) (arguments : List Value) (line : Nat) :
    P (callValue exec callee arguments line) := by
  unfold Eval.callValue; split
  · exact hP.bind (hP.checkArity ..) fun _ => hP.clock
  · refine hP.heap_bind fun h => ?_
    split
    · exact hP.bind (hP.checkArity ..) fun _ => hP.callFunction hs ..
    · exact hP.throw _
  · exact hP.heap_bind fun _ => hP.bind (hP.checkArity ..) fun _ => hP.instantiate hs ..
  · exact hP.throw _

include he hs

theorem exprRule (e : Expr) : P (exprRule eval exec e) := by
  cases e with
  | literal value => exact hP.pure _
  | grouping inner => exact he inner
  | unary operator operand => exact hP.bind (he operand) fun v => hP.unary ..
  | binary left operator right =>
    exact hP.bind (he left) fun v => hP.bind (he right) fun w => hP.binary ..
  | logical left operator right =>
    refine hP.bind (he left) fun v => ?_
    split
    · exact hP.pure _
    · exact he right
  | «variable» node name => exact hP.lookUp ..
  | assign node name value =>
    exact hP.bind (he value) fun v => hP.bind (hP.assign ..) fun _ => hP.pure _
  | call callee closing arguments =>
    exact hP.bind (he callee) fun f => hP.bind (hP.values he arguments) fun vs =>
      hP.callValue hs ..
  | get object name => exact hP.bind (he object) fun v => hP.getProperty ..
  | set object name value =>
    refine hP.bind (he object) fun v => ?_
    split
    · exact hP.bind (he value) fun w => hP.bind (hP.modifyHeap _) fun _ => hP.pure _
    · exact hP.throw _
  | this node keyword => exact hP.lookUp ..
  | super node keyword method => exact hP.superMethod ..

theorem loop (condition : Expr) (body : Stmt) (n : Nat) : P (loop eval exec condition body n) := by
  induction n with
  | zero => exact hP.throw _
  | succ n ih =>
    refine hP.bind (he condition) fun v => ?_
    split
    · refine hP.bind (hs body) fun c => ?_
      cases c with
      | normal => exact ih
      | returned v => exact hP.pure _
    · exact hP.pure _

theorem stmtRule (n : Nat) (s : Stmt) : P (stmtRule eval exec n s) := by
  match s with
  | .expression e => exact hP.bind (he e) fun _ => hP.pure _
  | .print e =>
    exact hP.bind (he e) fun v => hP.heap_bind fun h => hP.bind (hP.print _) fun _ => hP.pure _
  | .var name none => exact hP.bind (hP.define ..) fun _ => hP.pure _
  | .var name (some e) => exact hP.bind (he e) fun v => hP.bind (hP.define ..) fun _ => hP.pure _
  | .block body =>
    exact hP.get_bind (f := fun _ c => Eval.newScope [] c >>= fun scope =>
      Eval.within scope (Eval.statements exec body)) fun _ _ =>
        hP.bind (hP.newScope ..) fun scope => hP.within scope (hP.statements hs body)
  | .if condition consequent alternative =>
    refine hP.bind (he condition) fun v => ?_
    split
    · exact hs consequent
    · split
      · exact hs _
      · exact hP.pure _
  | .while condition body => exact hP.loop he hs condition body n
  | .function f =>
    exact hP.get_bind (f := fun _ c => Eval.newFunction ⟨f, c, false⟩ >>= fun id =>
      Eval.define f.name.lexeme (.function id) >>= fun _ => Pure.pure Completion.normal) fun _ _ =>
        hP.bind (hP.newFunction _) fun _ => hP.bind (hP.define ..) fun _ => hP.pure _
  | .return _ none => exact hP.pure _
  | .return _ (some e) => exact hP.bind (he e) fun v => hP.pure _
  | .class name none methods => exact hP.bind (hP.declareClass ..) fun _ => hP.pure _
  | .class name (some superclass) methods =>
    refine hP.bind (he superclass) fun v => ?_
    split
    · exact hP.bind (hP.declareClass ..) fun _ => hP.pure _
    · exact hP.throw _

end Rules

/-! ### Whole evaluations -/

section Whole

variable (hP : Closed P)

include hP

theorem nodes (n : Nat) : (∀ e, P (Eval.expr n e)) ∧ ∀ s, P (Eval.stmt n s) := by
  induction n with
  | zero => exact ⟨fun _ => hP.throw _, fun _ => hP.throw _⟩
  | succ n ih => exact ⟨hP.exprRule ih.1 ih.2, hP.stmtRule ih.1 ih.2 n⟩

theorem stmt (n : Nat) (s : Stmt) : P (stmt n s) :=
  (hP.nodes n).2 s

theorem program (fuel : Nat) (p : List Stmt) : P (program fuel p) := by
  induction p with
  | nil => exact hP.pure _
  | cons s rest ih => exact hP.bind (hP.stmt fuel s) fun _ => ih

end Whole

end Closed
end Eval
end Treewalk
