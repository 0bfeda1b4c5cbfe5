import Treewalk.Proofs.Evaluation.Watch
import Treewalk.Proofs.Renaming.Trees
import Treewalk.Proofs.Resolution.Identities
/-!
# Evaluating renamed programs

Of an identity evaluation only looks at the distance, and of a line only when it stops at an error. So
if the renamed references have the distances of the ones they were, renamed statements do on a machine
with renamed functions what the statements did, and stop at an error on the renamed line.
-/

namespace Treewalk

def RuntimeError.rename (ρ : Renaming) (e : RuntimeError) : RuntimeError :=
  { e with line := ρ.line e.line }

def Stop.rename (ρ : Renaming) : Stop → Stop
  | .runtime e => .runtime (e.rename ρ)
  | .output reason => .output reason
  | .outOfFuel => .outOfFuel

/-! ### Renamed heaps -/

namespace Bindings

variable {α β : Type}

/-- The same names with other things. -/
def map (f : α → β) (b : Bindings α) : Bindings β :=
  List.map (fun entry => (entry.1, f entry.2)) b

theorem get?_map (f : α → β) (b : Bindings α) (x : String) : (b.map f).get? x = (b.get? x).map f := by
  induction b with
  | nil => rfl
  | cons entry rest ih =>
    obtain ⟨y, a⟩ := entry
    show (if y = x then some (f a) else (map f rest).get? x) = (if y = x then some a else _).map f
    rw [ih]
    split <;> rfl

theorem set_map (f : α → β) (b : Bindings α) (x : String) (a : α) :
    (b.map f).set x (f a) = (b.set x a).map f := by
  induction b with
  | nil => rfl
  | cons entry rest ih =>
    obtain ⟨y, a'⟩ := entry
    show (if y = x then (y, f a) :: map f rest else (y, f a') :: (map f rest).set x (f a)) =
      map f (if y = x then (y, a) :: rest else (y, a') :: set rest x a)
    rw [ih]
    split <;> rfl

end Bindings

def Function.rename (ρ : Renaming) (f : Function) : Function :=
  { f with declaration := f.declaration.rename ρ }

def Class.rename (ρ : Renaming) (k : Class) : Class :=
  { k with methods := k.methods.map (Function.rename ρ) }

def Heap.rename (ρ : Renaming) (h : Heap) : Heap :=
  { h with
    functions := h.functions.map (Function.rename ρ)
    classes := h.classes.map (Class.rename ρ) }

def Machine.rename (ρ : Renaming) (m : Machine) : Machine := { m with heap := m.heap.rename ρ }

/-- Of what evaluation stops with only the line is renamed. -/
theorem Stop.rename_identities (f : NodeId → NodeId) (e : Stop) : e.rename (.identities f) = e := by
  cases e <;> rfl

theorem Stop.rename_same (e : Stop) : e.rename .same = e :=
  e.rename_identities _

theorem Function.rename_same (f : Function) : f.rename .same = f := by
  rw [Function.rename, FunctionDecl.rename_same]

theorem Class.rename_same (k : Class) : k.rename .same = k := by
  obtain ⟨name, superclass, methods⟩ := k
  have hmap : methods.map (Function.rename .same) = methods := by
    unfold Bindings.map
    simp only [Function.rename_same, List.map_id']
  rw [Class.rename, hmap]

theorem Machine.rename_same (m : Machine) : m.rename .same = m := by
  obtain ⟨⟨scopes, functions, classes, instances⟩, cursor, out, readings⟩ := m
  have hfunctions : functions.map (Function.rename .same) = functions := by
    rw [funext Function.rename_same]
    exact Array.map_id' functions
  have hclasses : classes.map (Class.rename .same) = classes := by
    rw [funext Class.rename_same]
    exact Array.map_id' classes
  rw [Machine.rename, Heap.rename, hfunctions, hclasses]

namespace Heap

variable (ρ : Renaming) (h : Heap)

theorem addFunction_rename (f : Function) :
    (h.rename ρ).addFunction (f.rename ρ) = (h.addFunction f).rename ρ := by
  simp only [addFunction, rename, Array.map_push]

theorem addClass_rename (k : Class) :
    (h.rename ρ).addClass (k.rename ρ) = (h.addClass k).rename ρ := by
  simp only [addClass, rename, Array.map_push]

@[simp] theorem functions_rename (f : FunctionId) :
    (h.rename ρ).functions[f]? = h.functions[f]?.map (Function.rename ρ) :=
  Array.getElem?_map

@[simp] theorem classes_rename (c : ClassId) :
    (h.rename ρ).classes[c]? = h.classes[c]?.map (Class.rename ρ) :=
  Array.getElem?_map

theorem findMethod?_rename (c : ClassId) (x : String) :
    (h.rename ρ).findMethod? c x = (h.findMethod? c x).map (Function.rename ρ) := by
  have hsuperclass (c : ClassId) : (h.rename ρ).superclass? c = h.superclass? c := by
    unfold superclass?
    rw [classes_rename]
    cases h.classes[c]? <;> rfl
  induction c using Nat.strong_induction_on with
  | _ c ih =>
    rw [findMethod?_eq, findMethod?_eq h, hsuperclass, classes_rename]
    have hown : (h.classes[c]?.map (Class.rename ρ)).bind (·.methods.get? x) =
        (h.classes[c]?.bind (·.methods.get? x)).map (Function.rename ρ) := by
      cases h.classes[c]? with
      | none => rfl
      | some k => exact Bindings.get?_map ..
    rw [hown]
    cases h.classes[c]?.bind (·.methods.get? x) with
    | some f => rfl
    | none =>
      cases hs : h.superclass? c with
      | none => rfl
      | some s => exact ih s (superclass?_lt hs)

theorem classArity_rename (c : ClassId) : (h.rename ρ).classArity c = h.classArity c := by
  unfold classArity
  rw [findMethod?_rename]
  cases h.findMethod? c initializerName with
  | none => rfl
  | some f => simp [Function.arity, Function.rename]

theorem className_rename (c : ClassId) : (h.rename ρ).className c = h.className c := by
  unfold className
  rw [classes_rename]
  cases h.classes[c]? <;> rfl

theorem text_rename (v : Value) : (h.rename ρ).text v = h.text v := by
  cases v with
  | function f =>
    simp only [text, functions_rename]
    cases h.functions[f]? with
    | none => rfl
    | some f => simp [Function.name, Function.rename]
  | «class» c => exact className_rename ρ h c
  | «instance» i =>
    have hinstances : (h.rename ρ).instances = h.instances := rfl
    simp only [text, hinstances, className_rename]
  | bool b => cases b <;> rfl
  | nil | number | string | native => rfl

end Heap

namespace Eval

variable {α α' β β' : Type} {ρ : Renaming} {σ σ' : Setting} {m : Machine}

/-- On machine `m` the evaluation `x` does what `x'` does on the renamed one; `φ` renames what they
result in. -/
def Renames (ρ : Renaming) (σ σ' : Setting) (φ : α → α') (m : Machine) (x : Eval α) (x' : Eval α') :
    Prop :=
  x' σ' (m.rename ρ) = match x σ m with
    | .ok a m' => .ok (φ a) (m'.rename ρ)
    | .error e m' => .error (e.rename ρ) (m'.rename ρ)

section Primitives

variable {φ : α → α'} {ψ : β → β'} {x : Eval α} {x' : Eval α'} {f : α → Eval β} {f' : α' → Eval β'}

theorem renames_pure {a : α} {a' : α'} (h : φ a = a') : Renames ρ σ σ' φ m (pure a) (pure a') := by
  subst h
  rfl

theorem renames_throw {e e' : Stop} (h : e.rename ρ = e') :
    Renames ρ σ σ' φ m (throw e : Eval α) (throw e' : Eval α') := by
  subst h
  rfl

theorem renames_fail (line : Nat) (fault : RuntimeFault) :
    Renames ρ σ σ' φ m (fail line fault) (fail (ρ.line line) fault) :=
  renames_throw rfl

theorem Renames.bind (h : Renames ρ σ σ' φ m x x')
    (hf : ∀ a m, Renames ρ σ σ' ψ m (f a) (f' (φ a))) :
    Renames ρ σ σ' ψ m (x >>= f) (x' >>= f') := by
  unfold Renames at h ⊢
  rw [bind_run, bind_run, h]
  cases x σ m with
  | ok a m' => exact hf a m'
  | error e m' => rfl

theorem Renames.map (h : Renames ρ σ σ' φ m x x') {g : α → β} {g' : α' → β'}
    (hg : ∀ a, ψ (g a) = g' (φ a)) :
    Renames ρ σ σ' ψ m (do let a ← x; return g a) (do let a ← x'; return g' a) :=
  h.bind fun a _ => renames_pure (hg a)

theorem renames_ite {c : Bool} {y : Eval α} {y' : Eval α'} (hx : Renames ρ σ σ' φ m x x')
    (hy : Renames ρ σ σ' φ m y y') :
    Renames ρ σ σ' φ m (if c = true then x else y) (if c = true then x' else y') := by
  cases c with
  | true => exact hx
  | false => exact hy

theorem renames_get_bind {f : Machine → Eval β} {f' : Machine → Eval β'}
    (h : Renames ρ σ σ' ψ m (f m) (f' (m.rename ρ))) : Renames ρ σ σ' ψ m (get >>= f) (get >>= f') :=
  h

theorem renames_read_bind {f : Setting → Eval β} {f' : Setting → Eval β'}
    (h : Renames ρ σ σ' ψ m (f σ) (f' σ')) : Renames ρ σ σ' ψ m (read >>= f) (read >>= f') :=
  h

theorem renames_heap_bind {f : Heap → Eval β} {f' : Heap → Eval β'}
    (h : Renames ρ σ σ' ψ m (f m.heap) (f' (m.heap.rename ρ))) :
    Renames ρ σ σ' ψ m (heap >>= f) (heap >>= f') :=
  h

theorem renames_modifyHeap {g g' : Heap → Heap} (h : ∀ k, (g k).rename ρ = g' (k.rename ρ)) :
    Renames ρ σ σ' id m (modifyHeap g) (modifyHeap g') := by
  unfold Renames
  rw [modifyHeap_run, modifyHeap_run]
  exact congrArg (fun k => EStateM.Result.ok () { m with heap := k }) (h m.heap).symm

theorem renames_define (y : String) (v : Value) : Renames ρ σ σ' id m (define y v) (define y v) :=
  rfl

theorem renames_newScope (b : Bindings Value) (enclosing : ScopeId) :
    Renames ρ σ σ' id m (newScope b enclosing) (newScope b enclosing) :=
  rfl

theorem renames_newInstance (c : ClassId) :
    Renames ρ σ σ' id m (newInstance c) (newInstance c) :=
  rfl

theorem renames_newFunction (k : Function) :
    Renames ρ σ σ' id m (newFunction k) (newFunction (k.rename ρ)) := by
  have hsize : (m.heap.rename ρ).functions.size = m.heap.functions.size := Array.size_map
  exact congrArg₂ (fun n k => EStateM.Result.ok n { m with heap := k }) hsize
    (Heap.addFunction_rename ..)

theorem renames_newClass (k : Class) :
    Renames ρ σ σ' id m (newClass k) (newClass (k.rename ρ)) := by
  have hsize : (m.heap.rename ρ).classes.size = m.heap.classes.size := Array.size_map
  exact congrArg₂ (fun n k => EStateM.Result.ok n { m with heap := k }) hsize
    (Heap.addClass_rename ..)

theorem renames_lift (line : Nat) (r : Except RuntimeFault α) :
    Renames ρ σ σ' id m (lift line r) (lift (ρ.line line) r) := by
  cases r with
  | ok a => exact renames_pure rfl
  | error fault => exact renames_fail line fault

theorem renames_within {scope : ScopeId} (h : Renames ρ σ σ' φ { m with cursor := scope } x x') :
    Renames ρ σ σ' φ m (within scope x) (within scope x') := by
  unfold Renames at h ⊢
  rw [within_run, within_run]
  have hx : x' σ' { m.rename ρ with cursor := scope } = _ := h
  rw [hx]
  cases x σ { m with cursor := scope } <;> rfl

theorem renames_print (text : String) : Renames ρ σ σ' id m (print text) (print text) := by
  unfold Renames
  rw [print_run, print_run]
  have hout : (m.rename ρ).out = m.out := rfl
  rw [hout]
  cases m.out.refusal? (text ++ "\n").toUTF8 <;> rfl

end Primitives

/-! ### Names -/

section Names

variable {node : NodeId} (hnode : σ'.distances[ρ.node node]? = σ.distances[node]?) (name : Token)

include hnode

theorem renames_lookUp :
    Renames ρ σ σ' id m (lookUp node name) (lookUp (ρ.node node) (name.rename ρ)) := by
  refine renames_read_bind ?_
  rw [hnode]
  cases σ.distances[node]? with
  | none => exact renames_heap_bind (renames_lift _ _)
  | some distance => exact renames_get_bind (renames_lift _ _)

theorem renames_locate :
    Renames ρ σ σ' id m (locate node name) (locate (ρ.node node) (name.rename ρ)) := by
  refine renames_get_bind (renames_read_bind ?_)
  rw [hnode]
  exact renames_lift _ _

theorem renames_assign (v : Value) :
    Renames ρ σ σ' id m (assign node name v) (assign (ρ.node node) (name.rename ρ) v) :=
  (renames_locate hnode name).bind fun _ _ => renames_modifyHeap fun _ => rfl

end Names

/-! ### Operators -/

theorem renames_unary (operator : Token) (v : Value) :
    Renames ρ σ σ' id m (unary operator v) (unary (operator.rename ρ) v) := by
  obtain ⟨kind, lexeme, line⟩ := operator
  unfold unary
  dsimp only [Token.rename]
  split
  · exact renames_pure rfl
  · cases v with
    | number y => exact renames_pure rfl
    | _ => exact renames_fail ..
  · exact renames_fail ..

theorem renames_arithmetic (operator : Token) (x y : Float) :
    Renames ρ σ σ' id m (arithmetic operator x y) (arithmetic (operator.rename ρ) x y) := by
  obtain ⟨kind, lexeme, line⟩ := operator
  unfold arithmetic
  dsimp only [Token.rename]
  split <;> first | exact renames_pure rfl | exact renames_fail ..

theorem renames_binary (v : Value) (operator : Token) (w : Value) :
    Renames ρ σ σ' id m (binary v operator w) (binary v (operator.rename ρ) w) := by
  unfold binary
  rw [Token.kind_rename]
  split
  · exact renames_pure rfl
  · exact renames_pure rfl
  · cases v <;> cases w <;> first | exact renames_pure rfl | exact renames_fail ..
  · cases v <;> cases w <;> first | exact renames_arithmetic .. | exact renames_fail ..

/-! ### Functions and classes -/

theorem parameterBindings_rename (parameters : List Token) (arguments : List Value) :
    parameterBindings (parameters.map (Token.rename ρ)) arguments =
      parameterBindings parameters arguments := by
  unfold parameterBindings
  rw [List.zip_map_left, List.foldl_map]
  rfl

theorem methodTable_rename (methods : List FunctionDecl) (closure : ScopeId) :
    methodTable (methods.map (FunctionDecl.rename ρ)) closure =
      (methodTable methods closure).map (Function.rename ρ) := by
  have hfold (b : Bindings Function) :
      (methods.map (FunctionDecl.rename ρ)).foldl
          (fun b f => b.set f.name.lexeme ⟨f, closure, f.isInitializer⟩) (b.map (Function.rename ρ)) =
        (methods.foldl (fun b f => b.set f.name.lexeme ⟨f, closure, f.isInitializer⟩) b).map
          (Function.rename ρ) := by
    induction methods generalizing b with
    | nil => rfl
    | cons f rest ih =>
      rw [List.map_cons, List.foldl_cons, List.foldl_cons, ← ih, ← Bindings.set_map]
      simp only [FunctionDecl.name_rename, Token.lexeme_rename, FunctionDecl.isInitializer_rename,
        Function.rename]
  exact hfold []

theorem superclassLine_rename (name : Token) (superclass : Expr) :
    superclassLine (name.rename ρ) (superclass.rename ρ) = ρ.line (superclassLine name superclass) := by
  match superclass with
  | .variable _ _ | .literal _ | .grouping _ | .unary _ _ | .binary _ _ _ | .logical _ _ _
  | .assign _ _ _ | .call _ _ _ | .get _ _ | .set _ _ _ | .this _ _ | .super _ _ _ => rfl

theorem renames_bind (f : Function) (i : InstanceId) :
    Renames ρ σ σ' (Function.rename ρ) m (bind f i) (bind (f.rename ρ) i) :=
  (renames_newScope _ _).map fun _ => rfl

theorem renames_boundMethod (f : Function) (i : InstanceId) :
    Renames ρ σ σ' id m (boundMethod f i) (boundMethod (f.rename ρ) i) :=
  (renames_bind f i).bind fun f _ => (renames_newFunction f).map fun _ => rfl

theorem renames_methodClosure (superclass : Option ClassId) :
    Renames ρ σ σ' id m (methodClosure superclass) (methodClosure superclass) := by
  refine renames_get_bind ?_
  cases superclass with
  | none => exact renames_pure rfl
  | some s => exact renames_newScope _ _

theorem renames_declareClass (name : Token) (superclass : Option ClassId)
    (methods : List FunctionDecl) :
    Renames ρ σ σ' id m (declareClass name superclass methods)
      (declareClass (name.rename ρ) superclass (methods.map (FunctionDecl.rename ρ))) := by
  refine (renames_methodClosure superclass).bind fun closure m => ?_
  rw [methodTable_rename]
  refine (renames_newClass _).bind fun c m => ?_
  exact renames_define _ _

theorem renames_checkArity (expected got line : Nat) :
    Renames ρ σ σ' id m (checkArity expected got line) (checkArity expected got (ρ.line line)) := by
  unfold checkArity
  split
  · exact renames_pure rfl
  · exact renames_fail ..

theorem renames_getProperty (v : Value) (name : Token) :
    Renames ρ σ σ' id m (getProperty v name) (getProperty v (name.rename ρ)) := by
  cases v with
  | «instance» i =>
    refine renames_heap_bind ?_
    have hinstances : (m.heap.rename ρ).instances = m.heap.instances := rfl
    rw [hinstances]
    cases m.heap.instances[i]? with
    | none => exact renames_fail ..
    | some o =>
      dsimp only
      rw [Token.lexeme_rename]
      cases o.fields.get? name.lexeme with
      | some field => exact renames_pure rfl
      | none =>
        dsimp only
        rw [Heap.findMethod?_rename]
        cases m.heap.findMethod? o.ofClass name.lexeme with
        | none => exact renames_fail ..
        | some f => exact renames_boundMethod f i
  | _ => exact renames_fail ..

theorem renames_superMethod {node : NodeId}
    (hnode : σ'.distances[ρ.node node]? = σ.distances[node]?) (keyword method : Token) :
    Renames ρ σ σ' id m (superMethod node keyword method)
      (superMethod (ρ.node node) (keyword.rename ρ) (method.rename ρ)) := by
  refine renames_read_bind ?_
  rw [hnode]
  cases σ.distances[node]? with
  | none => exact renames_fail ..
  | some distance =>
    refine Renames.bind (φ := id) (renames_get_bind (renames_lift _ _)) fun superclass m => ?_
    refine Renames.bind (φ := id) (renames_get_bind (renames_lift _ _)) fun object m => ?_
    cases superclass with
    | «class» c =>
      cases object with
      | «instance» i =>
        refine renames_heap_bind ?_
        rw [Heap.findMethod?_rename, Token.lexeme_rename]
        cases m.heap.findMethod? c method.lexeme with
        | none => exact renames_fail ..
        | some f => exact renames_boundMethod f i
      | _ => exact renames_fail ..
    | _ => exact renames_fail ..

section Rules

variable {eval eval' : Expr → Eval Value} {exec exec' : Stmt → Eval Completion}
  (hclock : σ'.clock = σ.clock)
  (heval : ∀ e m, Renames ρ σ σ' id m (eval e) (eval' (e.rename ρ)))
  (hexec : ∀ s m, Renames ρ σ σ' id m (exec s) (exec' (s.rename ρ)))

include hexec in
theorem renames_statements (ss : List Stmt) :
    Renames ρ σ σ' id m (statements exec ss) (statements exec' (ss.map (Stmt.rename ρ))) := by
  induction ss generalizing m with
  | nil => exact renames_pure rfl
  | cons s rest ih =>
    refine (hexec s m).bind fun completion m => ?_
    cases completion with
    | normal => exact ih
    | returned v => exact renames_pure rfl

include hexec in
theorem renames_callFunction (f : Function) (arguments : List Value) :
    Renames ρ σ σ' id m (callFunction exec f arguments)
      (callFunction exec' (f.rename ρ) arguments) := by
  obtain ⟨⟨name, parameters, body⟩, closure, isInitializer⟩ := f
  unfold callFunction
  dsimp only [Function.rename]
  rw [FunctionDecl.parameters_rename, parameterBindings_rename, FunctionDecl.body_rename,
    FunctionDecl.name_rename]
  refine (renames_newScope _ _).bind fun scope m => ?_
  refine (renames_within (renames_statements hexec body)).bind fun completion m => ?_
  cases isInitializer with
  | true => exact renames_heap_bind (renames_lift _ _)
  | false => cases completion <;> exact renames_pure rfl

include hexec in
theorem renames_instantiate (c : ClassId) (arguments : List Value) :
    Renames ρ σ σ' id m (instantiate exec c arguments) (instantiate exec' c arguments) := by
  refine (renames_newInstance c).bind fun i m => renames_heap_bind ?_
  rw [Heap.findMethod?_rename]
  cases m.heap.findMethod? c initializerName with
  | none => exact renames_pure rfl
  | some f =>
    refine (renames_bind f i).bind fun f m => ?_
    exact (renames_callFunction hexec f arguments).map fun _ => rfl

include hclock hexec in
theorem renames_callValue (callee : Value) (arguments : List Value) (line : Nat) :
    Renames ρ σ σ' id m (callValue exec callee arguments line)
      (callValue exec' callee arguments (ρ.line line)) := by
  cases callee with
  | native f =>
    refine (renames_checkArity _ _ _).bind fun _ m => ?_
    cases f with
    | clock =>
      show EStateM.Result.ok (Value.number (σ'.clock m.readings)) _ = _
      rw [hclock]
      rfl
  | function f =>
    refine renames_heap_bind ?_
    rw [Heap.functions_rename]
    cases m.heap.functions[f]? with
    | none => exact renames_fail ..
    | some f =>
      have harity : (f.rename ρ).arity = f.arity := by simp [Function.arity, Function.rename]
      dsimp only [Option.map]
      rw [harity]
      exact (renames_checkArity _ _ _).bind fun _ m => renames_callFunction hexec f arguments
  | «class» c =>
    refine renames_heap_bind ?_
    rw [Heap.classArity_rename]
    exact (renames_checkArity _ _ _).bind fun _ m => renames_instantiate hexec c arguments
  | _ => exact renames_fail ..

include heval in
theorem renames_values (es : List Expr) :
    Renames ρ σ σ' id m (values eval es) (values eval' (es.map (Expr.rename ρ))) := by
  induction es generalizing m with
  | nil => exact renames_pure rfl
  | cons e rest ih => exact (heval e m).bind fun v m => ih.map fun _ => rfl

include heval hexec in
theorem renames_loop (condition : Expr) (body : Stmt) (n : Nat) :
    Renames ρ σ σ' id m (loop eval exec condition body n)
      (loop eval' exec' (condition.rename ρ) (body.rename ρ) n) := by
  induction n generalizing m with
  | zero => exact renames_throw rfl
  | succ n ih =>
    refine (heval condition m).bind fun v m => renames_ite ?_ (renames_pure rfl)
    refine (hexec body m).bind fun completion m => ?_
    cases completion with
    | normal => exact ih
    | returned v => exact renames_pure rfl

include hclock heval hexec

/-- Each rule for expressions. -/
theorem renames_exprRule {e : Expr}
    (hnodes : ∀ n ∈ e.nodes, σ'.distances[ρ.node n]? = σ.distances[n]?) :
    Renames ρ σ σ' id m (exprRule eval exec e) (exprRule eval' exec' (e.rename ρ)) := by
  cases e with
  | literal value => exact renames_pure rfl
  | grouping inner => exact heval inner m
  | unary operator operand => exact (heval operand m).bind fun v m => renames_unary operator v
  | binary left operator right =>
    exact (heval left m).bind fun v m => (heval right m).bind fun w m => renames_binary v operator w
  | logical left operator right =>
    refine (heval left m).bind fun v m => ?_
    exact renames_ite (c := decides operator v) (renames_pure rfl) (heval right m)
  | «variable» node name => exact renames_lookUp (hnodes node (by simp [Expr.nodes])) name
  | assign node name value =>
    refine (heval value m).bind fun v m => ?_
    exact (renames_assign (hnodes node (by simp [Expr.nodes])) name v).map fun _ => rfl
  | call callee closing arguments =>
    refine (heval callee m).bind fun f m => ?_
    rw [Expr.renameAll_eq]
    exact (renames_values heval arguments).bind fun vs m => renames_callValue hclock hexec f vs _
  | get object name => exact (heval object m).bind fun v m => renames_getProperty v name
  | set object name value =>
    refine (heval object m).bind fun v m => ?_
    cases v with
    | «instance» i =>
      refine (heval value m).bind fun v m => ?_
      have hset : Renames ρ σ σ' id m (modifyHeap (·.setField i name.lexeme v))
          (modifyHeap (·.setField i name.lexeme v)) := renames_modifyHeap fun _ => rfl
      exact hset.map fun _ => rfl
    | _ => exact renames_fail ..
  | this node keyword => exact renames_lookUp (hnodes node (by simp [Expr.nodes])) keyword
  | super node keyword method =>
    exact renames_superMethod (hnodes node (by simp [Expr.nodes])) keyword method

omit hclock in
/-- Each rule for statements. -/
theorem renames_stmtRule (n : Nat) (s : Stmt) :
    Renames ρ σ σ' id m (stmtRule eval exec n s) (stmtRule eval' exec' n (s.rename ρ)) := by
  match s with
  | .expression e => exact (heval e m).map fun _ => rfl
  | .print e =>
    refine (heval e m).bind fun v m => renames_heap_bind ?_
    rw [Heap.text_rename]
    exact (renames_print _).map fun _ => rfl
  | .var name none => exact (renames_define _ _).map fun _ => rfl
  | .var name (some e) =>
    exact (heval e m).bind fun v m => (renames_define _ _).map fun _ => rfl
  | .block body =>
    refine renames_get_bind ((renames_newScope _ _).bind fun scope m => ?_)
    rw [Stmt.renameAll_eq]
    exact renames_within (renames_statements hexec body)
  | .if condition consequent none =>
    exact (heval condition m).bind fun v m => renames_ite (hexec consequent m) (renames_pure rfl)
  | .if condition consequent (some alternative) =>
    exact (heval condition m).bind fun v m =>
      renames_ite (hexec consequent m) (hexec alternative m)
  | .while condition body => exact renames_loop heval hexec condition body n
  | .function f =>
    refine renames_get_bind ((renames_newFunction _).bind fun id m => ?_)
    rw [FunctionDecl.name_rename]
    exact (renames_define _ _).map fun _ => rfl
  | .return keyword none => exact renames_pure rfl
  | .return keyword (some e) => exact (heval e m).map fun _ => rfl
  | .class name none methods =>
    rw [Stmt.rename, Stmt.renameMethods_eq]
    exact (renames_declareClass name none methods).map fun _ => rfl
  | .class name (some superclass) methods =>
    rw [Stmt.rename, Stmt.renameMethods_eq]
    refine (heval superclass m).bind fun v m => ?_
    cases v with
    | «class» s => exact (renames_declareClass name (some s) methods).map fun _ => rfl
    | _ =>
      dsimp only [id]
      rw [superclassLine_rename]
      exact renames_fail ..

end Rules

/-! ### Whole evaluations -/

section Whole

variable (hclock : σ'.clock = σ.clock)

section Program

variable (hnodes : ∀ n, σ'.distances[ρ.node n]? = σ.distances[n]?)

include hclock hnodes

theorem renames_nodes (fuel : Nat) :
    (∀ e m, Renames ρ σ σ' id m (expr fuel e) (expr fuel (e.rename ρ))) ∧
      ∀ s m, Renames ρ σ σ' id m (stmt fuel s) (stmt fuel (s.rename ρ)) := by
  induction fuel with
  | zero => exact ⟨fun _ _ => renames_throw rfl, fun _ _ => renames_throw rfl⟩
  | succ n ih =>
    obtain ⟨heval, hexec⟩ := ih
    exact ⟨fun e m => renames_exprRule hclock heval hexec fun n _ => hnodes n,
      fun s m => renames_stmtRule heval hexec n s⟩

/-- Renamed statements do what the statements did, and stop on the renamed line. -/
theorem renames_program (fuel : Nat) (ss : List Stmt) :
    Renames ρ σ σ' id m (program fuel ss) (program fuel (ss.map (Stmt.rename ρ))) := by
  induction ss generalizing m with
  | nil => exact renames_pure rfl
  | cons s rest ih =>
    exact ((renames_nodes hclock hnodes fuel).2 s m).bind fun _ m => ih

end Program

section Watched

variable {w : Watch}

theorem renames_same_iff {x x' : Eval α} :
    Renames .same σ σ' id m x x' ↔ x' σ' m = x σ m := by
  unfold Renames
  rw [Machine.rename_same]
  cases x σ m with
  | ok a m' =>
    dsimp only
    rw [Machine.rename_same, id]
  | error e m' =>
    dsimp only
    rw [Stop.rename_same, Machine.rename_same]

theorem renames_check_bind {ν : Node} {x x' : Eval α}
    (h : w ν m = none → Renames .same σ σ' id m x x') :
    Renames .same σ σ' id m (check w ν >>= fun _ => x) (check w ν >>= fun _ => x') := by
  rw [renames_same_iff] at h ⊢
  rw [bind_run, bind_run]
  cases hw : w ν m with
  | none =>
    rw [check_run hw, check_run hw]
    exact h hw
  | some e => rw [check_run_error hw, check_run_error hw]

theorem renames_comingBack {ν : Node} {x x' : Eval α} (h : Renames .same σ σ' id m x x') :
    Renames .same σ σ' id m (comingBack w ν x) (comingBack w ν x') :=
  h.bind fun _ _ => renames_check_bind fun _ => renames_pure rfl

variable (hnodes : ∀ e m, w (.expr e) m = none → ∀ n ∈ e.nodes, σ'.distances[n]? = σ.distances[n]?)

include hclock hnodes

theorem renames_nodesWatched (fuel : Nat) :
    (∀ e m, Renames .same σ σ' id m (exprWatched w fuel e) (exprWatched w fuel e)) ∧
      ∀ s m, Renames .same σ σ' id m (stmtWatched w fuel s) (stmtWatched w fuel s) := by
  induction fuel with
  | zero => exact ⟨fun _ _ => renames_throw rfl, fun _ _ => renames_throw rfl⟩
  | succ n ih =>
    have heval (ν : Node) (e : Expr) (m : Machine) :
        Renames .same σ σ' id m (comingBack w ν (exprWatched w n e))
          (comingBack w ν (exprWatched w n (e.rename .same))) := by
      rw [Expr.rename_same]
      exact renames_comingBack (ih.1 e m)
    have hexec (s : Stmt) (m : Machine) :
        Renames .same σ σ' id m (stmtWatched w n s) (stmtWatched w n (s.rename .same)) := by
      rw [Stmt.rename_same]
      exact ih.2 s m
    constructor
    · intro e m
      refine renames_check_bind fun hw => ?_
      have hrule : Renames .same σ σ' id m (exprRule _ (stmtWatched w n) e)
          (exprRule (fun part => comingBack w (.expr e) (exprWatched w n part)) (stmtWatched w n)
            (e.rename .same)) :=
        renames_exprRule hclock (heval (.expr e)) hexec (hnodes e m hw)
      rwa [Expr.rename_same] at hrule
    · intro s m
      refine renames_check_bind fun _ => ?_
      have hrule : Renames .same σ σ' id m (stmtRule _ (stmtWatched w n) n s)
          (stmtRule (fun part => comingBack w (.stmt s) (exprWatched w n part)) (stmtWatched w n) n
            (s.rename .same)) :=
        renames_stmtRule (heval (.stmt s)) hexec n s
      rwa [Stmt.rename_same] at hrule

/-- Under a watch that stops wherever a reference has other distances these do not matter. -/
theorem programWatched_congr (fuel : Nat) (ss : List Stmt) (m : Machine) :
    programWatched w fuel ss σ' m = programWatched w fuel ss σ m := by
  rw [← renames_same_iff]
  induction ss generalizing m with
  | nil => exact renames_pure rfl
  | cons s rest ih =>
    exact ((renames_nodesWatched hclock hnodes fuel).2 s m).bind fun _ m => ih m

end Watched

end Whole

end Eval
end Treewalk
