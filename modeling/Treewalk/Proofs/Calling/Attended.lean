import Treewalk.Proofs.Construction.Calls
/-!
# Calls under an attendant

An attendant looks at the machine whenever a call is about to run a function's body and whenever one
is about to make an instance, however the function or the class was reached, and may stop the
evaluation there. In programs without static errors a body is only ever run where each parameter is
bound to its own argument and nothing else is, and a class is only ever called with as many
arguments as its nearest initializer takes (`Arrival.Complete`): an attendant that is silent there
makes no difference (`program_attended`).
-/

namespace Treewalk

/-- What a call arrives at. -/
inductive Arrival where
  /-- The body of a function, in the scope that has been made for the call. -/
  | body (f : Function) (arguments : List Value)
  /-- A class, of which no instance has been made yet. -/
  | «class» (c : ClassId) (arguments : List Value)

/-- What an attendant says of a call and the machine. -/
abbrev Attendant := Arrival → Machine → Option Stop

namespace Arrival

/-- The scope that is executing is that of a call of the function: it binds the parameters, which
have different names, each to the argument at its place, and nothing else. -/
structure Filled (f : Function) (arguments : List Value) (m : Machine) : Prop where
  count : arguments.length = f.declaration.parameters.length
  distinct : (f.declaration.parameters.map (·.lexeme)).Nodup
  enclosed : m.heap.scopes.parent? m.cursor = some f.closure
  bound : ∀ x v, m.heap.scopes.lookup? m.cursor x = some v ↔
    ∃ (i : Nat) (p : Token), f.declaration.parameters[i]? = some p ∧ p.lexeme = x ∧
      arguments[i]? = some v

/-- The arguments of a class are for its nearest initializer, and there are none if it has none. -/
structure Suited (c : ClassId) (arguments : List Value) (h : Heap) : Prop where
  initializer : ∀ f, h.Nearest initializerName f c →
    arguments.length = f.declaration.parameters.length
  none : (∀ f, ¬ h.Nearest initializerName f c) → arguments = []

/-- No argument is dropped and no parameter is left unbound. -/
def Complete : Arrival → Machine → Prop
  | .body f arguments, m => Filled f arguments m
  | .class c arguments, m => Suited c arguments m.heap

end Arrival

namespace Eval

variable {α : Type}

/-! ### The evaluation under an attendant -/

/-- Shows the machine to the attendant. -/
def attend (w : Attendant) (arrival : Arrival) : Eval Unit := do
  match w arrival (← get) with
  | some e => throw e
  | none => return

/-- `callFunction` under an attendant, who is shown the scope of the call. -/
def callFunctionAttended (w : Attendant) (exec : Stmt → Eval Completion) (f : Function)
    (arguments : List Value) : Eval Value := do
  let scope ← newScope (parameterBindings f.declaration.parameters arguments) f.closure
  let completion ← within scope do
    attend w (.body f arguments)
    statements exec f.declaration.body
  if f.isInitializer then
    lift f.declaration.name.line ((← heap).scopes.getAt f.closure 0 "this")
  else
    match completion with
    | .normal => return .nil
    | .returned v => return v

/-- `instantiate` under an attendant, who is shown the heap before there is an instance. -/
def instantiateAttended (w : Attendant) (exec : Stmt → Eval Completion) (c : ClassId)
    (arguments : List Value) : Eval Value := do
  attend w (.class c arguments)
  let i ← newInstance c
  match (← heap).findMethod? c initializerName with
  | some f =>
    let _ ← callFunctionAttended w exec (← bind f i) arguments
    return .instance i
  | none => return .instance i

def callValueAttended (w : Attendant) (exec : Stmt → Eval Completion) (callee : Value)
    (arguments : List Value) (line : Nat) : Eval Value := do
  match callee with
  | .native f =>
    checkArity f.arity arguments.length line
    callNative f
  | .function f =>
    match (← heap).functions[f]? with
    | some f =>
      checkArity f.arity arguments.length line
      callFunctionAttended w exec f arguments
    | none => fail line .notCallable
  | .class c =>
    checkArity ((← heap).classArity c) arguments.length line
    instantiateAttended w exec c arguments
  | _ => fail line .notCallable

/-- Only calls are attended. -/
def exprRuleAttended (w : Attendant) (eval : Expr → Eval Value) (exec : Stmt → Eval Completion) :
    Expr → Eval Value
  | .call callee closing arguments => do
    let f ← eval callee
    callValueAttended w exec f (← values eval arguments) closing.line
  | e => exprRule eval exec e

mutual

/-- Evaluates an expression under an attendant. -/
def exprAttended (w : Attendant) : (fuel : Nat) → Expr → Eval Value
  | 0, _ => throw .outOfFuel
  | n + 1, e => exprRuleAttended w (exprAttended w n) (stmtAttended w n) e

/-- Executes a statement under an attendant. -/
def stmtAttended (w : Attendant) : (fuel : Nat) → Stmt → Eval Completion
  | 0, _ => throw .outOfFuel
  | n + 1, s => stmtRule (exprAttended w n) (stmtAttended w n) n s

end

/-- Runs a program's statements under an attendant. -/
def programAttended (w : Attendant) (fuel : Nat) : List Stmt → Eval Unit :=
  inTurn (stmtAttended w fuel)

/-! ### Arrivals are complete -/

section Attended

variable {programs : List (List Stmt)} {σ : Setting} {m : Machine} {w : Attendant}

theorem attend_bind {arrival : Arrival} (hw : w arrival m = none) (x : Eval α) :
    (attend w arrival >>= fun _ => x) σ m = x σ m := by
  have silent : attend w arrival σ m = .ok () m := by
    show (match w arrival m with | some e => (throw e : Eval Unit) | none => pure ()) σ m = _
    rw [hw]; rfl
  exact bind_ok silent _

variable (hσ : σ.distances.Suits programs True)

include hσ in
/-- The scope of a call binds what the parameters say, since the walk has found no name twice among
them. -/
theorem filled_of_fits {f : Function} {arguments : List Value}
    (hf : f.Fits programs True m.heap.scopes) (ha : f.arity = arguments.length)
    (hs : m.heap.Sound programs True) :
    Arrival.Filled f arguments
      { m with
        heap := m.heap.addScope (parameterBindings f.declaration.parameters arguments) f.closure
        cursor := m.heap.scopes.size } := by
  obtain ⟨context, r, hv, hfit, -⟩ := hf
  have distinct : (f.declaration.parameters.map (·.lexeme)).Nodup :=
    Resolver.parameters_nodup (hv.errors_eq_nil (hσ.accepted trivial))
  refine ⟨ha.symm, distinct, ?_, fun x v => ?_⟩
  · exact Scopes.parent?_add_size _ _ (hfit.lt_size hs.scopes)
  · rw [← parameterBindings_iff distinct ha]
    exact Eq.congr_left (Scopes.lookup?_add_size ..)

/-- The number that is checked is that of the initializer that runs. -/
theorem suited_of_classArity {h : Heap} {c : ClassId} {arguments : List Value}
    (ha : h.classArity c = arguments.length) : Arrival.Suited c arguments h := by
  rw [Heap.classArity] at ha
  constructor
  · intro f hf
    rw [Heap.nearest_iff.1 hf] at ha
    exact ha.symm
  · intro hnone
    cases hf : h.findMethod? c initializerName with
    | some f => exact absurd (Heap.nearest_iff.2 hf) (hnone f)
    | none =>
      rw [hf] at ha
      exact List.eq_nil_of_length_eq_zero ha.symm

variable (hw : ∀ arrival m, arrival.Complete m → w arrival m = none) {exec : Stmt → Eval Completion}

include hσ hw

theorem callFunctionAttended_eq {f : Function} {arguments : List Value}
    (hf : f.Fits programs True m.heap.scopes) (ha : f.arity = arguments.length)
    (hs : m.heap.Sound programs True) :
    callFunctionAttended w exec f arguments σ m = callFunction exec f arguments σ m := by
  have silent := hw (.body f arguments) _ (filled_of_fits hσ hf ha hs)
  unfold callFunctionAttended callFunction
  rw [newScope_bind, newScope_bind]
  refine bind_congr_left ?_ _
  rw [within_run, within_run, attend_bind silent]

theorem instantiateAttended_eq {c : ClassId} {arguments : List Value}
    (ha : m.heap.classArity c = arguments.length) (hs : m.heap.Sound programs True) :
    instantiateAttended w exec c arguments σ m = instantiate exec c arguments σ m := by
  have silent := hw (.class c arguments) m (suited_of_classArity ha)
  unfold instantiateAttended instantiate
  rw [attend_bind silent, newInstance_bind, newInstance_bind, heap_bind, heap_bind,
    Heap.findMethod?_addInstance]
  cases hf : m.heap.findMethod? c initializerName with
  | none => rfl
  | some f =>
    obtain ⟨sound, fits⟩ := bind_fits (m := { m with heap := m.heap.addInstance c })
      (hs.findMethod? hf) (hs.addInstance c) m.heap.instances.size
    rw [Heap.classArity, hf] at ha
    dsimp only
    rw [bindMethod_bind, bindMethod_bind]
    exact bind_congr_left (callFunctionAttended_eq (f := { f with closure := m.heap.scopes.size })
      hσ hw fits ha sound) _

/-- What is called has been checked for the number of its arguments. -/
theorem callValueAttended_eq (hs : m.heap.Sound programs True) (callee : Value)
    (arguments : List Value) (line : Nat) :
    callValueAttended w exec callee arguments line σ m =
      callValue exec callee arguments line σ m := by
  unfold callValueAttended callValue
  cases callee with
  | function k =>
    dsimp only
    rw [heap_bind, heap_bind]
    cases hf : m.heap.functions[k]? with
    | none => rfl
    | some f =>
      dsimp only
      rw [checkArity_bind, checkArity_bind]
      exact ite_congr rfl (fun ha => callFunctionAttended_eq hσ hw (hs.functions hf) ha hs)
        fun _ => rfl
  | «class» c =>
    dsimp only
    rw [heap_bind, heap_bind, checkArity_bind, checkArity_bind]
    exact ite_congr rfl (fun ha => instantiateAttended_eq hσ hw ha hs) fun _ => rfl
  | _ => rfl

/-! ### Whole evaluations -/

theorem exprRule_attended {eval eval' : Expr → Eval Value} {exec' : Stmt → Eval Completion}
    (hx : StmtMirrored programs True σ exec exec') (hfs : ∀ s, Frames True (exec s)) {e : Expr}
    {r : Resolver} (hv : Visits programs (.expr e r))
    (he : ExprMirrored programs True σ (AtExpr programs True e r) eval eval')
    (hat : AtExpr programs True e r m) :
    Tracks σ (Tolerated programs True) m (exprRule eval exec e) (exprRuleAttended w eval' exec' e)
      fun _ m' => m'.heap.Sound programs True := by
  cases e with
  | call callee closing arguments =>
    refine call_tracks hv he hat fun v vs m' hs => ?_
    obtain ⟨same, ends⟩ := callValue_tracks hσ hx hfs v vs closing.line hs
    exact ⟨(callValueAttended_eq hσ hw hs v vs closing.line).trans same, ends⟩
  | _ => exact exprRule_tracks hσ hx hfs hv he hat

/-- At every fuel, attended evaluations are the same as others. -/
theorem attended (n : Nat) :
    ExprMirrored programs True σ (fun _ => True) (expr n) (exprAttended w n) ∧
      StmtMirrored programs True σ (stmt n) (stmtAttended w n) := by
  induction n with
  | zero =>
    exact ⟨fun _ _ hs _ => tracks_throw ⟨hs, trivial⟩, fun _ hs _ => tracks_throw ⟨hs, trivial⟩⟩
  | succ n ih =>
    obtain ⟨ihe, ihs⟩ := ih
    refine ⟨fun {e r m} hv _ hs hr => ?_, fun {s r m} hv hs hc => ?_⟩
    · refine quiet_of_frames ?_ (expr_frames (n + 1) e False)
      exact exprRule_attended hσ hw ihs (stmt_frames n) hv (fun hp _ => ihe hp trivial) ⟨hs, hr⟩
    · have rule := stmtRule_tracks hσ ihs (stmt_frames n) hv (fun hp _ => ihe hp trivial)
        ⟨hs, hc⟩ n
      refine (rule.framed (stmt_frames (n + 1) s)).mono ?_
      exact fun c m' ⟨⟨hs', hend⟩, hcursor, _⟩ => ⟨hs', hcursor, hend⟩

/-- An attendant that is silent where calls are complete makes no difference to a program. -/
theorem program_attended (fuel : Nat) {p : List Stmt} (hp : p ∈ programs)
    (hs : m.heap.Sound programs True) (hc : m.cursor = Heap.globals) :
    programAttended w fuel p σ m = program fuel p σ m := by
  rw [program_eq_inTurn]
  exact (outermost_tracks (attended hσ hw fuel).2 (.program hp) rfl hs hc).1

end Attended

end Eval
end Treewalk
