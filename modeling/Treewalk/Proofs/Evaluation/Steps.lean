import Mathlib
import Treewalk.Evaluation
import Treewalk.Tree.Parser
/-!
# Steps of an evaluation

What each primitive does when it is run in a setting on a machine, as equations, so that longer
evaluations are taken apart step by step.
-/

namespace Treewalk

/-! ### Where names are found -/

namespace Scopes

variable {s : Scopes}

theorem isSome_of_nearest? {i j : ScopeId} {x : String} (h : s.nearest? i x = some j) :
    (s.lookup? j x).isSome := by
  fun_induction nearest? s i x with
  | case1 i hi => cases h; exact hi
  | case2 i hi p hp ih => exact ih h
  | case3 => cases h

theorem isSome_of_find {i j : ScopeId} {x : String} (h : s.find i x = .ok j) :
    (s.lookup? j x).isSome := by
  unfold find at h
  split at h
  · next hn => cases h; exact isSome_of_nearest? hn
  · cases h

theorem findAt_eq_ok {i j : ScopeId} {d : Nat} {x : String} :
    s.findAt i d x = .ok j ↔ s.up? d i = some j ∧ (s.lookup? j x).isSome := by
  simp only [findAt, ancestor]
  cases s.up? d i with
  | none => simp [Bind.bind, Except.bind]
  | some k =>
    simp only [Bind.bind, Except.bind, Option.some.injEq]
    constructor
    · intro h
      split at h
      · next hx => cases h; exact ⟨rfl, hx⟩
      · cases h
    · rintro ⟨rfl, hx⟩; rw [if_pos hx]

theorem isSome_of_findAt {i j : ScopeId} {d : Nat} {x : String} (h : s.findAt i d x = .ok j) :
    (s.lookup? j x).isSome :=
  (findAt_eq_ok.1 h).2

end Scopes

/-! ### Primitives -/

namespace Eval

variable {α β : Type} (σ : Setting) (m : Machine)

theorem bind_run (x : Eval α) (f : α → Eval β) :
    (x >>= f) σ m = match x σ m with
      | .ok a m' => f a σ m'
      | .error e m' => .error e m' := by
  show EStateM.bind (x σ) (fun a => f a σ) m = _
  unfold EStateM.bind
  cases x σ m <;> rfl

theorem bind_ok {σ : Setting} {m m' : Machine} {x : Eval α} {a : α} (h : x σ m = .ok a m')
    (f : α → Eval β) : (x >>= f) σ m = f a σ m' := by
  rw [bind_run, h]

theorem bind_error {σ : Setting} {m m' : Machine} {x : Eval α} {e : Stop}
    (h : x σ m = .error e m') (f : α → Eval β) : (x >>= f) σ m = .error e m' := by
  rw [bind_run, h]

theorem bind_congr_left {σ : Setting} {m : Machine} {x y : Eval α} (h : x σ m = y σ m)
    (f : α → Eval β) : (x >>= f) σ m = (y >>= f) σ m := by
  rw [bind_run, bind_run, h]

theorem get_bind (f : Machine → Eval β) : (get >>= f) σ m = f m σ m := rfl

theorem read_bind (f : Setting → Eval β) : (read >>= f) σ m = f σ σ m := rfl

theorem heap_bind (f : Heap → Eval β) : (heap >>= f) σ m = f m.heap σ m := rfl

theorem modifyHeap_run (f : Heap → Heap) :
    modifyHeap f σ m = .ok () { m with heap := f m.heap } := rfl

theorem newScope_bind (b : Bindings Value) (p : ScopeId) (f : ScopeId → Eval β) :
    (newScope b p >>= f) σ m = f m.heap.scopes.size σ { m with heap := m.heap.addScope b p } := rfl

theorem newFunction_bind (g : Function) (f : FunctionId → Eval β) :
    (newFunction g >>= f) σ m =
      f m.heap.functions.size σ { m with heap := m.heap.addFunction g } := rfl

theorem newInstance_bind (c : ClassId) (f : InstanceId → Eval β) :
    (newInstance c >>= f) σ m =
      f m.heap.instances.size σ { m with heap := m.heap.addInstance c } := rfl

theorem bindMethod_bind (g : Function) (i : InstanceId) (f : Function → Eval β) :
    (bind g i >>= f) σ m = f { g with closure := m.heap.scopes.size } σ
      { m with heap := m.heap.addScope [("this", .instance i)] g.closure } := rfl

theorem define_run (x : String) (v : Value) :
    define x v σ m = .ok () { m with heap := m.heap.define m.cursor x v } := rfl

/-- The result of an operation on the heap that may fail on the given line. -/
def settled (line : Nat) (x : Except RuntimeFault α) (m : Machine) :
    EStateM.Result Stop Machine α :=
  match x with
  | .ok a => .ok a m
  | .error fault => .error (.runtime ⟨line, fault⟩) m

theorem lift_run (line : Nat) (x : Except RuntimeFault α) :
    (lift line x : Eval α) σ m = settled line x m := by
  cases x <;> rfl

theorem getAt_run (distance : Nat) (x : String) (line : Nat) :
    getAt distance x line σ m = settled line (m.heap.scopes.getAt m.cursor distance x) m :=
  lift_run ..

/-- What a reference is found to be bound to. -/
def found (node : NodeId) (name : Token) : Except RuntimeFault Value :=
  match σ.distances[node]? with
  | some distance => m.heap.scopes.getAt m.cursor distance name.lexeme
  | none => m.heap.scopes.get Heap.globals name.lexeme

theorem lookUp_run (node : NodeId) (name : Token) :
    lookUp node name σ m = settled name.line (found σ m node name) m := by
  simp only [lookUp, read_bind, found]
  cases σ.distances[node]? <;> exact lift_run ..

/-- The scope in which a reference is found to be bound. -/
def located (node : NodeId) (name : Token) : Except RuntimeFault ScopeId :=
  match σ.distances[node]? with
  | some distance => m.heap.scopes.findAt m.cursor distance name.lexeme
  | none => m.heap.scopes.find Heap.globals name.lexeme

theorem locate_run (node : NodeId) (name : Token) :
    locate node name σ m = settled name.line (located σ m node name) m :=
  lift_run ..

theorem isSome_of_located {σ : Setting} {m : Machine} {node : NodeId} {name : Token} {j : ScopeId}
    (h : located σ m node name = .ok j) : (m.heap.scopes.lookup? j name.lexeme).isSome := by
  unfold located at h
  split at h
  · exact Scopes.isSome_of_findAt h
  · exact Scopes.isSome_of_find h

theorem within_run (scope : ScopeId) (body : Eval α) :
    within scope body σ m = match body σ { m with cursor := scope } with
      | .ok a m' => .ok a { m' with cursor := m.cursor }
      | .error e m' => .error e { m' with cursor := m.cursor } := rfl

theorem print_run (text : String) :
    print text σ m = match m.out.refusal? (text ++ "\n").toUTF8 with
      | none => .ok () { m with out := m.out.write (text ++ "\n").toUTF8 }
      | some reason =>
        .error (.output reason) { m with out := m.out.write (text ++ "\n").toUTF8 } := by
  show (match m.out.refusal? (text ++ "\n").toUTF8 with
    | none => (pure () : Eval Unit)
    | some reason => throw (Stop.output reason)) σ _ = _
  cases m.out.refusal? (text ++ "\n").toUTF8 <;> rfl

theorem checkArity_bind (expected got line : Nat) (f : Unit → Eval β) :
    (checkArity expected got line >>= f) σ m =
      if expected = got then f () σ m else .error (.runtime ⟨line, .arity expected got⟩) m := by
  unfold checkArity
  split <;> rfl

/-- Where `super` and the `this` below it are found, the class decides alone. -/
theorem superMethod_run {σ : Setting} {m : Machine} {node : NodeId} {keyword : Token} {k : Nat}
    {c : ClassId} {i : InstanceId} (hd : σ.distances[node]? = some (k + 1))
    (hsuper : m.heap.scopes.getAt m.cursor (k + 1) keyword.lexeme = .ok (.class c))
    (hthis : m.heap.scopes.getAt m.cursor k "this" = .ok (.instance i)) (method : Token) :
    superMethod node keyword method σ m = (m.heap.findMethod? c method.lexeme).elim
      (.error (.runtime ⟨method.line, .undefinedProperty method.lexeme⟩) m)
      fun f => boundMethod f i σ m := by
  unfold superMethod
  rw [read_bind, hd]
  dsimp only
  rw [bind_run, getAt_run, hsuper]
  dsimp only [settled]
  rw [bind_run, getAt_run, Nat.add_sub_cancel, hthis]
  dsimp only [settled]
  rw [heap_bind]
  cases m.heap.findMethod? c method.lexeme <;> rfl

/-! ### Operators -/

section Plain

variable {M : Type → Type} [Monad M] [MonadExceptOf Stop M]

/-- A value or a runtime error, whatever the state. -/
def plainly : Except RuntimeError α → M α
  | .ok a => pure a
  | .error e => throw (.runtime e)

end Plain

/-- Unary operators need no state. Those of the language fail on their operand only. -/
theorem unary_plainly (operator : Token) (v : Value) :
    ∃ r : Except RuntimeError Value,
      (∀ {M : Type → Type} [Monad M] [MonadExceptOf Stop M], unary (m := M) operator v = plainly r) ∧
      ∀ e, r = .error e → e.fault = .operandNotNumber ∨
        e.fault = .unaryOperator operator.lexeme ∧ operator.kind ≠ .mark .bang ∧
          operator.kind ≠ .mark .minus := by
  unfold unary
  split
  · exact ⟨.ok _, rfl, by simp⟩
  · split
    · exact ⟨.ok _, rfl, by simp⟩
    · exact ⟨.error ⟨_, _⟩, rfl, by simp⟩
  · next hbang hminus => exact ⟨.error ⟨_, _⟩, rfl, fun e he => by cases he; exact .inr ⟨rfl, hbang, hminus⟩⟩

theorem arithmetic_plainly (operator : Token) (x y : Float) :
    ∃ r : Except RuntimeError Value,
      (∀ {M : Type → Type} [Monad M] [MonadExceptOf Stop M],
        arithmetic (m := M) operator x y = plainly r) ∧
      ∀ e, r = .error e → e.fault = .binaryOperator operator.lexeme ∧
        operator.kind ≠ .mark .minus ∧ operator.kind ≠ .mark .star ∧
        operator.kind ≠ .mark .slash ∧ operator.kind ≠ .mark .greater ∧
        operator.kind ≠ .mark .greaterEqual ∧ operator.kind ≠ .mark .less ∧
        operator.kind ≠ .mark .lessEqual := by
  unfold arithmetic
  split
  case h_8 h₁ h₂ h₃ h₄ h₅ h₆ h₇ =>
    exact ⟨.error ⟨_, _⟩, rfl, fun e he => by cases he; exact ⟨rfl, h₁, h₂, h₃, h₄, h₅, h₆, h₇⟩⟩
  all_goals exact ⟨.ok _, rfl, by simp⟩

/-- Binary operators need no state. Those of the language fail on their operands only. -/
theorem binary_plainly (v : Value) (operator : Token) (w : Value) :
    ∃ r : Except RuntimeError Value,
      (∀ {M : Type → Type} [Monad M] [MonadExceptOf Stop M],
        binary (m := M) v operator w = plainly r) ∧
      ∀ e, r = .error e → e.fault = .operandsNotAddable ∨
        e.fault = .operandsNotNumbers operator.lexeme ∨
        e.fault = .binaryOperator operator.lexeme ∧
          ∀ rank ≤ 4, Rule.operatorRank? operator.kind ≠ some rank := by
  unfold binary
  split
  · exact ⟨.ok _, rfl, by simp⟩
  · exact ⟨.ok _, rfl, by simp⟩
  · split
    · exact ⟨.ok _, rfl, by simp⟩
    · exact ⟨.ok _, rfl, by simp⟩
    · exact ⟨.error ⟨_, _⟩, rfl, fun e he => by cases he; exact .inl rfl⟩
  · next hequal hdiffer hplus =>
    split
    · next x y =>
      obtain ⟨r, hr, he⟩ := arithmetic_plainly operator x y
      refine ⟨r, hr, fun e h => .inr (.inr ?_)⟩
      obtain ⟨hf, h₁, h₂, h₃, h₄, h₅, h₆, h₇⟩ := he e h
      refine ⟨hf, fun rank hrank => ?_⟩
      unfold Rule.operatorRank?
      split <;> simp_all <;> omega
    · exact ⟨.error ⟨_, _⟩, rfl, fun e he => by cases he; exact .inr (.inl rfl)⟩

end Eval
end Treewalk
