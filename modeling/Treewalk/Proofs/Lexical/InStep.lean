import Treewalk.Proofs.Lexical.Linked
import Treewalk.Proofs.Evaluation.Watch
/-!
# Evaluations in step

Two evaluations, one on a machine and one on a store, are in step if they end alike: both with results
that are related, or both with the same error and the same output (`InStep`). The first may also end
with an error that is an escape, about which nothing is said.
-/

namespace Treewalk
namespace Lexical

variable {α α' β β' : Type}

/-! ### Primitives of the store -/

section Primitives

variable (τ : Setting) (s : Store)

theorem bind_run (y : Action α) (f : α → Action β) :
    (y >>= f) τ s = match y τ s with
      | .ok a s' => f a τ s'
      | .error e s' => .error e s' := by
  show EStateM.bind (y τ) (fun a => f a τ) s = _
  unfold EStateM.bind
  cases y τ s <;> rfl

theorem get_bind (f : Store → Action β) : (get >>= f) τ s = f s τ s := rfl

theorem newCells_bind (vs : List Value) (f : Location → Action β) :
    (newCells vs >>= f) τ s =
      f s.cells.size τ { s with cells := s.cells ++ vs.toArray } := rfl

theorem newFunction_bind (g : Closure) (f : FunctionId → Action β) :
    (newFunction g >>= f) τ s =
      f s.functions.size τ { s with functions := s.functions.push g } := rfl

theorem newInstance_bind (c : ClassId) (f : InstanceId → Action β) :
    (newInstance c >>= f) τ s =
      f s.instances.size τ { s with instances := s.instances.push ⟨c, []⟩ } := rfl

theorem lookUp_run (env : Env) (x : String) (line : Nat) :
    lookUp env x line τ s = match s.read? env x with
      | some v => .ok v s
      | none => .error (.runtime ⟨line, .undefinedVariable x⟩) s := by
  show (match s.read? env x with
    | some v => (pure v : Action Value)
    | none => Eval.fail line (.undefinedVariable x)) τ s = _
  cases s.read? env x <;> rfl

theorem assign_run (place : Place) (name : Token) (v : Value) :
    assign place name v τ s =
      if τ.strict ∧ place.initializing = some name.lexeme then
        .error (.runtime ⟨name.line, .undefinedVariable name.lexeme⟩) s
      else match s.write? place.env name.lexeme v with
        | some s' => .ok () s'
        | none => .error (.runtime ⟨name.line, .undefinedVariable name.lexeme⟩) s := by
  by_cases h : τ.strict ∧ place.initializing = some name.lexeme
  · rw [if_pos h]
    show (if τ.strict ∧ place.initializing = some name.lexeme then _ else _ : Action Unit) τ s = _
    rw [if_pos h]; rfl
  · rw [if_neg h]
    show (if τ.strict ∧ place.initializing = some name.lexeme then _ else _ : Action Unit) τ s = _
    rw [if_neg h]
    show (match s.write? place.env name.lexeme v with
      | some s' => (set s' : Action Unit)
      | none => Eval.fail name.line (.undefinedVariable name.lexeme)) τ s = _
    cases s.write? place.env name.lexeme v <;> rfl

theorem print_run (text : String) :
    print text τ s = match s.out.refusal? (text ++ "\n").toUTF8 with
      | none => .ok () { s with out := s.out.write (text ++ "\n").toUTF8 }
      | some reason =>
        .error (.output reason) { s with out := s.out.write (text ++ "\n").toUTF8 } := by
  show (match s.out.refusal? (text ++ "\n").toUTF8 with
    | none => (pure () : Action Unit)
    | some reason => throw (Stop.output reason)) τ _ = _
  cases s.out.refusal? (text ++ "\n").toUTF8 <;> rfl

theorem declare_local {place : Place} (h : place.isLocal = true) (x : String) (v : Value) :
    declare place x v τ s = .ok { place with env := (x, s.cells.size) :: place.env }
      { s with cells := s.cells ++ [v].toArray } := by
  unfold declare
  rw [if_pos h]; rfl

theorem declare_global {place : Place} (h : place.isLocal = false) (x : String) (v : Value) :
    declare place x v τ s = .ok place { s with globals := s.globals.set x v } := by
  unfold declare
  rw [if_neg (by simp [h])]; rfl

end Primitives

/-! ### Results -/

/-- Both evaluations end alike, or the first escapes. -/
inductive EndAlike (escape : Stop → Prop) (R : α → Machine → β → Store → Prop) :
    EStateM.Result Stop Machine α → EStateM.Result Stop Store β → Prop where
  | ok {a m b s} : R a m b s → EndAlike escape R (.ok a m) (.ok b s)
  | error {e m s} : s.out = m.out → EndAlike escape R (.error e m) (.error e s)
  | escape {e m r} : escape e → EndAlike escape R (.error e m) r

def InStep (σ : Treewalk.Setting) (τ : Setting) (escape : Stop → Prop) (m : Machine) (s : Store)
    (x : Eval α) (y : Action β) (R : α → Machine → β → Store → Prop) : Prop :=
  EndAlike escape R (x σ m) (y τ s)

section InStep

variable {σ : Treewalk.Setting} {τ : Setting} {escape : Stop → Prop} {m m' : Machine}
  {s s' : Store} {x x' : Eval α} {y y' : Action β} {f : α → Eval α'} {g : β → Action β'}
  {R R' : α → Machine → β → Store → Prop} {Q : α' → Machine → β' → Store → Prop}

theorem inStep_pure {a : α} {b : β} (h : R a m b s) :
    InStep σ τ escape m s (pure a) (pure b) R :=
  .ok h

theorem inStep_throw {e : Stop} (h : s.out = m.out) :
    InStep σ τ escape m s (throw e : Eval α) (throw e : Action β) R :=
  .error h

theorem InStep.of_eq (hx : x σ m = x' σ m') (hy : y τ s = y' τ s')
    (h : InStep σ τ escape m' s' x' y' R) : InStep σ τ escape m s x y R := by
  unfold InStep
  rw [hx, hy]
  exact h

theorem InStep.imp (h : InStep σ τ escape m s x y R)
    (hR : ∀ a m' b s', x σ m = .ok a m' → R a m' b s' → R' a m' b s') :
    InStep σ τ escape m s x y R' := by
  unfold InStep at h ⊢
  cases hx : x σ m <;> cases hy : y τ s <;> rw [hx, hy] at h <;> cases h
  case ok.ok.ok h => exact .ok (hR _ _ _ _ hx h)
  case error.ok.escape h => exact .escape h
  case error.error.error h => exact .error h
  case error.error.escape h => exact .escape h

theorem InStep.mono (h : InStep σ τ escape m s x y R)
    (hR : ∀ a m' b s', R a m' b s' → R' a m' b s') : InStep σ τ escape m s x y R' :=
  h.imp fun a m' b s' _ => hR a m' b s'

theorem inStep_bind (h : InStep σ τ escape m s x y R)
    (hf : ∀ a m b s, R a m b s → InStep σ τ escape m s (f a) (g b) Q) :
    InStep σ τ escape m s (x >>= f) (y >>= g) Q := by
  unfold InStep at h ⊢
  rw [Eval.bind_run, bind_run]
  cases hx : x σ m <;> cases hy : y τ s <;> rw [hx, hy] at h <;> cases h
  case ok.ok.ok h => exact hf _ _ _ _ h
  case error.ok.escape h => exact .escape h
  case error.error.error h => exact .error h
  case error.error.escape h => exact .escape h

/-- What is known of the first evaluation may be used behind both. -/
theorem InStep.tracked {E : Stop → Heap → Prop} {P : α → Machine → Prop}
    (h : InStep σ τ escape m s x y R) (ht : Eval.Tracks σ E m x x' P) :
    InStep σ τ escape m s x y fun a m' b s' => R a m' b s' ∧ P a m' := by
  refine h.imp fun a m' b s' hx hR => ⟨hR, ?_⟩
  have hends := ht.2
  rw [hx] at hends
  exact hends

theorem inStep_plainly {r : Except RuntimeError α} {T : α → Machine → α → Store → Prop}
    (hq : ∀ a, T a m a s) (hout : s.out = m.out) :
    InStep σ τ escape m s (Eval.plainly r : Eval α) (Eval.plainly r : Action α) T := by
  cases r with
  | ok a => exact inStep_pure (hq a)
  | error e => exact inStep_throw hout

/-- The first evaluation is in a scope of its own. -/
theorem inStep_within {scope : ScopeId}
    (h : InStep σ τ escape { m with cursor := scope } s x y
      fun a m' b s => R a { m' with cursor := m.cursor } b s) :
    InStep σ τ escape m s (Eval.within scope x) y R := by
  unfold InStep at h ⊢
  rw [Eval.within_run]
  cases hx : x σ { m with cursor := scope } <;> cases hy : y τ s <;> rw [hx, hy] at h <;> cases h
  case ok.ok.ok h => exact .ok h
  case error.ok.escape h => exact .escape h
  case error.error.error h => exact .error h
  case error.error.escape h => exact .escape h

end InStep

end Lexical
end Treewalk
