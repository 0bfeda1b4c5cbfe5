import Treewalk.Proofs.Inheritance.Ledger
/-!
# Evaluations with a ledger and without one

An evaluation with a ledger follows one without if both end alike, on the same machine, and the ledger
holds behind them however they end (`Follows`). It follows if each of its steps does (`follows_bind`).
-/

namespace Treewalk
namespace Inheritance

variable {α β : Type}

/-! ### Primitives -/

section Primitives

variable (σ : Setting) (t : State)

theorem bind_run (y : Action α) (f : α → Action β) :
    (y >>= f) σ t = match y σ t with
      | .ok a t' => f a σ t'
      | .error e t' => .error e t' := by
  show EStateM.bind (y σ) (fun a => f a σ) t = _
  unfold EStateM.bind
  cases y σ t <;> rfl

theorem get_bind (f : State → Action β) : (get >>= f) σ t = f t σ t := rfl

theorem newScope_bind (b : Bindings Value) (p : ScopeId) (f : ScopeId → Action β) :
    (onMachine (Eval.newScope b p) >>= f) σ t =
      f t.heap.scopes.size σ { t with heap := t.heap.addScope b p } := rfl

theorem bindMethod_bind (f : Function) (i : InstanceId) (g : Function → Action β) :
    (onMachine (Eval.bind f i) >>= g) σ t = g { f with closure := t.heap.scopes.size } σ
      { t with heap := t.heap.addScope [("this", .instance i)] f.closure } := rfl

theorem newInstance_bind (c : ClassId) (f : InstanceId → Action β) :
    (onMachine (Eval.newInstance c) >>= f) σ t =
      f t.heap.instances.size σ { t with heap := t.heap.addInstance c } := rfl

theorem within_run (scope : ScopeId) (body : Action α) :
    within scope body σ t = match body σ { t with cursor := scope } with
      | .ok a t' => .ok a { t' with cursor := t.cursor }
      | .error e t' => .error e { t' with cursor := t.cursor } := rfl

end Primitives

/-! ### Following -/

/-- The ledger holds, and nothing in it is other than it was. -/
structure Later (programs : List (List Stmt)) (t t' : State) : Prop where
  holds : t'.ledger.Holds programs t'.heap
  grows : Grows t.heap t.ledger t'.heap t'.ledger

/-- Both evaluations have ended alike, and if with a result then with `Q`. -/
inductive Alike (programs : List (List Stmt)) (t : State) (Q : α → State → Prop) :
    EStateM.Result Stop Machine α → EStateM.Result Stop State α → Prop where
  | ok {a t'} : Later programs t t' → Q a t' → Alike programs t Q (.ok a t'.toMachine) (.ok a t')
  | error {e t'} : Later programs t t' → Alike programs t Q (.error e t'.toMachine) (.error e t')

def Follows (programs : List (List Stmt)) (σ : Setting) (t : State) (x : Eval α) (y : Action α)
    (Q : α → State → Prop) : Prop :=
  Alike programs t Q (x σ t.toMachine) (y σ t)

variable {programs : List (List Stmt)} {σ : Setting} {t t' t'' : State} {x x' : Eval α}
  {y y' : Action α} {f : α → Eval β} {g : α → Action β} {Q Q' : α → State → Prop}
  {R : β → State → Prop}

theorem Later.refl (hl : t.ledger.Holds programs t.heap) : Later programs t t :=
  ⟨hl, .refl _ _⟩

theorem follows_pure {a : α} (hl : t.ledger.Holds programs t.heap) (hq : Q a t) :
    Follows programs σ t (pure a) (pure a) Q :=
  .ok (.refl hl) hq

theorem follows_throw {e : Stop} (hl : t.ledger.Holds programs t.heap) :
    Follows programs σ t (throw e : Eval α) (throw e : Action α) Q :=
  .error (.refl hl)

theorem Follows.imp (h : Follows programs σ t x y Q)
    (hq : ∀ a t', x σ t.toMachine = .ok a t'.toMachine → Q a t' → Q' a t') :
    Follows programs σ t x y Q' := by
  unfold Follows at h ⊢
  cases hx : x σ t.toMachine <;> cases hy : y σ t <;> rw [hx, hy] at h <;> cases h
  case ok.ok.ok hl h => exact .ok hl (hq _ _ hx h)
  case error.error.error hl => exact .error hl

theorem Follows.mono (h : Follows programs σ t x y Q) (hq : ∀ a t', Q a t' → Q' a t') :
    Follows programs σ t x y Q' :=
  h.imp fun a t' _ => hq a t'

theorem Follows.later (h : Follows programs σ t x y Q) :
    Follows programs σ t x y fun a t' => Later programs t t' ∧ Q a t' := by
  unfold Follows at h ⊢
  generalize x σ t.toMachine = result at h ⊢
  generalize y σ t = result' at h ⊢
  cases h with
  | ok hl hq => exact .ok hl ⟨hl, hq⟩
  | error hl => exact .error hl

/-- What is known of the evaluation without a ledger may be used behind both. -/
theorem Follows.tracked {E : Stop → Heap → Prop} {P : α → Machine → Prop}
    (h : Follows programs σ t x y Q) (ht : Eval.Tracks σ E t.toMachine x x' P) :
    Follows programs σ t x y fun a t' => Q a t' ∧ P a t'.toMachine := by
  refine h.imp fun a t' hx hq => ⟨hq, ?_⟩
  have hends := ht.2
  rw [hx] at hends
  exact hends

/-- Both evaluations begin with the same steps. -/
theorem Follows.after {x₁ : Eval α} {y₁ : Action α}
    (hg : Grows t.heap t.ledger t'.heap t'.ledger) (hx : x σ t.toMachine = x₁ σ t'.toMachine)
    (hy : y σ t = y₁ σ t') (h : Follows programs σ t' x₁ y₁ Q) : Follows programs σ t x y Q := by
  unfold Follows at h ⊢
  rw [hx, hy]
  generalize x₁ σ t'.toMachine = r at h ⊢
  generalize y₁ σ t' = r' at h ⊢
  cases h with
  | ok hl hq => exact .ok ⟨hl.holds, hg.trans hl.grows⟩ hq
  | error hl => exact .error ⟨hl.holds, hg.trans hl.grows⟩

theorem Follows.of_eq (hx : x σ t.toMachine = x' σ t.toMachine) (hy : y σ t = y' σ t)
    (h : Follows programs σ t x' y' Q) : Follows programs σ t x y Q :=
  h.after (.refl _ _) hx hy

theorem follows_bind (h : Follows programs σ t x y Q)
    (hf : ∀ a t', Later programs t t' → Q a t' → Follows programs σ t' (f a) (g a) R) :
    Follows programs σ t (x >>= f) (y >>= g) R := by
  unfold Follows at h
  cases hx : x σ t.toMachine <;> cases hy : y σ t <;> rw [hx, hy] at h <;> cases h
  case ok.ok.ok a t' hl hq =>
    refine (hf a t' hl hq).after hl.grows ?_ ?_
    · rw [Eval.bind_run, hx]
    · rw [bind_run, hy]
  case error.error.error hl =>
    unfold Follows
    rw [Eval.bind_run, bind_run, hx, hy]
    exact .error hl

/-- Both are in a scope of their own. -/
theorem follows_within {scope : ScopeId}
    (h : Follows programs σ { t with cursor := scope } x y
      fun a t' => Q a { t' with cursor := t.cursor }) :
    Follows programs σ t (Eval.within scope x) (within scope y) Q := by
  unfold Follows at h ⊢
  rw [Eval.within_run, within_run]
  cases hx : x σ { t with cursor := scope }.toMachine <;>
    cases hy : y σ { t with cursor := scope } <;> rw [hx, hy] at h <;> cases h
  case ok.ok.ok a u hl hq =>
    have hl' : Later programs t { u with cursor := t.cursor } := ⟨hl.holds, hl.grows⟩
    exact .ok hl' hq
  case error.error.error e u hl =>
    have hl' : Later programs t { u with cursor := t.cursor } := ⟨hl.holds, hl.grows⟩
    exact .error hl'

/-- Both end with a result that is known. -/
theorem follows_of_run {a : α} (hy : y σ t = .ok a t') (hx : x σ t.toMachine = .ok a t'.toMachine)
    (hl : t'.ledger.Holds programs t'.heap) (hg : Grows t.heap t.ledger t'.heap t'.ledger)
    (hq : Q a t') : Follows programs σ t x y Q := by
  unfold Follows
  rw [hx, hy]
  exact .ok ⟨hl, hg⟩ hq

/-! ### On the machine alone -/

theorem follows_onMachine {m : Machine} {a : α} (hx : x σ t.toMachine = .ok a m)
    (hl : t.ledger.Holds programs m.heap) (hg : Grows t.heap t.ledger m.heap t.ledger)
    (hq : Q a { t with toMachine := m }) : Follows programs σ t x (onMachine x) Q := by
  have hy : onMachine x σ t = .ok a { t with toMachine := m } := by rw [onMachine, hx]
  exact follows_of_run hy hx hl hg hq

/-- An operation that only reads the heap. -/
theorem follows_settled {line : Nat} {r : Except RuntimeFault α}
    (hx : x σ t.toMachine = Eval.settled line r t.toMachine)
    (hl : t.ledger.Holds programs t.heap) (hq : ∀ a, r = .ok a → Q a t) :
    Follows programs σ t x (onMachine x) Q := by
  unfold Follows onMachine
  rw [hx]
  cases r with
  | ok a => exact .ok (.refl hl) (hq a rfl)
  | error fault => exact .error (.refl hl)

end Inheritance
end Treewalk
