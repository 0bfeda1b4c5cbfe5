import Treewalk.Proofs.Evaluation.Frame
/-!
# Watching an evaluation

A watch looks at the machine whenever control is at a node: when it comes to the node, and when it
comes back to a node from an expression in it. It may stop the evaluation there. An evaluation that
cannot be told from a watched one is one in which the watch has had nothing to say, so a property
holds at all nodes that control is at if every watch which is silent wherever the property holds
makes no difference (`Tracks`).
-/

namespace Treewalk

/-- What control can be at. -/
inductive Node where
  | expr (e : Expr)
  | stmt (s : Stmt)

/-- What a watch says of a node and the machine. -/
abbrev Watch := Node → Machine → Option Stop

namespace Eval

variable {α β : Type}

/-- Shows the machine to the watch. -/
def check (w : Watch) (ν : Node) : Eval Unit := do
  match w ν (← get) with
  | some e => throw e
  | none => return

/-- Evaluates a part of a node and shows the machine when control is back. -/
def comingBack (w : Watch) (ν : Node) (part : Eval α) : Eval α := do
  let a ← part
  check w ν
  return a

mutual

/-- Evaluates an expression under a watch. -/
def exprWatched (w : Watch) : (fuel : Nat) → Expr → Eval Value
  | 0, _ => throw .outOfFuel
  | n + 1, e => do
    check w (.expr e)
    exprRule (fun part => comingBack w (.expr e) (exprWatched w n part)) (stmtWatched w n) e

/-- Executes a statement under a watch. -/
def stmtWatched (w : Watch) : (fuel : Nat) → Stmt → Eval Completion
  | 0, _ => throw .outOfFuel
  | n + 1, s => do
    check w (.stmt s)
    stmtRule (fun part => comingBack w (.stmt s) (exprWatched w n part)) (stmtWatched w n) n s

end

/-- Runs a program's statements under a watch. -/
def programWatched (w : Watch) (fuel : Nat) : List Stmt → Eval Unit
  | [] => return
  | s :: rest => do
    let _ ← stmtWatched w fuel s
    programWatched w fuel rest

/-! ### Evaluations that end alike -/

/-- The result is an `a` with `Q a`, or else a stop with `E`. -/
def Ends (Q : α → Machine → Prop) (E : Stop → Heap → Prop) :
    EStateM.Result Stop Machine α → Prop
  | .ok a m => Q a m
  | .error e m => E e m.heap

/-- On machine `m` both evaluations end alike, with `Q` or else with `E`. -/
def Tracks (σ : Setting) (E : Stop → Heap → Prop) (m : Machine) (x y : Eval α)
    (Q : α → Machine → Prop) : Prop :=
  y σ m = x σ m ∧ Ends Q E (x σ m)

section Tracks

variable {σ : Setting} {E : Stop → Heap → Prop} {m : Machine} {x y : Eval α} {f g : α → Eval β}
  {Q Q' : α → Machine → Prop} {R : β → Machine → Prop}

theorem tracks_pure {a : α} (h : Q a m) : Tracks σ E m (pure a) (pure a) Q :=
  ⟨rfl, h⟩

theorem tracks_throw {e : Stop} (h : E e m.heap) : Tracks σ E m (throw e : Eval α) (throw e) Q :=
  ⟨rfl, h⟩

theorem Tracks.mono (h : Tracks σ E m x y Q) (hq : ∀ a m', Q a m' → Q' a m') :
    Tracks σ E m x y Q' := by
  refine ⟨h.1, ?_⟩
  have := h.2
  cases hx : x σ m with
  | ok a m' => rw [hx] at this; exact hq a m' this
  | error e m' => rw [hx] at this; exact this

theorem tracks_bind (h : Tracks σ E m x y Q)
    (hf : ∀ a m', Q a m' → Tracks σ E m' (f a) (g a) R) :
    Tracks σ E m (x >>= f) (y >>= g) R := by
  obtain ⟨hs, he⟩ := h
  unfold Tracks
  rw [bind_run, bind_run, hs]
  cases hx : x σ m with
  | ok a m' => rw [hx] at he; exact hf a m' he
  | error e m' => rw [hx] at he; exact ⟨rfl, he⟩

theorem tracks_get_bind {f g : Machine → Eval β} (h : Tracks σ E m (f m) (g m) R) :
    Tracks σ E m (get >>= f) (get >>= g) R := h

theorem tracks_heap_bind {f g : Heap → Eval β} (h : Tracks σ E m (f m.heap) (g m.heap) R) :
    Tracks σ E m (heap >>= f) (heap >>= g) R := h

theorem tracks_read_bind {f g : Setting → Eval β} (h : Tracks σ E m (f σ) (g σ) R) :
    Tracks σ E m (read >>= f) (read >>= g) R := h

theorem tracks_define_bind {v : Value} {y : String} {f g : Unit → Eval β}
    (h : Tracks σ E { m with heap := m.heap.define m.cursor y v } (f ()) (g ()) R) :
    Tracks σ E m (define y v >>= f) (define y v >>= g) R := h

theorem tracks_modifyHeap_bind {t : Heap → Heap} {f g : Unit → Eval β}
    (h : Tracks σ E { m with heap := t m.heap } (f ()) (g ()) R) :
    Tracks σ E m (modifyHeap t >>= f) (modifyHeap t >>= g) R := h

theorem tracks_newScope_bind {b : Bindings Value} {p : ScopeId} {f g : ScopeId → Eval β}
    (h : Tracks σ E { m with heap := m.heap.addScope b p } (f m.heap.scopes.size)
      (g m.heap.scopes.size) R) :
    Tracks σ E m (newScope b p >>= f) (newScope b p >>= g) R := h

theorem tracks_newInstance_bind {c : ClassId} {f g : InstanceId → Eval β}
    (h : Tracks σ E { m with heap := m.heap.addInstance c } (f m.heap.instances.size)
      (g m.heap.instances.size) R) :
    Tracks σ E m (newInstance c >>= f) (newInstance c >>= g) R := h

theorem tracks_lift {line : Nat} {r : Except RuntimeFault α} (hq : ∀ a, r = .ok a → Q a m)
    (he : ∀ fault, r = .error fault → E (.runtime ⟨line, fault⟩) m.heap) :
    Tracks σ E m (lift line r : Eval α) (lift line r) Q := by
  cases r with
  | ok a => exact tracks_pure (hq a rfl)
  | error fault => exact tracks_throw (he fault rfl)

theorem tracks_plainly {r : Except RuntimeError α} (hq : ∀ a, r = .ok a → Q a m)
    (he : ∀ e, r = .error e → E (.runtime e) m.heap) :
    Tracks σ E m (plainly r : Eval α) (plainly r) Q := by
  cases r with
  | ok a => exact tracks_pure (hq a rfl)
  | error e => exact tracks_throw (he e rfl)

/-- What is known of the evaluation's frame may be used behind it. -/
theorem Tracks.framed {S : Prop} (h : Tracks σ E m x y Q) (hf : Frames S x) :
    Tracks σ E m x y fun a m' => Q a m' ∧ m'.cursor = m.cursor ∧
      m.heap.Extends (fun j => S ∧ j = m.cursor) m'.heap := by
  refine ⟨h.1, ?_⟩
  have := h.2
  cases hx : x σ m with
  | ok a m' => rw [hx] at this; exact ⟨this, hf.ok hx⟩
  | error e m' => rw [hx] at this; exact this

theorem check_run {w : Watch} {ν : Node} (hw : w ν m = none) : check w ν σ m = .ok () m := by
  show (match w ν m with | some e => (throw e : Eval Unit) | none => pure ()) σ m = _
  rw [hw]; rfl

theorem check_run_error {w : Watch} {ν : Node} {e : Stop} (hw : w ν m = some e) :
    check w ν σ m = .error e m := by
  show (match w ν m with | some e => (throw e : Eval Unit) | none => pure ()) σ m = _
  rw [hw]; rfl

theorem check_bind {w : Watch} {ν : Node} (hw : w ν m = none) (x : Eval α) :
    (check w ν >>= fun _ => x) σ m = x σ m :=
  bind_ok (check_run hw) _

theorem check_bind_error {w : Watch} {ν : Node} {e : Stop} (hw : w ν m = some e) (x : Eval α) :
    (check w ν >>= fun _ => x) σ m = .error e m :=
  bind_error (check_run_error hw) _

/-- A watch that is silent in front makes no difference. -/
theorem Tracks.check {w : Watch} {ν : Node} (h : Tracks σ E m x y Q) (hw : w ν m = none) :
    Tracks σ E m x (check w ν >>= fun _ => y) Q := by
  refine ⟨?_, h.2⟩
  rw [check_bind hw]
  exact h.1

/-- Nor does one that is silent behind. -/
theorem Tracks.comingBack {w : Watch} {ν : Node} (h : Tracks σ E m x y Q)
    (hw : ∀ a m', Q a m' → w ν m' = none) : Tracks σ E m x (comingBack w ν y) Q := by
  obtain ⟨hs, he⟩ := h
  refine ⟨?_, he⟩
  unfold Eval.comingBack
  rw [bind_run, hs]
  cases hx : x σ m with
  | error e m' => rfl
  | ok a m' =>
    rw [hx] at he
    show (Eval.check w ν >>= fun _ => pure a) σ m' = _
    rw [bind_run, check_run (hw a m' he)]
    rfl

/-- A scope is left as it was entered. -/
theorem tracks_within {scope : ScopeId}
    (h : Tracks σ E { m with cursor := scope } x y fun a m' => Q a { m' with cursor := m.cursor }) :
    Tracks σ E m (within scope x) (within scope y) Q := by
  obtain ⟨hs, he⟩ := h
  unfold Tracks
  rw [within_run, within_run, hs]
  cases hx : x σ { m with cursor := scope } <;> rw [hx] at he <;> exact ⟨rfl, he⟩

end Tracks

/-! ### Under two watches -/

theorem silent_of_check_bind {w : Watch} {ν : Node} {x : Eval α} {σ : Setting} {m m' : Machine}
    {a : α} (h : (check w ν >>= fun _ => x) σ m = .ok a m') : w ν m = none := by
  rw [bind_run] at h
  cases hw : w ν m with
  | none => rfl
  | some e => rw [check_run_error hw] at h; cases h

/-- Where a part ends and control is back at the node, the watch is silent. -/
theorem silent_of_comingBack {w : Watch} {ν : Node} {x : Eval α} {σ : Setting} {m m' : Machine}
    {a : α} (h : comingBack w ν x σ m = .ok a m') : w ν m' = none := by
  unfold comingBack at h
  cases hx : x σ m with
  | error e m₁ => rw [bind_error hx] at h; cases h
  | ok b m₁ =>
    rw [bind_ok hx] at h
    have silent := silent_of_check_bind h
    rw [check_bind silent] at h
    cases h
    exact silent

/-- A compositional relation between evaluations under the watches `w` and `w'`. Of writing to scopes
it need only be known where `w` is silent. -/
structure CompositionalUnder (w w' : Watch) (σ : Setting)
    (P : Prop → Machine → {α : Type} → Result α → Result α → Prop) : Prop
    extends Compositional P where
  check {S : Prop} {m : Machine} {α : Type} {ν : Node} {x y : Eval α} :
    (w ν m = none → P S m (x σ m) (y σ m)) →
    P S m ((check w ν >>= fun _ => x) σ m) ((check w' ν >>= fun _ => y) σ m)
  assign {S : Prop} {m : Machine} {node : NodeId} {name : Token} {value : Expr} (v : Value) :
    w (.expr (.assign node name value)) m = none →
    P S m (assign node name v σ m) (assign node name v σ m)
  declare {m₀ : Machine} {s : Stmt} {name : Token} : w (.stmt s) m₀ = none →
    s.declared? = some name → ∀ v m,
    P True m (define name.lexeme v σ m) (define name.lexeme v σ m)

/-- A relation to the machine behind an evaluation goes over to evaluations under a watch. -/
theorem Compositional.under {Q : Prop → Machine → Machine → Prop} {w : Watch} {σ : Setting}
    (hQ : Compositional fun S m {_} r _ => Q S m (ending r))
    (ha : ∀ {S m node name value} v, w (.expr (.assign node name value)) m = none →
      Q S m (ending (assign node name v σ m)))
    (hd : ∀ {m₀ s name}, w (.stmt s) m₀ = none → s.declared? = some name → ∀ v m,
      Q True m (ending (define name.lexeme v σ m))) (w' : Watch) :
    CompositionalUnder w w' σ fun S m {_} r _ => Q S m (ending r) where
  toCompositional := hQ
  check {S m α ν x y} hx := by
    cases hw : w ν m with
    | none => rw [check_bind hw]; exact hx hw
    | some e => rw [check_bind_error hw]; exact hQ.error (α := α) e
  assign := ha
  declare := hd

namespace CompositionalUnder

variable {w w' : Watch} {σ : Setting}
  {P : Prop → Machine → {α : Type} → Result α → Result α → Prop} (hP : CompositionalUnder w w' σ P)

include hP

theorem comingBack {S : Prop} {ν : Node} {m : Machine} {x y : Eval α} (h : P S m (x σ m) (y σ m)) :
    P S m (comingBack w ν x σ m) (comingBack w' ν y σ m) :=
  hP.bind h fun a _ _ => hP.check fun _ => hP.ok a

theorem nodes (n : Nat) :
    (∀ S e m, P S m (exprWatched w n e σ m) (exprWatched w' n e σ m)) ∧
      ∀ s m, P True m (stmtWatched w n s σ m) (stmtWatched w' n s σ m) := by
  induction n with
  | zero => exact ⟨fun _ _ _ => hP.error _, fun _ _ => hP.error _⟩
  | succ n ih =>
    obtain ⟨he, hs⟩ := ih
    refine ⟨fun S e m => hP.check fun _ => ?_, fun s m => hP.check fun hw => ?_⟩
    · refine hP.exprRule (fun part m' => hP.comingBack (he S part m')) hs ?_
      rintro node name value rfl m₀ v m' hv
      exact hP.assign v (silent_of_comingBack hv)
    · exact hP.stmtRule (fun part m' => hP.comingBack (he True part m')) hs
        (fun hname => hP.declare hw hname) n

theorem program (fuel : Nat) (p : List Stmt) (m : Machine) :
    P True m (programWatched w fuel p σ m) (programWatched w' fuel p σ m) := by
  induction p generalizing m with
  | nil => exact hP.ok _
  | cons s rest ih => exact hP.bind ((hP.nodes fuel).2 s m) fun _ m' _ => ih m'

end CompositionalUnder

end Eval
end Treewalk
