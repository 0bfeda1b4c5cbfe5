import Treewalk.Proofs.Renaming.Evaluating
import Treewalk.Proofs.Lexical.InStep
import Treewalk.Proofs.Surface.Evaluation
/-!
# Actions on lowered stores

An action lowers to another if it does on each store what the other does on the lowered one, where the
functions have lowered bodies (`Lowers`). Either of the two may be allowed to run out of fuel first.
-/

namespace Treewalk
namespace Surface

open Lexical (Location Env Place Finish)

/-! ### Lowered stores -/

def Closure.lowered (f : Closure) : Lexical.Closure :=
  ⟨f.declaration.lowered, f.env, f.isInitializer⟩

def Class.lowered (k : Class) : Lexical.Class :=
  ⟨k.name, k.superclass, k.methods.map Closure.lowered⟩

namespace Store

def lowered (s : Store) : Lexical.Store :=
  ⟨s.cells, s.globals, s.functions.map Closure.lowered, s.classes.map Class.lowered, s.instances,
    s.out, s.readings⟩

variable (s : Store)

@[simp] theorem functions_lowered (f : FunctionId) :
    s.lowered.functions[f]? = s.functions[f]?.map Closure.lowered :=
  Array.getElem?_map

@[simp] theorem classes_lowered (c : ClassId) :
    s.lowered.classes[c]? = s.classes[c]?.map Class.lowered :=
  Array.getElem?_map

theorem write?_lowered (env : Env) (x : String) (v : Value) :
    s.lowered.write? env x v = (s.write? env x v).map lowered := by
  unfold write? Lexical.Store.write?
  cases env.lookup x with
  | some l => rfl
  | none =>
    by_cases h : s.globals.contains x <;> simp [lowered, h]

theorem findMethod?_eq (c : ClassId) (x : String) :
    s.findMethod? c x = (s.classes[c]?.bind (·.methods.get? x)).or
      ((s.superclass? c).bind (s.findMethod? · x)) := by
  rw [findMethod?]
  split
  · next f hf => rw [hf]; rfl
  · next hf =>
    rw [hf]
    split
    · next d hd => rw [hd]; rfl
    · next hd => rw [hd]; rfl

theorem findMethod?_lowered (c : ClassId) (x : String) :
    s.lowered.findMethod? c x = (s.findMethod? c x).map Closure.lowered := by
  have hsuperclass (c : ClassId) : s.lowered.superclass? c = s.superclass? c := by
    unfold superclass? Lexical.Store.superclass?
    rw [classes_lowered]
    cases s.classes[c]? <;> rfl
  induction c using Nat.strong_induction_on with
  | _ c ih =>
    rw [Lexical.Store.findMethod?_eq, findMethod?_eq, hsuperclass, classes_lowered]
    have hown : (s.classes[c]?.map Class.lowered).bind (·.methods.get? x) =
        (s.classes[c]?.bind (·.methods.get? x)).map Closure.lowered := by
      cases s.classes[c]? with
      | none => rfl
      | some k => exact Bindings.get?_map ..
    rw [hown]
    cases s.classes[c]?.bind (·.methods.get? x) with
    | some f => rfl
    | none =>
      cases hs : s.superclass? c with
      | none => rfl
      | some d => exact ih d (superclass?_lt hs)

theorem classArity_lowered (c : ClassId) : s.lowered.classArity c = s.classArity c := by
  unfold classArity Lexical.Store.classArity
  rw [findMethod?_lowered]
  cases s.findMethod? c initializerName with
  | none => rfl
  | some f => simp [Closure.lowered]

theorem className_lowered (c : ClassId) : s.lowered.className c = s.className c := by
  unfold className Lexical.Store.className
  rw [classes_lowered]
  cases s.classes[c]? <;> rfl

theorem text_lowered (v : Value) : s.lowered.text v = s.text v := by
  cases v with
  | function f =>
    simp only [text, Lexical.Store.text, functions_lowered]
    cases s.functions[f]? with
    | none => rfl
    | some f => simp [Closure.lowered]
  | «class» c => exact className_lowered s c
  | «instance» i =>
    have hinstances : s.lowered.instances = s.instances := rfl
    cases h : s.instances[i]? <;>
      simp only [text, Lexical.Store.text, hinstances, h, className_lowered]
  | bool b => cases b <;> rfl
  | nil | number | string | native => rfl

end Store

theorem methodTable_lowered (methods : List FunctionDecl) (env : Env) :
    Lexical.methodTable (FunctionDecl.loweredAll methods) env =
      (methodTable methods env).map Closure.lowered := by
  have hfold (b : Bindings Closure) :
      (FunctionDecl.loweredAll methods).foldl
          (fun b f => b.set f.name.lexeme ⟨f, env, f.isInitializer⟩) (b.map Closure.lowered) =
        (methods.foldl (fun b f => b.set f.name.lexeme ⟨f, env, f.isInitializer⟩) b).map
          Closure.lowered := by
    induction methods generalizing b with
    | nil => rfl
    | cons f rest ih =>
      rw [FunctionDecl.loweredAll, List.foldl_cons, List.foldl_cons, ← ih, ← Bindings.set_map]
      simp only [FunctionDecl.name_lowered, FunctionDecl.isInitializer_lowered, Closure.lowered]
  exact hfold []

/-! ### Actions -/

variable {α α' β β' : Type}

theorem bind_run (x : Action α) (f : α → Action β) (τ : Lexical.Setting) (s : Store) :
    (x >>= f) τ s = match x τ s with
      | .ok a s' => f a τ s'
      | .error e s' => .error e s' := by
  show EStateM.bind (x τ) (fun a => f a τ) s = _
  unfold EStateM.bind
  cases x τ s <;> rfl

/-- Both end alike, unless the first has run out of fuel, where that is allowed (`early`), or the
second has, where that is (`late`). -/
inductive Ends (early late : Prop) (R : α → α' → Prop) :
    EStateM.Result Stop Store α → EStateM.Result Stop Lexical.Store α' → Prop where
  | ok {a a' s} : R a a' → Ends early late R (.ok a s) (.ok a' s.lowered)
  | error {e s} : Ends early late R (.error e s) (.error e s.lowered)
  | early {s r} : early → Ends early late R (.error .outOfFuel s) r
  | late {r s} : late → Ends early late R r (.error .outOfFuel s)

/-- What `x` does on a store, `y` does on the lowered one. -/
structure Lowers (early late : Prop) (R : α → α' → Prop) (x : Action α) (y : Lexical.Action α') :
    Prop where
  run : ∀ τ s, Ends early late R (x τ s) (y τ s.lowered)

section Lowers

variable {early late : Prop} {R R' : α → α' → Prop} {Q : β → β' → Prop} {x : Action α}
  {y : Lexical.Action α'}

theorem lowers_pure {a : α} {a' : α'} (h : R a a') : Lowers early late R (pure a) (pure a') :=
  ⟨fun _ _ => .ok h⟩

theorem lowers_throw (e : Stop) : Lowers early late R (throw e) (throw e) :=
  ⟨fun _ _ => .error⟩

theorem lowers_early (h : early) (y : Lexical.Action α') :
    Lowers early late R (throw .outOfFuel) y :=
  ⟨fun _ _ => .early h⟩

theorem lowers_late (h : late) (x : Action α) : Lowers early late R x (throw .outOfFuel) :=
  ⟨fun _ _ => .late h⟩

theorem Lowers.mono (h : Lowers early late R x y) (hR : ∀ a a', R a a' → R' a a') :
    Lowers early late R' x y := by
  refine ⟨fun τ s => ?_⟩
  have hs := h.run τ s
  generalize x τ s = r at hs
  generalize y τ s.lowered = r' at hs
  cases hs with
  | ok ha => exact .ok (hR _ _ ha)
  | error => exact .error
  | early he => exact .early he
  | late hl => exact .late hl

theorem lowers_bind {f : α → Action β} {g : α' → Lexical.Action β'} (h : Lowers early late R x y)
    (hf : ∀ a a', R a a' → Lowers early late Q (f a) (g a')) :
    Lowers early late Q (x >>= f) (y >>= g) := by
  refine ⟨fun τ s => ?_⟩
  have hs := h.run τ s
  rw [bind_run, Lexical.bind_run]
  generalize x τ s = r at hs
  generalize y τ s.lowered = r' at hs
  cases hs with
  | ok ha => exact (hf _ _ ha).run τ _
  | error => exact .error
  | early he => exact .early he
  | late hl => exact .late hl

/-- The first action goes on with nothing but another result. -/
theorem lowers_bind_left {f : α → Action β} {Q : β → α' → Prop} (h : Lowers early late R x y)
    (hf : ∀ a a', R a a' → Lowers early late Q (f a) (pure a')) :
    Lowers early late Q (x >>= f) y := by
  rw [← bind_pure y]
  exact lowers_bind h hf

/-- The second action goes on with nothing but another result. -/
theorem lowers_map {f : α' → β'} {Q : α → β' → Prop} (h : Lowers early late R x y)
    (hf : ∀ a a', R a a' → Q a (f a')) :
    Lowers early late Q x (y >>= fun a' => pure (f a')) := by
  rw [← bind_pure x]
  exact lowers_bind h fun a a' ha => lowers_pure (hf a a' ha)

theorem lowers_get_bind {f : Store → Action β} {g : Lexical.Store → Lexical.Action β'}
    (h : ∀ s, Lowers early late Q (f s) (g s.lowered)) :
    Lowers early late Q (get >>= f) (get >>= g) :=
  ⟨fun τ s => (h s).run τ s⟩

theorem lowers_read_bind {f : Lexical.Setting → Action β} {g : Lexical.Setting → Lexical.Action β'}
    (h : ∀ τ, Lowers early late Q (f τ) (g τ)) : Lowers early late Q (read >>= f) (read >>= g) :=
  ⟨fun τ s => (h τ).run τ s⟩

theorem lowers_modifyGet {f : Store → α × Store} {g : Lexical.Store → α' × Lexical.Store}
    (hR : ∀ s, R (f s).1 (g s.lowered).1) (hs : ∀ s, (g s.lowered).2 = (f s).2.lowered) :
    Lowers early late R (modifyGet f) (modifyGet g) := by
  refine ⟨fun τ s => ?_⟩
  show Ends early late R (.ok (f s).1 (f s).2) (.ok (g s.lowered).1 (g s.lowered).2)
  rw [hs]
  exact .ok (hR s)

theorem lowers_modify {f : Store → Store} {g : Lexical.Store → Lexical.Store}
    (hs : ∀ s, g s.lowered = (f s).lowered) :
    Lowers early late Eq (modify f : Action Unit) (modify g) :=
  lowers_modifyGet (fun _ => rfl) hs

theorem lowers_plainly {r : Except RuntimeError α} :
    Lowers early late Eq (Eval.plainly r : Action α) (Eval.plainly r) := by
  cases r
  · exact lowers_throw _
  · exact lowers_pure rfl

/-! ### Primitives -/

theorem lowers_newCells (vs : List Value) :
    Lowers early late Eq (newCells vs) (Lexical.newCells vs) :=
  lowers_modifyGet (fun _ => rfl) fun _ => rfl

theorem lowers_newFunction (f : Closure) :
    Lowers early late Eq (newFunction f) (Lexical.newFunction f.lowered) :=
  lowers_modifyGet (fun s => by simp [Store.lowered]) fun s => by simp [Store.lowered]

theorem lowers_newClass (k : Class) :
    Lowers early late Eq (newClass k) (Lexical.newClass k.lowered) :=
  lowers_modifyGet (fun s => by simp [Store.lowered]) fun s => by simp [Store.lowered]

theorem lowers_newInstance (c : ClassId) :
    Lowers early late Eq (newInstance c) (Lexical.newInstance c) :=
  lowers_modifyGet (fun _ => rfl) fun _ => rfl

theorem lowers_lookUp (env : Env) (x : String) (line : Nat) :
    Lowers early late Eq (lookUp env x line) (Lexical.lookUp env x line) := by
  refine lowers_get_bind fun s => ?_
  have hread : s.lowered.read? env x = s.read? env x := rfl
  rw [hread]
  cases s.read? env x with
  | none => exact lowers_throw _
  | some v => exact lowers_pure rfl

/-- A declaration leaves control at a place outside of initializers, if it was at one. -/
theorem lowers_declare {place : Place} (h : place.initializing = none) (x : String) (v : Value) :
    Lowers early late (fun p p' => p = p' ∧ p.initializing = none) (declare place x v)
      (Lexical.declare place x v) := by
  unfold declare Lexical.declare
  split
  · refine lowers_bind (lowers_newCells [v]) ?_
    rintro l _ rfl
    exact lowers_pure ⟨rfl, h⟩
  · exact lowers_bind (lowers_modify fun _ => rfl) fun _ _ _ => lowers_pure ⟨rfl, h⟩

theorem lowers_assign {p q : Place} (henv : p.env = q.env)
    (hinitializing : p.initializing = q.initializing) (name : Token) (v : Value) :
    Lowers early late Eq (assign p name v) (Lexical.assign q name v) := by
  unfold assign Lexical.assign
  refine lowers_read_bind fun τ => ?_
  rw [henv, hinitializing]
  split
  · exact lowers_throw (.runtime ⟨name.line, .undefinedVariable name.lexeme⟩)
  · refine lowers_get_bind fun s => ?_
    rw [Store.write?_lowered]
    cases s.write? q.env name.lexeme v with
    | none => exact lowers_throw _
    | some s' => exact ⟨fun _ _ => .ok (s := s') rfl⟩

theorem lowers_print (text : String) :
    Lowers early late Eq (print text) (Lexical.print text) := by
  refine lowers_bind (R := Eq) (lowers_modifyGet (fun _ => rfl) fun _ => rfl) ?_
  rintro refusal _ rfl
  cases refusal with
  | none => exact lowers_pure rfl
  | some reason => exact lowers_throw _

end Lowers

end Surface
end Treewalk
