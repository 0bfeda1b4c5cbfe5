import Treewalk.Proofs.Surface.Lowering
/-!
# Calls of lowered functions

Where bodies lower, so do calls: what functions, classes and their methods do on a store, the lowered
ones do on the lowered store (`callValue_lowers`).
-/

namespace Treewalk
namespace Surface

open Lexical (Location Env Place Finish)

/-- Both have finished alike, wherever control is. -/
inductive Finishes : Completion → Finish → Prop where
  | normal (place : Place) : Finishes .normal (.normal place)
  | returned (v : Value) : Finishes (.returned v) (.returned v)

/-- Bodies lower. -/
def BodyLowers (early late : Prop) (run : Env → List Declaration → Action Completion)
    (exec : Place → Treewalk.Stmt → Lexical.Action Finish) : Prop :=
  ∀ env body, Lowers early late Finishes (run env body)
    (Lexical.statements exec (.body env) (Declaration.loweredAll body))

variable {early late : Prop}

theorem bind_lowers (f : Closure) (i : InstanceId) :
    Lowers early late (fun g g' => g.lowered = g') (bind f i) (Lexical.bind f.lowered i) := by
  refine lowers_bind (lowers_newCells _) ?_
  rintro l _ rfl
  exact lowers_pure rfl

theorem boundMethod_lowers (f : Closure) (i : InstanceId) :
    Lowers early late Eq (boundMethod f i) (Lexical.boundMethod f.lowered i) := by
  refine lowers_bind (bind_lowers f i) ?_
  rintro g _ rfl
  refine lowers_bind (lowers_newFunction g) ?_
  rintro id _ rfl
  exact lowers_pure rfl

theorem checkArity_lowers (expected got line : Nat) :
    Lowers early late Eq (Eval.checkArity expected got line : Action Unit)
      (Eval.checkArity expected got line) := by
  unfold Eval.checkArity
  split
  · exact lowers_pure rfl
  · exact lowers_throw _

section Calls

variable {run : Env → List Declaration → Action Completion}
  {exec : Place → Treewalk.Stmt → Lexical.Action Finish} (hrun : BodyLowers early late run exec)

include hrun

theorem callFunction_lowers (f : Closure) (arguments : List Value) :
    Lowers early late Eq (callFunction run f arguments)
      (Lexical.callFunction exec f.lowered arguments) := by
  refine lowers_bind (lowers_newCells arguments) ?_
  rintro l _ rfl
  have hbody := hrun (Env.bindAll l f.declaration.parameters f.env) f.declaration.body
  unfold Closure.lowered
  rw [FunctionDecl.parameters_lowered, FunctionDecl.body_lowered, FunctionDecl.name_lowered]
  refine lowers_bind hbody fun c c' hc => ?_
  dsimp only
  split
  · exact lowers_lookUp ..
  · cases hc with
    | normal => exact lowers_pure rfl
    | returned v => exact lowers_pure rfl

theorem instantiate_lowers (c : ClassId) (arguments : List Value) :
    Lowers early late Eq (instantiate run c arguments) (Lexical.instantiate exec c arguments) := by
  refine lowers_bind (lowers_newInstance c) ?_
  rintro i _ rfl
  refine lowers_get_bind fun s => ?_
  rw [Store.findMethod?_lowered]
  cases s.findMethod? c initializerName with
  | none => exact lowers_pure rfl
  | some f =>
    refine lowers_bind (bind_lowers f i) ?_
    rintro g _ rfl
    exact lowers_bind (callFunction_lowers hrun g arguments) fun _ _ _ => lowers_pure rfl

omit hrun in
theorem callNative_lowers (f : Native) :
    Lowers early late Eq (callNative f) (Lexical.callNative f) := by
  cases f
  refine lowers_bind (R := Eq) (lowers_modifyGet (fun _ => rfl) fun _ => rfl) ?_
  rintro reading _ rfl
  exact lowers_read_bind fun τ => lowers_pure rfl

theorem callValue_lowers (callee : Value) (arguments : List Value) (line : Nat) :
    Lowers early late Eq (callValue run callee arguments line)
      (Lexical.callValue exec callee arguments line) := by
  cases callee with
  | native f => exact lowers_bind (checkArity_lowers ..) fun _ _ _ => callNative_lowers f
  | function f =>
    refine lowers_get_bind fun s => ?_
    rw [Store.functions_lowered]
    cases s.functions[f]? with
    | none => exact lowers_throw _
    | some f =>
      refine lowers_bind (R := Eq) ?_ fun _ _ _ => callFunction_lowers hrun f arguments
      simpa only [Closure.lowered, FunctionDecl.parameters_lowered] using checkArity_lowers ..
  | «class» c =>
    refine lowers_get_bind fun s => ?_
    rw [Store.classArity_lowered]
    exact lowers_bind (checkArity_lowers ..) fun _ _ _ => instantiate_lowers hrun c arguments
  | nil | bool | number | string | «instance» => exact lowers_throw _

end Calls

/-! ### Properties and declarations -/

theorem getProperty_lowers (v : Value) (name : Token) :
    Lowers early late Eq (getProperty v name) (Lexical.getProperty v name) := by
  cases v with
  | «instance» i =>
    refine lowers_get_bind fun s => ?_
    have hinstances : s.lowered.instances = s.instances := rfl
    rw [hinstances]
    cases s.instances[i]? with
    | none => exact lowers_throw _
    | some o =>
      dsimp only
      cases o.fields.get? name.lexeme with
      | some field => exact lowers_pure rfl
      | none =>
        dsimp only
        rw [Store.findMethod?_lowered]
        cases s.findMethod? o.ofClass name.lexeme with
        | none => exact lowers_throw _
        | some f => exact boundMethod_lowers f i
  | nil | bool | number | string | native | function | «class» => exact lowers_throw _

theorem superMethod_lowers (env : Env) (keyword method : Token) :
    Lowers early late Eq (superMethod env keyword method)
      (Lexical.superMethod env keyword method) := by
  refine lowers_get_bind fun s => ?_
  have hread (x : String) : s.lowered.read? env x = s.read? env x := rfl
  rw [hread, hread]
  cases s.read? env keyword.lexeme with
  | none => exact lowers_throw _
  | some v =>
    cases v with
    | «class» c =>
      cases s.read? env "this" with
      | none => exact lowers_throw _
      | some w =>
        cases w with
        | «instance» i =>
          dsimp only
          rw [Store.findMethod?_lowered]
          cases s.findMethod? c method.lexeme with
          | none => exact lowers_throw _
          | some f => exact boundMethod_lowers f i
        | nil | bool | number | string | native | function | «class» => exact lowers_throw _
    | nil | bool | number | string | native | function | «instance» => exact lowers_throw _

theorem declareFunction_lowers {place : Place} (h : place.initializing = none) (f : FunctionDecl) :
    Lowers early late (fun p p' => p = p' ∧ p.initializing = none) (declareFunction place f)
      (Lexical.declareFunction place f.lowered) := by
  refine lowers_get_bind fun s => ?_
  have hsize : s.lowered.functions.size = s.functions.size := by simp [Store.lowered]
  rw [hsize, FunctionDecl.name_lowered]
  refine lowers_bind (lowers_declare h ..) ?_
  rintro p _ ⟨rfl, hp⟩
  exact lowers_bind (lowers_newFunction _) fun _ _ _ => lowers_pure ⟨rfl, hp⟩

theorem declareClass_lowers {place : Place} (h : place.initializing = none) (name : Token)
    (superclass : Option ClassId) (methods : List FunctionDecl) :
    Lowers early late (fun p p' => p = p' ∧ p.initializing = none)
      (declareClass place name superclass methods)
      (Lexical.declareClass place name superclass (FunctionDecl.loweredAll methods)) := by
  refine lowers_get_bind fun s => ?_
  have hsize : s.lowered.classes.size = s.classes.size := by simp [Store.lowered]
  rw [hsize]
  refine lowers_bind (lowers_declare h ..) ?_
  rintro p _ ⟨rfl, hp⟩
  have henv : Lowers early late Eq (methodEnv superclass p.env)
      (Lexical.methodEnv superclass p.env) := by
    cases superclass with
    | none => exact lowers_pure rfl
    | some c =>
      refine lowers_bind (lowers_newCells _) ?_
      rintro l _ rfl
      exact lowers_pure rfl
  refine lowers_bind henv ?_
  rintro env _ rfl
  rw [methodTable_lowered]
  exact lowers_bind (lowers_newClass ⟨name.lexeme, superclass, methodTable methods env⟩)
    fun _ _ _ => lowers_pure ⟨rfl, hp⟩

end Surface
end Treewalk
