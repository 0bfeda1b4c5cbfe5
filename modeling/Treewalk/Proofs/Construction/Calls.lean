import Treewalk.Proofs.Construction.Initializers
import Treewalk.Proofs.Evaluation.Between
import Treewalk.Proofs.Evaluation.Containment
/-!
# Calls that construct

Evaluation never binds `this` anew in a scope that there was (`thisOnly_watched`), so a function that
is flagged as an initializer yields the instance that its closure binds, whatever its body does
(`callFunction_yields`). A class that is called yields an instance of its own that there was not, on
which the nearest initializer has run (`callValue_class`). What is read from an instance or from
`super` is bound to that instance (`getProperty_boundTo`, `superMethod_boundTo`).
-/

namespace Treewalk

/-! ### The nearest method -/

/-- From `c` upwards, the nearest class that has a method of the name has `f`. -/
inductive Heap.Nearest (h : Heap) (x : String) (f : Function) : ClassId → Prop where
  | own {c : ClassId} {k : Class} : h.classes[c]? = some k → k.methods.get? x = some f →
    Nearest h x f c
  | inherited {c s : ClassId} : (∀ k, h.classes[c]? = some k → k.methods.get? x = none) →
    h.superclass? c = some s → Nearest h x f s → Nearest h x f c

theorem Heap.nearest_iff {h : Heap} {x : String} {f : Function} {c : ClassId} :
    h.Nearest x f c ↔ h.findMethod? c x = some f := by
  constructor
  · intro hn
    induction hn with
    | own hk hf => rw [findMethod?_eq, hk, Option.bind_some, hf]; rfl
    | @inherited c s hno hs _ ih =>
      have none : h.classes[c]?.bind (·.methods.get? x) = none :=
        Option.bind_eq_none_iff.2 fun k hk => hno k hk
      rw [findMethod?_eq, none, hs]
      exact ih
  · intro hf
    fun_induction findMethod? h c x with
    | case1 c g hg =>
      obtain rfl := Option.some.inj hf
      obtain ⟨k, hk, hm⟩ := Option.bind_eq_some_iff.1 hg
      exact .own hk hm
    | case2 c hno s hs ih => exact .inherited (Option.bind_eq_none_iff.1 hno) hs (ih hf)
    | case3 => cases hf

/-- The function's closure binds `this` to the instance. -/
def Heap.BoundTo (h : Heap) (k : FunctionId) (i : InstanceId) : Prop :=
  ∃ f, h.functions[k]? = some f ∧ h.scopes.lookup? f.closure "this" = some (.instance i)

namespace Eval

variable {programs : List (List Stmt)} {σ : Setting} {m m' : Machine}

/-! ### What `this` is bound to -/

/-- `this` is to stay bound as it is, in every scope. -/
def thisOnly : Sparing := fun _ _ _ x => x = "this"

/-- No program without static errors assigns to `this` or declares it. -/
theorem thisOnly_watched (hσ : σ.distances.Suits programs True) {N : Node → Machine → Prop}
    (hN : ∀ ν m, N ν m → AtNode programs True ν m) (e : Stop) :
    thisOnly.Watched (.unless N e) σ where
  inner _ hx := hx
  assign {S m node name value j} hnone _ hx := by
    obtain ⟨r, hv, -⟩ := hN _ _ (Watch.unless_eq_none.1 hnone)
    have hformed := formed_of_visits hσ hv trivial
    simp only [Call.Formed, Expr.Formed] at hformed
    exact hformed.1.ne_keyword .this hx
  declare {m s name c} hnone hname hx := by
    obtain ⟨r, hv, -⟩ := hN _ _ (Watch.unless_eq_none.1 hnone)
    have hformed : s.Formed Token.Spelled := formed_of_visits hσ hv trivial
    exact (hformed.declared hname).ne_keyword .this hx

section Machines

variable (hσ : σ.distances.Suits programs True) (hs : m.heap.Sound programs True)

/-! ### Initializers -/

/-- An initializer that ends without an error yields what its closure then binds to `this`. -/
theorem lookup?_of_callFunction {exec : Stmt → Eval Completion} {f : Function}
    {arguments : List Value} {v : Value} (hf : f.isInitializer = true)
    (h : callFunction exec f arguments σ m = .ok v m') :
    m'.heap.scopes.lookup? f.closure "this" = some v := by
  unfold callFunction at h
  rw [newScope_bind, bind_run] at h
  split at h
  · next c m₁ _ =>
    rw [if_pos hf, heap_bind, lift_run, Scopes.getAt_eq_read (k := 0) rfl, Scopes.read] at h
    cases hl : m₁.heap.scopes.lookup? f.closure "this" with
    | none => rw [hl] at h; cases h
    | some w => rw [hl] at h; cases h; exact hl
  · cases h

include hσ hs

/-- A call leaves `this` bound as it was. -/
theorem callFunction_spares {f : Function} {arguments : List Value}
    (hf : f.Fits programs True m.heap.scopes) (ha : f.arity = arguments.length) (n : Nat) :
    m.Spares thisOnly False (ending (callFunction (stmt n) f arguments σ m)) := by
  -- the call is the same under a watch that stops unless the scopes mirror the walk's
  let w : Watch := .unless (AtNode programs True) .outOfFuel
  have mirror := mirrored hσ (w := w) (fun _ _ => Watch.unless_eq_none.2) n
  have same := (callFunction_tracks hσ mirror.2 (stmt_frames n) hf ha hs).1
  have hP := compositional_spares (thisOnly_watched hσ (fun _ _ h => h) .outOfFuel) w
  rw [← same]
  exact @Compositional.callFunction _ False σ m hP.toCompositional (stmtWatched w n)
    (stmtWatched w n) (hP.nodes n).2 f arguments

/-- A function that is flagged as an initializer yields the instance in its closure, or fails. -/
theorem callFunction_yields {f : Function} {arguments : List Value} {n : Nat} {v : Value}
    (hf : f.Fits programs True m.heap.scopes) (hflag : f.isInitializer = true)
    (ha : f.arity = arguments.length) (h : callFunction (stmt n) f arguments σ m = .ok v m') :
    m.heap.scopes.lookup? f.closure "this" = some v := by
  have spares := callFunction_spares hσ hs hf ha n
  rw [h] at spares
  obtain ⟨context, r, -, hfit, hhead⟩ := hf
  have size : f.closure < m.heap.scopes.size := hfit.lt_size hs.scopes
  rw [← spares.same size rfl]
  exact lookup?_of_callFunction hflag h

omit hσ in
/-- The closure of a flagged function binds an instance to `this`. -/
theorem exists_instance {f : Function} (hf : f.Fits programs True m.heap.scopes)
    (hflag : f.isInitializer = true) :
    ∃ i, m.heap.scopes.lookup? f.closure "this" = some (.instance i) := by
  obtain ⟨context, r, -, hfit, hhead⟩ := hf
  obtain ⟨outer, hr⟩ := List.head?_eq_some_iff.1 (hhead hflag)
  have bound : (m.heap.scopes.lookup? f.closure "this").isSome := by
    rw [hr] at hfit
    exact hfit.2 trivial "this" rfl
  obtain ⟨v, hv⟩ := Option.isSome_iff_exists.1 bound
  obtain ⟨i, rfl⟩ := hs.this trivial hv
  exact ⟨i, hv⟩

omit hσ hs in
theorem checkArity_ok {expected got line : Nat} {x : Eval α} {a : α}
    (h : (checkArity expected got line >>= fun _ => x) σ m = .ok a m') :
    expected = got ∧ x σ m = .ok a m' := by
  rw [checkArity_bind] at h
  split at h
  · next he => exact ⟨he, h⟩
  · cases h

omit hσ hs in
theorem callFunction_of_callValue {exec : Stmt → Eval Completion} {k : FunctionId} {f : Function}
    (hk : m.heap.functions[k]? = some f) {arguments : List Value} {line : Nat} {v : Value}
    (h : callValue exec (.function k) arguments line σ m = .ok v m') :
    f.arity = arguments.length ∧ callFunction exec f arguments σ m = .ok v m' := by
  simp only [callValue, heap_bind, hk] at h
  exact checkArity_ok h

omit hσ hs in
theorem instantiate_of_callValue {exec : Stmt → Eval Completion} {c : ClassId}
    {arguments : List Value} {line : Nat} {v : Value}
    (h : callValue exec (.class c) arguments line σ m = .ok v m') :
    m.heap.classArity c = arguments.length ∧ instantiate exec c arguments σ m = .ok v m' := by
  simp only [callValue, heap_bind] at h
  exact checkArity_ok h

/-- A call of a function of the heap that is flagged. -/
theorem callValue_initializer {k : FunctionId} {f : Function}
    (hk : m.heap.functions[k]? = some f) (hflag : f.isInitializer = true) :
    ∃ i, m.heap.BoundTo k i ∧ ∀ n arguments line v m',
      callValue (stmt n) (.function k) arguments line σ m = .ok v m' → v = .instance i := by
  have fits := hs.functions hk
  obtain ⟨i, hi⟩ := exists_instance hs fits hflag
  refine ⟨i, ⟨f, hk, hi⟩, fun n arguments line v m' h => ?_⟩
  obtain ⟨ha, hcall⟩ := callFunction_of_callValue hk h
  have yielded := callFunction_yields hσ hs fits hflag ha hcall
  exact Option.some.inj (yielded.symm.trans hi)

/-! ### Classes -/

/-- A call of class `c` has led from `m` to `m'`: the instance is one that there was not, it is of
the class, and the nearest initializer, if there is one, has been called with the arguments as a
function that is bound to the instance, and has yielded it. -/
structure Constructed (σ : Setting) (n : Nat) (c : ClassId) (arguments : List Value) (m : Machine)
    (i : InstanceId) (m' : Machine) : Prop where
  new : m.heap.instances[i]? = none
  made : ∃ o, m'.heap.instances[i]? = some o ∧ o.ofClass = c
  initialized :
    ((∀ f, ¬ m.heap.Nearest initializerName f c) ∧ arguments = [] ∧
      m' = { m with heap := m.heap.addInstance c }) ∨
    ∃ f, m.heap.Nearest initializerName f c ∧ f.isInitializer = true ∧
      f.arity = arguments.length ∧
      callFunction (stmt n) { f with closure := m.heap.scopes.size } arguments σ
        { m with heap := (m.heap.addInstance c).addScope [("this", .instance i)] f.closure } =
      .ok (.instance i) m'

omit hσ hs in
/-- Instances that there were keep their classes. -/
theorem exists_ofClass_of_callFunction {exec : Stmt → Eval Completion}
    (hx : ∀ s, Frames True (exec s)) {f : Function} {arguments : List Value} {v : Value}
    (h : callFunction exec f arguments σ m = .ok v m') {i : InstanceId} {o : Instance}
    (ho : m.heap.instances[i]? = some o) :
    ∃ o', m'.heap.instances[i]? = some o' ∧ o'.ofClass = o.ofClass := by
  have framed : Framed False m (callFunction exec f arguments σ m) :=
    @Compositional.callFunction _ False σ m compositional_framed exec exec
      (fun s => (hx s).framed σ) f arguments
  rw [h] at framed
  obtain ⟨o', ho', hclass, -⟩ := framed.2.instances i o ho
  exact ⟨o', ho', hclass⟩

theorem callValue_class (hg : m.heap.Flagged) {n : Nat} {c : ClassId} {arguments : List Value}
    {line : Nat} {v : Value}
    (h : callValue (stmt n) (.class c) arguments line σ m = .ok v m') :
    ∃ i, v = .instance i ∧ Constructed σ n c arguments m i m' := by
  obtain ⟨ha, h⟩ := instantiate_of_callValue h
  have new : m.heap.instances[m.heap.instances.size]? = none := Array.getElem?_eq_none (Nat.le_refl _)
  have added : (m.heap.addInstance c).instances[m.heap.instances.size]? = some ⟨c, []⟩ :=
    Array.getElem?_push_size
  unfold instantiate at h
  rw [newInstance_bind, heap_bind, Heap.findMethod?_addInstance] at h
  rw [Heap.classArity] at ha
  refine ⟨m.heap.instances.size, ?_⟩
  cases hf : m.heap.findMethod? c initializerName with
  | none =>
    rw [hf] at h ha
    cases h
    refine ⟨rfl, new, ⟨_, added, rfl⟩, .inl ⟨fun f hn => ?_, ?_, rfl⟩⟩
    · rw [Heap.nearest_iff, hf] at hn
      cases hn
    · exact List.eq_nil_of_length_eq_zero ha.symm
  | some f =>
    rw [hf] at h ha
    obtain ⟨hname, hflag⟩ := hg.findMethod? hf
    have flagged : f.isInitializer = true := by
      rw [hflag, FunctionDecl.isInitializer, hname]; simp
    -- the initializer as it is bound to the instance
    obtain ⟨sound, fits⟩ := bind_fits (m := { m with heap := m.heap.addInstance c })
      (hs.findMethod? hf) (hs.addInstance c) m.heap.instances.size
    dsimp only at h
    rw [bindMethod_bind, bind_run] at h
    split at h
    · next w m₁ hcall =>
      cases h
      have yielded := callFunction_yields (f := { f with closure := m.heap.scopes.size }) hσ sound
        fits flagged ha hcall
      have bound : ((m.heap.addInstance c).addScope [("this", .instance m.heap.instances.size)]
          f.closure).scopes.lookup? m.heap.scopes.size "this" =
          some (.instance m.heap.instances.size) := Scopes.lookup?_add_size ..
      obtain rfl : Value.instance m.heap.instances.size = w :=
        Option.some.inj (bound.symm.trans yielded)
      have made := exists_ofClass_of_callFunction (stmt_frames n) hcall added
      exact ⟨rfl, new, made, .inr ⟨f, Heap.nearest_iff.2 hf, flagged, ha, hcall⟩⟩
    · cases h

/-! ### Bound methods -/

omit hσ hs

theorem boundMethod_boundTo {f : Function} {i : InstanceId} {k : FunctionId}
    (h : boundMethod f i σ m = .ok (.function k) m') : m'.heap.BoundTo k i := by
  cases h
  refine ⟨⟨f.declaration, m.heap.scopes.size, f.isInitializer⟩, Array.getElem?_push_size, ?_⟩
  exact Scopes.lookup?_add_size ..

/-- What is read from an instance and is not in a field is bound to the instance. -/
theorem getProperty_boundTo {i : InstanceId} {o : Instance} {name : Token} {k : FunctionId}
    (ho : m.heap.instances[i]? = some o) (hfield : o.fields.get? name.lexeme = none)
    (h : getProperty (.instance i) name σ m = .ok (.function k) m') : m'.heap.BoundTo k i := by
  simp only [getProperty, heap_bind, ho, hfield] at h
  cases hf : m.heap.findMethod? o.ofClass name.lexeme with
  | none => simp only [hf] at h; cases h
  | some f => simp only [hf] at h; exact boundMethod_boundTo h

/-- A method of `super` is bound to the instance in the scope below. -/
theorem superMethod_boundTo {node : NodeId} {keyword method : Token} {distance : Nat}
    {i : InstanceId} {k : FunctionId} (hd : σ.distances[node]? = some distance)
    (hthis : m.heap.scopes.getAt m.cursor (distance - 1) "this" = .ok (.instance i))
    (h : superMethod node keyword method σ m = .ok (.function k) m') : m'.heap.BoundTo k i := by
  simp only [superMethod, read_bind, hd] at h
  rw [bind_run, getAt_run] at h
  cases hsuper : m.heap.scopes.getAt m.cursor distance keyword.lexeme with
  | error fault => rw [hsuper] at h; cases h
  | ok v =>
    rw [hsuper] at h
    dsimp only [settled] at h
    rw [bind_run, getAt_run, hthis] at h
    dsimp only [settled] at h
    cases v with
    | «class» c =>
      simp only [heap_bind] at h
      cases hf : m.heap.findMethod? c method.lexeme with
      | none => simp only [hf] at h; cases h
      | some f => simp only [hf] at h; exact boundMethod_boundTo h
    | _ => cases h

end Machines

end Eval

end Treewalk
