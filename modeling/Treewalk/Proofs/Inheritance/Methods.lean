import Treewalk.Proofs.Inheritance.Calls
/-!
# Methods by declaration

A method that is bound to an instance has the instance and its class for its home (`housed_bind`).
So the method that is found for a property, for `super` and as an initializer is the one that the
declarations say (`inherited_follows`), and within it `this` and `super` are what they say
(`this_follows`, `superMethod_follows`).
-/

namespace Treewalk
namespace Inheritance

open Eval (Quiet StmtMirrored Frames)

variable {programs : List (List Stmt)} {σ : Setting} {t t' : State} {home : Option Home}
  {exec : Stmt → Eval Completion} {exec' : Option Home → Stmt → Action Completion} {h : Heap}
  {l : Ledger} {c : ClassId} {f : Function}

/-! ### Binding -/

theorem IsMethod.fitsUnbound (hm : IsMethod l c f) (hl : l.Holds programs h) :
    f.FitsUnbound programs True h.scopes := by
  obtain ⟨d, m, hd, hmem, rfl⟩ := hm
  obtain ⟨context, r, outer, hv, hr, hfit, -⟩ := (hl.declared hd).methods hmem
  exact ⟨context, r, outer, hv, hr, hfit⟩

theorem housed_bind (hm : IsMethod l c f) (hl : l.Holds programs h) (hsize : 0 < h.scopes.size)
    (i : InstanceId) :
    Housed programs (h.addScope [("this", .instance i)] f.closure) l
      { f with closure := h.scopes.size } (some ⟨c, i⟩) := by
  obtain ⟨d, m, hd, hmem, rfl⟩ := hm
  obtain ⟨context, r, outer, hv, hr, hfit, hsuper⟩ := (hl.declared hd).methods hmem
  refine ⟨context, r, hv, ?_, fun k hk => ?_, fun _ => by rw [hr]; rfl⟩
  · rw [hr]
    exact hfit.add hsize fun _ => Bindings.isSome_single "this" (.instance i)
  · rw [hr, findIdx?_of_contains rfl] at hk
    obtain rfl := Option.some.inj hk
    refine ⟨⟨c, i⟩, h.scopes.size, d, rfl, rfl, Scopes.lookup?_add_size .., hd,
      Scopes.parent?_add_size _ _ (hfit.lt_size hsize), fun hs => hsuper ?_⟩
    rwa [hr, List.getElem?_cons_succ, ← List.head?_eq_getElem?] at hs

theorem boundMethod_follows (hm : IsMethod t.ledger c f) (hl : t.ledger.Holds programs t.heap)
    (hsize : 0 < t.heap.scopes.size) (i : InstanceId) :
    Follows programs σ t (Eval.boundMethod f i) (boundMethod c f i) fun v t' => Made t'.heap v := by
  have hl₁ := hl.addSingle (made_instance i) "this" f.closure
  exact follows_of_run rfl rfl (hl₁.addFunction (housed_bind hm hl hsize i))
    ((Grows.addScope t.heap t.ledger ..).trans (.addFunction ..)) (made_function _)

/-- What a class finds under a name, bound to an instance. -/
theorem inherited_follows {x : Eval Value} {name : Token} {i : InstanceId}
    (hx : x σ t.toMachine = (t.heap.findMethod? c name.lexeme).elim
      (.error (.runtime ⟨name.line, .undefinedProperty name.lexeme⟩) t.toMachine)
      fun f => Eval.boundMethod f i σ t.toMachine)
    (hl : t.ledger.Holds programs t.heap) (hsize : 0 < t.heap.scopes.size) :
    Follows programs σ t x (inherited c i name) fun v t' => Made t'.heap v := by
  rw [hl.findMethod?_eq] at hx
  cases hn : t.ledger.nearest? c name.lexeme with
  | none =>
    rw [hn] at hx
    have hy : inherited c i name σ t = (Eval.fail name.line (.undefinedProperty name.lexeme) :
        Action Value) σ t := by
      unfold inherited
      rw [get_bind, hn]
    exact .of_eq hx hy (follows_throw hl)
  | some found =>
    obtain ⟨owner, f⟩ := found
    rw [hn] at hx
    have hy : inherited c i name σ t = boundMethod owner f i σ t := by
      unfold inherited
      rw [get_bind, hn]
    exact .of_eq hx hy (boundMethod_follows (isMethod_of_nearest? hn) hl hsize i)

/-! ### Properties -/

theorem getProperty_follows (v : Value) (name : Token) (hl : t.ledger.Holds programs t.heap)
    (hsize : 0 < t.heap.scopes.size) :
    Follows programs σ t (Eval.getProperty v name) (getProperty v name)
      fun v t' => Made t'.heap v := by
  unfold Eval.getProperty getProperty
  cases v with
  | «instance» i =>
    refine .of_eq (Eval.heap_bind ..) (get_bind ..) ?_
    cases ho : t.heap.instances[i]? with
    | none => exact follows_throw hl
    | some o =>
      dsimp only
      cases hf : o.fields.get? name.lexeme with
      | some field => exact follows_pure hl (hl.made.fields ho hf)
      | none =>
        refine inherited_follows ?_ hl hsize
        dsimp only
        cases t.heap.findMethod? o.ofClass name.lexeme <;> rfl
  | _ => exact follows_throw hl

section Home

variable (hσ : σ.distances.Suits programs True) {node : NodeId} {keyword : Token} {r : Resolver}
include hσ

/-- `this` is the instance of the home. -/
theorem this_follows (hv : Visits programs (.expr (.this node keyword) r))
    (hstand : Standing programs t home r.scopes) :
    Follows programs σ t (Eval.lookUp node keyword) (receiver home keyword.line)
      fun v t' => Made t'.heap v := by
  obtain ⟨hkeyword, k, hd, hk, -⟩ := this_resolved hσ hv
  obtain ⟨here, j, d, rfl, hj, hthis, -⟩ := hstand.home k hk
  have hfound : Eval.found σ t.toMachine node keyword = .ok (.instance here.receiver) := by
    unfold Eval.found
    rw [hd]
    dsimp only
    rw [hkeyword, Scopes.getAt_eq_read hj, Scopes.read_eq_ok hthis]
  have hx : Eval.lookUp node keyword σ t.toMachine =
      (pure (.instance here.receiver) : Eval Value) σ t.toMachine := by
    rw [Eval.lookUp_run, hfound]
    rfl
  have hy : receiver (some here) keyword.line σ t =
      (pure (.instance here.receiver) : Action Value) σ t := rfl
  exact .of_eq hx hy (follows_pure hstand.holds (made_instance _))

/-- `super` is the superclass that the home's class was declared with, whatever the class of the
home's instance has or inherits. -/
theorem superMethod_follows {method : Token}
    (hv : Visits programs (.expr (.super node keyword method) r))
    (hstand : Standing programs t home r.scopes) :
    Follows programs σ t (Eval.superMethod node keyword method) (superMethod home keyword method)
      fun v t' => Made t'.heap v := by
  have hl := hstand.holds
  obtain ⟨hkeyword, k, hd, -, hderived, hk, -⟩ := super_resolved hσ hv
  obtain ⟨here, j, d, rfl, hj, hthis, hdeclared, hp, hsuper⟩ := hstand.home k hk
  obtain ⟨s, hs⟩ := Option.isSome_iff_exists.1 (hsuper hderived)
  have hbound := ((hl.declared hdeclared).superclass hs).2
  have hget : t.heap.scopes.getAt t.cursor (k + 1) keyword.lexeme = .ok (.class s) := by
    rw [hkeyword, Scopes.getAt_eq_read (Scopes.up?_succ hj hp), Scopes.read_eq_ok hbound]
  have hget' : t.heap.scopes.getAt t.cursor k "this" = .ok (.instance here.receiver) := by
    rw [Scopes.getAt_eq_read hj, Scopes.read_eq_ok hthis]
  have hy : superMethod (some here) keyword method σ t = inherited s here.receiver method σ t := by
    unfold superMethod
    dsimp only
    rw [get_bind, hl.superclass?_declared hdeclared, hs]
  exact .of_eq rfl hy
    (inherited_follows (Eval.superMethod_run hd hget hget' method) hl hstand.sound.scopes)

end Home

/-! ### Calls of values -/

theorem checkArity_follows (hl : t.ledger.Holds programs t.heap) (expected got line : Nat) :
    Follows programs σ t (Eval.checkArity expected got line) (Eval.checkArity expected got line)
      fun _ t' => t' = t ∧ expected = got := by
  unfold Eval.checkArity
  split
  · next he => exact follows_pure hl ⟨rfl, he⟩
  · exact follows_throw hl

section Calls

variable (hσ : σ.distances.Suits programs True) (hs : StmtFollows programs σ exec exec')
  (hm : StmtMirrored programs True σ exec exec) (hfs : ∀ s, Frames True (exec s))
include hσ hs hm hfs

theorem instantiate_follows {arguments : List Value} (ha : t.ledger.arity c = arguments.length)
    (hargs : ∀ v ∈ arguments, Made t.heap v) (hsound : t.heap.Sound programs True)
    (hl : t.ledger.Holds programs t.heap) :
    Follows programs σ t (Eval.instantiate exec c arguments) (instantiate exec' c arguments)
      fun v t' => Made t'.heap v := by
  have hl₁ := hl.addInstance c
  have hsound₁ := hsound.addInstance c
  unfold Eval.instantiate instantiate
  refine .after (.addInstance t.heap t.ledger c) (Eval.newInstance_bind ..) (newInstance_bind ..)
    (.of_eq (Eval.heap_bind ..) (get_bind ..) ?_)
  rw [hl₁.findMethod?_eq]
  rw [Ledger.arity] at ha
  cases hn : t.ledger.nearest? c initializerName with
  | none => exact follows_pure hl₁ (made_instance _)
  | some found =>
    obtain ⟨owner, f⟩ := found
    rw [hn] at ha
    have hmethod := isMethod_of_nearest? hn
    have hhoused := housed_bind hmethod hl₁ hsound₁.scopes t.heap.instances.size
    obtain ⟨hsound₂, -⟩ := Eval.bind_fits (m := { t.toMachine with heap := t.heap.addInstance c })
      (hmethod.fitsUnbound hl₁) hsound₁ t.heap.instances.size
    have hl₂ := hl₁.addSingle (made_instance t.heap.instances.size) "this" f.closure
    refine .after (.addScope _ t.ledger _ _) (Eval.bindMethod_bind ..) (bindMethod_bind ..) ?_
    refine follows_bind (callFunction_follows hσ hs hm hfs hhoused ha hargs hsound₂ hl₂) ?_
    exact fun _ _ hlater _ => follows_pure hlater.holds (made_instance _)

theorem callValue_follows (callee : Value) {arguments : List Value} (line : Nat)
    (hargs : ∀ v ∈ arguments, Made t.heap v) (hsound : t.heap.Sound programs True)
    (hl : t.ledger.Holds programs t.heap) :
    Follows programs σ t (Eval.callValue exec callee arguments line)
      (callValue exec' callee arguments line) fun v t' => Made t'.heap v := by
  unfold Eval.callValue callValue
  cases callee with
  | native f =>
    refine follows_bind (checkArity_follows hl _ _ _) ?_
    rintro _ _ - ⟨rfl, -⟩
    cases f
    exact follows_onMachine rfl hl (.refl _ _) nofun
  | function i =>
    refine .of_eq (Eval.heap_bind ..) (get_bind ..) ?_
    cases hf : t.heap.functions[i]? with
    | none => exact follows_throw hl
    | some f =>
      obtain ⟨home, hhome⟩ := hl.exists_home hf
      rw [hhome]
      dsimp only
      refine follows_bind (checkArity_follows hl _ _ _) ?_
      rintro _ _ - ⟨rfl, ha⟩
      exact callFunction_follows hσ hs hm hfs (hl.housed hf hhome) ha hargs hsound hl
  | «class» c =>
    refine .of_eq (Eval.heap_bind ..) (get_bind ..) ?_
    rw [hl.classArity_eq]
    refine follows_bind (checkArity_follows hl _ _ _) ?_
    rintro _ _ - ⟨rfl, ha⟩
    exact instantiate_follows hσ hs hm hfs ha hargs hsound hl
  | _ => exact follows_throw hl

end Calls

end Inheritance
end Treewalk
