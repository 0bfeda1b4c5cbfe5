import Treewalk.Proofs.Evaluation.Nodes
import Treewalk.Proofs.Lexical.InStep
/-!
# Names in step

Where the machine's scopes mirror those of the walk and the list of local names fits them (`Standing`),
a reference with its distance and a look into the list find the same value (`lookUp_inStep`), assign
to the same variable (`assign_inStep`), and declaring a name keeps it so (`declare_inStep`). The one
exception is an assignment to a variable in the variable's own initializer.
-/

namespace Treewalk
namespace Lexical

open Eval (Quiet)

variable {programs : List (List Stmt)} {γ γ' : Plan} {m m' : Machine} {s : Store}
  {scopes : List (Bindings Bool)} {place : Place} {x : String}

/-- The machine and the store of evaluations in step. -/
structure Paired (programs : List (List Stmt)) (γ : Plan) (m : Machine) (s : Store) : Prop where
  linked : Linked programs γ m.heap s
  out : s.out = m.out
  readings : s.readings = m.readings

def Later (programs : List (List Stmt)) (γ : Plan) (m : Machine) (s : Store) : Prop :=
  ∃ γ', γ <+: γ' ∧ Paired programs γ' m s

theorem Paired.later (h : Paired programs γ m s) : Later programs γ m s :=
  ⟨γ, List.prefix_refl γ, h⟩

theorem Later.mono (h : Later programs γ' m s) (hγ : γ <+: γ') : Later programs γ m s := by
  obtain ⟨γ'', hγ', hp⟩ := h
  exact ⟨γ'', hγ.trans hγ', hp⟩

/-! ### Where control is -/

structure Place.Fits (γ : Plan) (s : Scopes) (scopes : List (Bindings Bool)) (c : ScopeId)
    (place : Place) : Prop where
  env : Env.Fits γ s scopes c place.env
  isLocal : place.isLocal = !scopes.isEmpty
  initializing : ∀ x, place.initializing = some x ↔ ¬ Past scopes x

theorem Place.Fits.extends {s s' : Scopes} {c : ScopeId} {gains : ScopeId → Prop}
    (h : place.Fits γ s scopes c) (he : s.Extends gains s') (hγ : γ <+: γ') :
    place.Fits γ' s' scopes c :=
  ⟨h.env.extends he hγ, h.isLocal, h.initializing⟩

/-- In statements there is no initializer. -/
theorem Place.Fits.of_allDefined {s : Scopes} {c : ScopeId} (h : AllDefined scopes)
    (henv : Env.Fits γ s scopes c place.env) (hl : place.isLocal = !scopes.isEmpty)
    (hi : place.initializing = none) : place.Fits γ s scopes c := by
  refine ⟨henv, hl, fun x => ⟨fun hx => ?_, fun hx => ?_⟩⟩
  · rw [hi] at hx; cases hx
  · exact absurd (past_of_allDefined h x) hx

theorem Place.Fits.initializing_eq_none {s : Scopes} {c : ScopeId} (h : place.Fits γ s scopes c)
    (hall : AllDefined scopes) : place.initializing = none := by
  cases hx : place.initializing with
  | none => rfl
  | some x => exact absurd (past_of_allDefined hall x) ((h.initializing x).1 hx)

structure Standing (γ : Plan) (m : Machine) (scopes : List (Bindings Bool)) (place : Place) :
    Prop where
  control : m.heap.scopes.Control True scopes m.cursor
  fits : place.Fits γ m.heap.scopes scopes m.cursor

/-- An expression is about to be evaluated. In front of a superclass, the class's own name is not
bound yet. -/
def Facing (γ : Plan) (m : Machine) (e : Expr) (scopes : List (Bindings Bool)) (place : Place) :
    Prop :=
  Standing γ m scopes place ∨
    ∃ node name x before, e = .variable node name ∧ name.lexeme ≠ x ∧
      scopes = Resolver.defining x before ∧ Standing γ m before place

theorem Standing.quiet (h : Standing γ m scopes place) (hq : Quiet programs True m m')
    (hγ : γ <+: γ') : Standing γ' m' scopes place := by
  refine ⟨hq.control h.control, ?_⟩
  rw [hq.cursor]
  exact h.fits.extends hq.extended.scopes hγ

theorem Facing.ready {e : Expr} (h : Facing γ m e scopes place) :
    m.heap.scopes.Ready True e scopes m.cursor := by
  rcases h with h | ⟨node, name, x, before, he, hne, hs, h⟩
  · exact .inl h.control
  · exact .inr ⟨node, name, x, before, he, hne, hs, h.control⟩

theorem Facing.standing {e : Expr} (h : Facing γ m e scopes place)
    (he : ∀ node name, e ≠ .variable node name) : Standing γ m scopes place := by
  rcases h with h | ⟨node, name, _, _, rfl, -⟩
  · exact h
  · exact absurd rfl (he node name)

/-! ### Reading -/

section Reading

variable {h : Heap} {c : ScopeId} {env : Env}

theorem Env.Fits.read?_local (hf : Env.Fits γ h.scopes scopes c env) (hs : Linked programs γ h s)
    (hx : Past scopes x) {k : Nat} (hk : scopes.findIdx? (·.contains x) = some k) :
    ∃ j, h.scopes.up? k c = some j ∧ s.read? env x = h.scopes.lookup? j x := by
  obtain ⟨j, l, hj, hl, hγ⟩ := hf.found hx hk
  refine ⟨j, hj, ?_⟩
  rw [Store.read?, hl]
  exact (hs.cells hγ).2.symm

theorem Env.Fits.read?_global (hf : Env.Fits γ h.scopes scopes c env) (hs : Linked programs γ h s)
    (hx : Past scopes x) (hk : scopes.findIdx? (·.contains x) = none) :
    s.read? env x = h.scopes.lookup? Heap.globals x := by
  rw [Store.read?, hf.absent hx hk]
  exact (hs.globals x).symm

end Reading

section References

variable {σ : Treewalk.Setting} {τ : Setting} {escape : Stop → Prop} {node : NodeId} {name : Token}
  {env : Env} {v : Value}

theorem lookUp_inStep (hp : Paired programs γ m s)
    (hf : Env.Fits γ m.heap.scopes scopes m.cursor env) (hx : Past scopes name.lexeme)
    (hd : σ.distances[node]? = scopes.findIdx? (·.contains name.lexeme)) :
    InStep σ τ escape m s (Eval.lookUp node name) (lookUp env name.lexeme name.line)
      fun v m' v' s' => v' = v ∧ m' = m ∧ s' = s := by
  have hread : ∃ j, Eval.found σ m node name = m.heap.scopes.read j name.lexeme ∧
      s.read? env name.lexeme = m.heap.scopes.lookup? j name.lexeme := by
    unfold Eval.found
    rw [hd]
    cases hk : scopes.findIdx? (·.contains name.lexeme) with
    | some k =>
      obtain ⟨j, hj, hr⟩ := hf.read?_local hp.linked hx hk
      exact ⟨j, Scopes.getAt_eq_read hj _, hr⟩
    | none => exact ⟨Heap.globals, Scopes.get_globals _ _, hf.read?_global hp.linked hx hk⟩
  obtain ⟨j, hfound, hr⟩ := hread
  unfold InStep
  rw [Eval.lookUp_run, lookUp_run, hfound, hr, Scopes.read]
  cases m.heap.scopes.lookup? j name.lexeme with
  | some v => exact .ok ⟨rfl, rfl, rfl⟩
  | none => exact .error hp.out

/-! ### Writing -/

theorem write?_inStep {j : ScopeId} {s' : Store}
    (hl : Eval.located σ m node name = .ok j) (hw : s.write? place.env name.lexeme v = some s')
    (hi : place.initializing ≠ some name.lexeme)
    (hp' : Paired programs γ { m with heap := m.heap.define j name.lexeme v } s') :
    InStep σ τ escape m s (Eval.assign node name v) (assign place name v)
      fun _ m' _ s' => Later programs γ m' s' := by
  unfold InStep Eval.assign
  rw [Eval.bind_run, Eval.locate_run, hl, assign_run, if_neg fun h => hi h.2, hw]
  exact .ok hp'.later

theorem assign_inStep (hp : Paired programs γ m s) (hs : Standing γ m scopes place)
    (hsize : 0 < m.heap.scopes.size)
    (hd : σ.distances[node]? = scopes.findIdx? (·.contains name.lexeme))
    (hesc : ¬ Past scopes name.lexeme → τ.strict = false →
      escape (.runtime ⟨name.line, .undefinedVariable name.lexeme⟩)) :
    InStep σ τ escape m s (Eval.assign node name v) (assign place name v)
      fun _ m' _ s' => Later programs γ m' s' := by
  by_cases hx : Past scopes name.lexeme
  · have hi : place.initializing ≠ some name.lexeme := fun h =>
      (hs.fits.initializing name.lexeme).1 h hx
    cases hk : scopes.findIdx? (·.contains name.lexeme) with
    | some k =>
      obtain ⟨j, l, hj, hl, hγ⟩ := hs.fits.env.found hx hk
      refine write?_inStep (j := j) ?_ (by rw [Store.write?, hl]) hi
        ⟨hp.linked.write_local hγ v, hp.out, hp.readings⟩
      unfold Eval.located
      rw [hd, hk]
      exact Scopes.findAt_eq_ok.2 ⟨hj, hp.linked.isSome_lookup? hγ⟩
    | none =>
      have hl : Eval.located σ m node name = m.heap.scopes.find Heap.globals name.lexeme := by
        unfold Eval.located
        rw [hd, hk]
      have henv := hs.fits.env.absent hx hk
      rw [Scopes.find_globals, hp.linked.globals] at hl
      by_cases hb : (s.globals.get? name.lexeme).isSome
      · rw [if_pos hb] at hl
        refine write?_inStep hl ?_ hi
          ⟨hp.linked.define_global hsize name.lexeme v, hp.out, hp.readings⟩
        rw [Store.write?, henv, Bindings.contains]
        exact if_pos hb
      · rw [if_neg hb] at hl
        have hw : s.write? place.env name.lexeme v = none := by
          rw [Store.write?, henv, Bindings.contains]
          exact if_neg hb
        unfold InStep Eval.assign
        rw [Eval.bind_run, Eval.locate_run, hl, assign_run, if_neg fun h => hi h.2, hw]
        exact .error hp.out
  · -- the scope that is executing has the name declared but does not bind it
    have hfalse : scopes.head?.bind (·.get? name.lexeme) = some false := by
      simpa [Past] using hx
    obtain ⟨b, hb, hget⟩ := Option.bind_eq_some_iff.1 hfalse
    obtain ⟨outer, rfl⟩ := List.head?_eq_some_iff.1 hb
    have hcontains : b.contains name.lexeme = true := by rw [Bindings.contains, hget]; rfl
    have hnone : ¬ (m.heap.scopes.lookup? m.cursor name.lexeme).isSome := fun hbound => by
      have := hs.control.exact trivial rfl hbound
      rw [hget] at this
      cases this
    have hl : Eval.located σ m node name = .error (.undefinedVariable name.lexeme) := by
      unfold Eval.located
      rw [hd, findIdx?_of_contains hcontains]
      show (if (m.heap.scopes.lookup? m.cursor name.lexeme).isSome then _ else _) = _
      rw [if_neg hnone]
    unfold InStep Eval.assign
    rw [Eval.bind_run, Eval.locate_run, hl, assign_run]
    cases hstrict : τ.strict with
    | true =>
      rw [if_pos ⟨rfl, (hs.fits.initializing _).2 hx⟩]
      exact .error hp.out
    | false => exact .escape (hesc hx hstrict)

/-! ### Declaring -/

/-- A scope that is executing does not bind what the walk does not have as defined. -/
theorem lookup?_eq_none_of_control (hc : m.heap.scopes.Control True scopes m.cursor)
    (hne : scopes ≠ []) (hx : scopes.head?.bind (·.get? x) ≠ some true) :
    m.heap.scopes.lookup? m.cursor x = none := by
  obtain ⟨b, outer, rfl⟩ := List.exists_cons_of_ne_nil hne
  by_contra hbound
  exact hx (hc.exact trivial rfl (Option.isSome_iff_ne_none.2 hbound))

theorem declare_inStep (hp : Paired programs γ m s) (hsize : 0 < m.heap.scopes.size)
    (hfits : m.heap.scopes.Fits True scopes m.cursor)
    (hplace : place.Fits γ m.heap.scopes scopes m.cursor) (hall : AllDefined scopes)
    (hfree : scopes ≠ [] → m.heap.scopes.lookup? m.cursor x = none) :
    InStep σ τ escape m s (Eval.define x v) (declare place x v) fun _ m' place' s' =>
      m' = { m with heap := m.heap.define m.cursor x v } ∧
      ∃ γ', γ <+: γ' ∧ Paired programs γ' m' s' ∧
        place'.Fits γ' m'.heap.scopes (Resolver.defining x scopes) m'.cursor := by
  have extended : m.heap.scopes.Extends (m.cursor = ·) (m.heap.scopes.define m.cursor x v) :=
    .define rfl _ x v
  have hi := hplace.initializing_eq_none hall
  unfold InStep
  rw [Eval.define_run]
  cases scopes with
  | nil =>
    have hglobal : m.cursor = Heap.globals := hfits
    rw [declare_global _ _ hplace.isLocal]
    refine .ok ⟨rfl, γ, List.prefix_refl γ, ⟨?_, hp.out, hp.readings⟩,
      hplace.extends extended (List.prefix_refl γ)⟩
    rw [hglobal]
    exact hp.linked.define_global hsize x v
  | cons b outer =>
    obtain ⟨⟨p, hparent, -⟩, -⟩ := hfits
    have hlt := Scopes.lt_size_of_parent? hparent
    have hne : m.cursor ≠ Heap.globals :=
      Nat.ne_of_gt (Nat.lt_of_le_of_lt (Nat.zero_le p) (Scopes.parent?_lt hparent))
    have hlinked := hp.linked.define_local hne hlt (hfree (by simp)) v
    rw [declare_local _ _ hplace.isLocal]
    refine .ok ⟨rfl, γ ++ [(m.cursor, x)], List.prefix_append .., ⟨hlinked, hp.out, hp.readings⟩,
      .of_allDefined (hall.defining x) ?_ hplace.isLocal hi⟩
    refine (hplace.env.extends extended (List.prefix_append ..)).define ?_
    rw [hp.linked.size, List.getElem?_append_right (Nat.le_refl _), Nat.sub_self]
    rfl

end References

end Lexical
end Treewalk
