import Treewalk.Proofs.Evaluation.Mirror
import Treewalk.Proofs.Resolution.Table
/-!
# What references find

Where the scopes mirror those of the walk, a reference with a distance never leaves the chain
(`getAt_of_ready`). In accepted programs it moreover finds its name (`variable_found`), `this` is an
instance (`this_found`) and `super` a class with such an instance next to it (`super_found`). An
assignment finds its variable except in the variable's own initializer (`assign_found_iff`).
-/

namespace Treewalk

/-- The table has the distances of the programs, which are accepted under `checked`. -/
structure Distances.Suits (programs : List (List Stmt)) (checked : Prop) (d : Distances) : Prop where
  agrees : d.Agrees programs
  accepted : checked → ∀ p ∈ programs, Accepted p

namespace Scopes

variable {s : Scopes} {i j : ScopeId} {k : Nat} {x : String}

theorem getAt_eq_read (h : s.up? k i = some j) (x : String) : s.getAt i k x = s.read j x := by
  simp only [getAt, ancestor, h]; rfl

theorem read_eq_ok {v : Value} (h : s.lookup? j x = some v) : s.read j x = .ok v := by
  rw [read, h]

theorem read_error {fault : RuntimeFault} (h : s.read j x = .error fault) :
    fault = .undefinedVariable x := by
  unfold read at h
  split at h
  · cases h
  · exact (Except.error.inj h).symm

theorem findAt_error (hu : s.up? k i = some j) {fault : RuntimeFault}
    (h : s.findAt i k x = .error fault) : fault = .undefinedVariable x := by
  simp only [findAt, ancestor, hu, Bind.bind, Except.bind] at h
  split at h
  · cases h
  · exact (Except.error.inj h).symm

theorem find_error {fault : RuntimeFault} (h : s.find i x = .error fault) :
    fault = .undefinedVariable x := by
  unfold find at h
  split at h
  · cases h
  · exact (Except.error.inj h).symm

theorem get_error {fault : RuntimeFault} (h : s.get i x = .error fault) :
    fault = .undefinedVariable x := by
  unfold get at h
  cases hf : s.find i x with
  | error e => rw [hf] at h; cases h; exact find_error hf
  | ok j => rw [hf] at h; exact read_error h

/-- An expression is about to be evaluated in scope `c`. In front of a superclass, the class's own
name is not bound yet. -/
def Ready (checked : Prop) (s : Scopes) (e : Expr) (scopes : List (Bindings Bool)) (c : ScopeId) :
    Prop :=
  s.Control checked scopes c ∨
    ∃ node name x before, e = .variable node name ∧ name.lexeme ≠ x ∧
      scopes = Resolver.defining x before ∧ s.Control checked before c

variable {checked : Prop} {e : Expr} {scopes : List (Bindings Bool)} {c : ScopeId}

theorem Ready.up?_length (h : s.Ready checked e scopes c) :
    s.up? scopes.length c = some Heap.globals := by
  rcases h with h | ⟨_, _, x, before, -, -, rfl, h⟩
  · exact h.fits.up?_length
  · rw [Resolver.length_defining]; exact h.fits.up?_length

theorem Ready.up? (h : s.Ready checked e scopes c) {k : Nat} (hk : k < scopes.length) :
    ∃ j, s.up? k c = some j := by
  rcases h with h | ⟨_, _, x, before, -, -, rfl, h⟩
  · exact h.fits.up? hk
  · rw [Resolver.length_defining] at hk; exact h.fits.up? hk

/-- Only a name can be in front of the scope of its class. -/
theorem Ready.control (h : s.Ready checked e scopes c) (he : ∀ node name, e ≠ .variable node name) :
    s.Control checked scopes c := by
  rcases h with h | ⟨node, name, _, _, rfl, -⟩
  · exact h
  · exact absurd rfl (he node name)

end Scopes

/-! ### The scopes that have a name -/

theorem Bindings.contains_set_of_ne {b : Bindings Bool} {x y : String} (h : x ≠ y) (v : Bool) :
    (b.set x v).contains y = b.contains y := by
  rw [contains, get?_set, if_neg h, contains]

section Scopes

variable {outer : List (Bindings Bool)} {b : Bindings Bool} {x y : String}

theorem findIdx?_of_contains (h : b.contains x = true) :
    (b :: outer).findIdx? (·.contains x) = some 0 := by
  rw [List.findIdx?_cons, h, if_pos rfl]

theorem findIdx?_of_not_contains (h : b.contains x = false) :
    (b :: outer).findIdx? (·.contains x) = (outer.findIdx? (·.contains x)).map (· + 1) := by
  rw [List.findIdx?_cons, h, if_neg (by simp)]

theorem findIdx?_set_of_ne (h : x ≠ y) (v : Bool) :
    (b.set x v :: outer).findIdx? (·.contains y) = (b :: outer).findIdx? (·.contains y) := by
  rw [List.findIdx?_cons, List.findIdx?_cons, Bindings.contains_set_of_ne h]

end Scopes

namespace Resolver

variable {r : Resolver} {x : String} {k : Nat}

theorem distance?_lt (h : r.distance? x = some k) : k < r.scopes.length :=
  (List.findIdx?_eq_some_iff_getElem.1 h).1

theorem distance?_get (h : r.distance? x = some k) :
    ∃ b, r.scopes[k]? = some b ∧ ∃ f, b.get? x = some f := by
  obtain ⟨hlt, hc, -⟩ := List.findIdx?_eq_some_iff_getElem.1 h
  exact ⟨_, List.getElem?_eq_getElem hlt, Option.isSome_iff_exists.1 hc⟩

theorem distance?_of_innermost {f : Bool} (h : r.innermost? x = some f) : r.distance? x = some 0 := by
  obtain ⟨b, hb, hx⟩ := Option.bind_eq_some_iff.1 h
  obtain ⟨outer, hs⟩ := List.head?_eq_some_iff.1 hb
  have : b.contains x = true := by rw [Bindings.contains, hx]; rfl
  simp [distance?, hs, List.findIdx?_cons, this]

end Resolver

/-- Outside its own initializer, a name is defined where it is found. -/
theorem Visits.defined {programs : List (List Stmt)} {e : Expr} {r : Resolver} {x : String} {k : Nat}
    (h : Visits programs (.expr e r)) (hk : r.distance? x = some k)
    (hx : r.innermost? x ≠ some false) : ∃ b, r.scopes[k]? = some b ∧ b.get? x = some true := by
  obtain ⟨b, hb, f, hf⟩ := Resolver.distance?_get hk
  refine ⟨b, hb, ?_⟩
  cases f with
  | true => exact hf
  | false =>
    exfalso
    cases k with
    | zero =>
      refine hx ?_
      rw [Resolver.innermost?, List.head?_eq_getElem?, hb]
      exact hf
    | succ k =>
      have hmem : b ∈ r.scopes.tail :=
        List.mem_of_getElem? (i := k) (by rw [List.getElem?_tail]; exact hb)
      exact h.settled b hmem x hf

/-- The walk is in the initializer of the variable that the expression assigns to, where the variable
is declared and not yet defined. -/
def Expr.InOwnInitializer (programs : List (List Stmt)) (e : Expr) : Prop :=
  ∃ node name value r, e = .assign node name value ∧ Visits programs (.expr e r) ∧
    r.innermost? name.lexeme = some false

/-! ### In accepted programs -/

section Accepted

variable {programs : List (List Stmt)} {d : Distances} {node : NodeId} {name : Token}
  {r : Resolver} {s : Scopes} {c : ScopeId} {k : Nat}

/-- The name of an expression is bound where the walk has it as defined. -/
theorem Scopes.Ready.bound {scopes : List (Bindings Bool)} {b : Bindings Bool}
    (h : s.Ready True (.variable node name) scopes c) (hk : scopes[k]? = some b)
    (hx : b.get? name.lexeme = some true) :
    ∃ j, s.up? k c = some j ∧ (s.lookup? j name.lexeme).isSome := by
  rcases h with h | ⟨_, _, x, before, he, hne, rfl, h⟩
  · exact h.fits.bound trivial hk hx
  obtain ⟨-, rfl⟩ := Expr.variable.inj he
  match before, k, hk with
  | b' :: _, 0, rfl =>
    refine h.fits.bound (k := 0) trivial rfl ?_
    rw [Bindings.get?_set, if_neg (Ne.symm hne)] at hx
    exact hx
  | _ :: _, k + 1, hk => exact h.fits.bound (k := k + 1) trivial hk hx

variable (hd : d.Suits programs True)
include hd

/-- A variable is never read in its own initializer. -/
theorem variable_resolved (hv : Visits programs (.expr (.variable node name) r)) :
    d[node]? = r.distance? name.lexeme ∧ r.innermost? name.lexeme ≠ some false := by
  refine ⟨hd.agrees hv List.mem_cons_self, fun hfalse => ?_⟩
  have := hv.errors_eq_nil (hd.accepted trivial)
  simp [Call.result, Resolver.expr, Resolver.errorIf, hfalse, Resolver.refer,
    Resolver.error] at this

/-- `this` is in a class. -/
theorem this_resolved (hv : Visits programs (.expr (.this node name) r)) :
    name.lexeme = "this" ∧ ∃ k, d[node]? = some k ∧ r.distance? "this" = some k ∧
      r.scopes[k]? = some [("this", true)] := by
  have hacc := hd.accepted trivial
  have hf : (Expr.this node name).Formed Token.Spelled := hv.formed fun p hp => (hacc p hp).formed
  simp only [Expr.Formed] at hf
  have hthis : name.lexeme = "this" := hf.1.1 _ hf.2
  have hin : r.inClass ≠ .none := by
    intro hnone
    have := hv.errors_eq_nil hacc
    simp [Call.result, Resolver.expr, Resolver.this, hnone, Resolver.error] at this
  have henc : Enclosed r.inClass r.scopes := by
    rcases hv.placed fun p hp => (hacc p hp).formed with ⟨_, _, he⟩ | hi
    · cases he
    · exact hi.enclosed.resolve_left hin
  obtain ⟨k, hk, hb, -⟩ := henc.findIdx?
  refine ⟨hthis, k, ?_, hk, hb⟩
  rw [hd.agrees hv List.mem_cons_self]
  simp [Expr.reference?, hin, Resolver.distance?, hthis, hk]

/-- `super` is in a class with a superclass, whose `this` is one scope below. -/
theorem super_resolved {method : Token} (hv : Visits programs (.expr (.super node name method) r)) :
    name.lexeme = "super" ∧ ∃ k, d[node]? = some (k + 1) ∧
      r.distance? "super" = some (k + 1) ∧ r.scopes[k + 1]? = some [("super", true)] ∧
      r.distance? "this" = some k ∧ r.scopes[k]? = some [("this", true)] := by
  have hacc := hd.accepted trivial
  have hf : (Expr.super node name method).Formed Token.Spelled :=
    hv.formed fun p hp => (hacc p hp).formed
  simp only [Expr.Formed] at hf
  have hsuper : name.lexeme = "super" := hf.1.1.1 _ hf.1.2
  have hin : r.inClass = .derived := by
    have := hv.errors_eq_nil hacc
    cases hc : r.inClass with
    | derived => rfl
    | none | plain =>
      simp [Call.result, Resolver.expr, Resolver.super, hc, Resolver.error] at this
  have henc : Enclosed r.inClass r.scopes := by
    rcases hv.placed fun p hp => (hacc p hp).formed with ⟨_, _, he⟩ | hi
    · cases he
    · exact hi.enclosed.resolve_left (by rw [hin]; simp)
  obtain ⟨k, hthis, hbthis, hk⟩ := henc.findIdx?
  obtain ⟨hk, hb⟩ := hk hin
  refine ⟨hsuper, k, ?_, hk, hb, hthis, hbthis⟩
  rw [hd.agrees hv List.mem_cons_self]
  simp [Expr.reference?, hin, Resolver.distance?, hsuper, hk]

/-- A variable with a distance is found there. -/
theorem variable_found (hv : Visits programs (.expr (.variable node name) r))
    (hr : s.Ready True (.variable node name) r.scopes c) (hk : d[node]? = some k) :
    ∃ v, s.getAt c k name.lexeme = .ok v := by
  obtain ⟨hdist, hown⟩ := variable_resolved hd hv
  obtain ⟨b, hb, hx⟩ := hv.defined (hdist.symm.trans hk) hown
  obtain ⟨j, hj, hbound⟩ := hr.bound hb hx
  obtain ⟨v, hv⟩ := Option.isSome_iff_exists.1 hbound
  exact ⟨v, by rw [Scopes.getAt_eq_read hj, Scopes.read_eq_ok hv]⟩

/-- An assignment finds its variable except in the variable's own initializer. -/
theorem assign_found_iff {value : Expr} (hv : Visits programs (.expr (.assign node name value) r))
    (hr : s.Control True r.scopes c) (hk : d[node]? = some k) :
    (∃ j, s.findAt c k name.lexeme = .ok j) ↔ r.innermost? name.lexeme ≠ some false := by
  have hdist : r.distance? name.lexeme = some k := by
    rw [hd.agrees hv List.mem_cons_self] at hk; exact hk
  constructor
  · rintro ⟨j, hj⟩ hfalse
    obtain ⟨hup, hbound⟩ := Scopes.findAt_eq_ok.1 hj
    obtain rfl : k = 0 := Option.some.inj (hdist.symm.trans (Resolver.distance?_of_innermost hfalse))
    obtain rfl : c = j := Option.some.inj hup
    obtain ⟨b, hb, hx⟩ := Option.bind_eq_some_iff.1 hfalse
    obtain ⟨outer, hs⟩ := List.head?_eq_some_iff.1 hb
    have := hr.exact trivial hs hbound
    rw [hx] at this; cases this
  · intro hown
    obtain ⟨b, hb, hx⟩ := hv.defined hdist hown
    obtain ⟨j, hj, hbound⟩ := hr.fits.bound trivial hb hx
    exact ⟨j, Scopes.findAt_eq_ok.2 ⟨hj, hbound⟩⟩

variable {h : Heap} (hs : h.Sound programs True)
include hs

/-- `this` has a distance and is an instance. -/
theorem this_found (hv : Visits programs (.expr (.this node name) r))
    (hr : h.scopes.Control True r.scopes c) :
    ∃ k i, d[node]? = some k ∧ h.scopes.getAt c k name.lexeme = .ok (.instance i) := by
  obtain ⟨hthis, k, hk, -, hb⟩ := this_resolved hd hv
  obtain ⟨j, hj, hbound⟩ := hr.fits.bound trivial hb (x := "this") rfl
  obtain ⟨v, hv'⟩ := Option.isSome_iff_exists.1 hbound
  obtain ⟨i, rfl⟩ := hs.this trivial hv'
  exact ⟨k, i, hk, by rw [hthis, Scopes.getAt_eq_read hj, Scopes.read_eq_ok hv']⟩

/-- `super` has a distance and is a class, and one scope below `this` is an instance. -/
theorem super_found {method : Token} (hv : Visits programs (.expr (.super node name method) r))
    (hr : h.scopes.Control True r.scopes c) :
    ∃ k superclass i, d[node]? = some (k + 1) ∧
      h.scopes.getAt c (k + 1) name.lexeme = .ok (.class superclass) ∧
      h.scopes.getAt c k "this" = .ok (.instance i) := by
  obtain ⟨hsuper, k, hk, -, hb, -, hbthis⟩ := super_resolved hd hv
  obtain ⟨j, hj, hbound⟩ := hr.fits.bound trivial hb (x := "super") rfl
  obtain ⟨v, hv'⟩ := Option.isSome_iff_exists.1 hbound
  obtain ⟨superclass, rfl⟩ := hs.super trivial hv'
  obtain ⟨j', hj', hbound'⟩ := hr.fits.bound trivial hbthis (x := "this") rfl
  obtain ⟨w, hw⟩ := Option.isSome_iff_exists.1 hbound'
  obtain ⟨i, rfl⟩ := hs.this trivial hw
  refine ⟨k, superclass, i, hk, ?_, ?_⟩
  · rw [hsuper, Scopes.getAt_eq_read hj, Scopes.read_eq_ok hv']
  · rw [Scopes.getAt_eq_read hj', Scopes.read_eq_ok hw]

end Accepted

end Treewalk
