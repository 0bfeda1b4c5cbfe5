import Treewalk.Proofs.Evaluation.References
import Treewalk.Proofs.Lexical.Evaluation
/-!
# Locations and scopes

A heap of scopes and a store of locations are linked by a plan, which says for each location the
scope and the name that it stands for (`Linked`). A list of local names fits a scope if every name
that the walk has in its scopes is listed next with the location that stands for it in the scope that
many links up (`Env.Fits`). Both survive whatever only extends the heap.
-/

namespace Treewalk

namespace Scopes

theorem parent?_globals (s : Scopes) : s.parent? Heap.globals = none := by
  cases hp : s.parent? Heap.globals with
  | none => rfl
  | some p => exact absurd (parent?_lt hp) (Nat.not_lt_zero p)

theorem find_globals (s : Scopes) (x : String) : s.find Heap.globals x =
    if (s.lookup? Heap.globals x).isSome then .ok Heap.globals
    else .error (.undefinedVariable x) := by
  have hn : s.nearest? Heap.globals x =
      if (s.lookup? Heap.globals x).isSome then some Heap.globals else none := by
    rw [nearest?]
    split
    · rfl
    · split
      · next hp => rw [parent?_globals] at hp; cases hp
      · rfl
  rw [find, hn]
  by_cases hx : (s.lookup? Heap.globals x).isSome
  · rw [if_pos hx, if_pos hx]
  · rw [if_neg hx, if_neg hx]

theorem get_globals (s : Scopes) (x : String) : s.get Heap.globals x = s.read Heap.globals x := by
  rw [get, find_globals]
  split
  · rfl
  · next h =>
    have hnone : s.lookup? Heap.globals x = none := by simpa using h
    rw [read, hnone]; rfl

end Scopes

namespace Lexical

/-- The scope and the name that each location stands for. -/
abbrev Plan := List (ScopeId × String)

/-! ### Local names -/

/-- The walk is not in the initializer of the name. -/
def Past (scopes : List (Bindings Bool)) (x : String) : Prop :=
  scopes.head?.bind (·.get? x) ≠ some false

theorem past_of_allDefined {scopes : List (Bindings Bool)} (h : AllDefined scopes) (x : String) :
    Past scopes x := by
  intro hx
  obtain ⟨b, hb, hfalse⟩ := Option.bind_eq_some_iff.1 hx
  exact h b (List.mem_of_mem_head? hb) x hfalse

section Scopes

variable {scopes outer : List (Bindings Bool)} {b : Bindings Bool} {x y : String}

theorem past_set_of_ne (h : x ≠ y) (v : Bool) :
    Past (b.set x v :: outer) y ↔ Past (b :: outer) y := by
  show (b.set x v).get? y ≠ some false ↔ b.get? y ≠ some false
  rw [Bindings.get?_set, if_neg h]

end Scopes

/-- The local names are those of the walk's scopes, each at the location of its nearest scope. -/
structure Env.Fits (γ : Plan) (s : Scopes) (scopes : List (Bindings Bool)) (c : ScopeId)
    (env : Env) : Prop where
  found : ∀ {x k}, Past scopes x → scopes.findIdx? (·.contains x) = some k →
    ∃ j l, s.up? k c = some j ∧ env.lookup x = some l ∧ γ[l]? = some (j, x)
  absent : ∀ {x}, Past scopes x → scopes.findIdx? (·.contains x) = none → env.lookup x = none

section Env.Fits

variable {γ γ' : Plan} {s s' : Scopes} {scopes outer : List (Bindings Bool)} {b : Bindings Bool}
  {c c' : ScopeId} {env env' : Env} {gains : ScopeId → Prop}

theorem getElem?_of_grown {l : Location} {p : ScopeId × String} (hγ : γ <+: γ')
    (h : γ[l]? = some p) : γ'[l]? = some p := by
  obtain ⟨δ, rfl⟩ := hγ
  obtain ⟨hlt, -⟩ := List.getElem?_eq_some_iff.1 h
  rw [List.getElem?_append_left hlt, h]

theorem Env.Fits.extends (h : Env.Fits γ s scopes c env) (he : s.Extends gains s')
    (hγ : γ <+: γ') : Env.Fits γ' s' scopes c env where
  found hx hk := by
    obtain ⟨j, l, hj, hl, hp⟩ := h.found hx hk
    exact ⟨j, l, he.up? hj, hl, getElem?_of_grown hγ hp⟩
  absent := h.absent

theorem Env.fits_nil (γ : Plan) (s : Scopes) : Env.Fits γ s [] Heap.globals [] where
  found _ hk := by cases hk
  absent _ _ := rfl

/-- An inner scope, whose names are put in front. -/
theorem Env.Fits.cons (h : Env.Fits γ s outer c env) (ho : AllDefined outer)
    (hp : s.parent? c' = some c)
    (hin : ∀ x, b.contains x = true → ∃ l, env'.lookup x = some l ∧ γ[l]? = some (c', x))
    (hout : ∀ x, b.contains x = false → env'.lookup x = env.lookup x) :
    Env.Fits γ s (b :: outer) c' env' := by
  constructor
  · intro x k _ hk
    cases hb : b.contains x with
    | true =>
      obtain ⟨l, hl, hγ⟩ := hin x hb
      obtain rfl := Option.some.inj ((findIdx?_of_contains hb).symm.trans hk)
      exact ⟨c', l, rfl, hl, hγ⟩
    | false =>
      rw [findIdx?_of_not_contains hb] at hk
      obtain ⟨i, hi, rfl⟩ := Option.map_eq_some_iff.1 hk
      obtain ⟨j, l, hj, hl, hγ⟩ := h.found (past_of_allDefined ho x) hi
      refine ⟨j, l, ?_, (hout x hb).trans hl, hγ⟩
      rw [Scopes.up?, hp]
      exact hj
  · intro x _ hk
    cases hb : b.contains x with
    | true => cases (findIdx?_of_contains hb).symm.trans hk
    | false =>
      rw [findIdx?_of_not_contains hb, Option.map_eq_none_iff] at hk
      exact (hout x hb).trans (h.absent (past_of_allDefined ho x) hk)

/-- Behind a declaration, the name stands for its location in the scope that is executing. -/
theorem Env.Fits.define (h : Env.Fits γ s (b :: outer) c env) {x : String} {l : Location}
    (hl : γ[l]? = some (c, x)) : Env.Fits γ s (b.set x true :: outer) c ((x, l) :: env) := by
  have hx : (b.set x true).contains x = true := by
    rw [Bindings.contains, Bindings.get?_set, if_pos rfl]; rfl
  have skip {y : String} (hy : x ≠ y) : List.lookup y ((x, l) :: env) = env.lookup y := by
    rw [List.lookup_cons, show (y == x) = false by simpa using Ne.symm hy]
  constructor
  · intro y k hpast hk
    by_cases hy : x = y
    · subst hy
      obtain rfl := Option.some.inj ((findIdx?_of_contains hx).symm.trans hk)
      exact ⟨c, l, rfl, by simp, hl⟩
    · rw [findIdx?_set_of_ne hy] at hk
      obtain ⟨j, l', hj, hl', hγ⟩ := h.found ((past_set_of_ne hy true).1 hpast) hk
      exact ⟨j, l', hj, (skip hy).trans hl', hγ⟩
  · intro y hpast hk
    by_cases hy : x = y
    · subst hy
      cases (findIdx?_of_contains hx).symm.trans hk
    · rw [findIdx?_set_of_ne hy] at hk
      exact (skip hy).trans (h.absent ((past_set_of_ne hy true).1 hpast) hk)

/-- In front of its initializer, a name is declared but not yet listed. -/
theorem Env.Fits.declare (h : Env.Fits γ s (b :: outer) c env) (x : String) :
    Env.Fits γ s (b.set x false :: outer) c env := by
  have other {y : String} (hpast : Past (b.set x false :: outer) y) : x ≠ y := by
    rintro rfl
    refine hpast ?_
    show (b.set x false).get? x = some false
    rw [Bindings.get?_set, if_pos rfl]
  constructor
  · intro y k hpast hk
    have hy := other hpast
    rw [findIdx?_set_of_ne hy] at hk
    exact h.found ((past_set_of_ne hy false).1 hpast) hk
  · intro y hpast hk
    have hy := other hpast
    rw [findIdx?_set_of_ne hy] at hk
    exact h.absent ((past_set_of_ne hy false).1 hpast) hk

end Env.Fits

/-! ### Objects -/

section Alike

variable {α β : Type} {R R' : α → β → Prop} {a : Array α} {b : Array β}

/-- Arrays of the same size with related elements. -/
structure Alike (R : α → β → Prop) (a : Array α) (b : Array β) : Prop where
  size : b.size = a.size
  rel : ∀ i : Nat, Option.Rel R a[i]? b[i]?

theorem rel_mono {x : Option α} {y : Option β} (h : Option.Rel R x y)
    (hR : ∀ a b, R a b → R' a b) : Option.Rel R' x y := by
  cases h with
  | some h => exact .some (hR _ _ h)
  | none => exact .none

theorem rel_cases {x : Option α} {y : Option β} (h : Option.Rel R x y) :
    x = none ∧ y = none ∨ ∃ a b, x = some a ∧ y = some b ∧ R a b := by
  cases h with
  | some h => exact .inr ⟨_, _, rfl, rfl, h⟩
  | none => exact .inl ⟨rfl, rfl⟩

theorem alike_empty (R : α → β → Prop) : Alike R #[] #[] :=
  ⟨rfl, fun _ => .none⟩

theorem Alike.mono (h : Alike R a b) (hR : ∀ a b, R a b → R' a b) : Alike R' a b :=
  ⟨h.size, fun i => rel_mono (h.rel i) hR⟩

theorem Alike.push (h : Alike R a b) {x : α} {y : β} (hxy : R x y) :
    Alike R (a.push x) (b.push y) := by
  refine ⟨by rw [Array.size_push, Array.size_push, h.size], fun i => ?_⟩
  rw [Array.getElem?_push, Array.getElem?_push, h.size]
  split
  · exact .some hxy
  · exact h.rel i

end Alike

/-- Both close over the same body, which was walked in scopes that the closures fit. -/
def Function.Follows (programs : List (List Stmt)) (γ : Plan) (s : Scopes) (f : Function)
    (g : Closure) : Prop :=
  g.declaration = f.declaration ∧ g.isInitializer = f.isInitializer ∧
    ∃ context r, Visits programs (.function f.declaration context r) ∧
      s.Fits True r.scopes f.closure ∧
      (f.isInitializer = true → r.scopes.head? = some [("this", true)]) ∧
      Env.Fits γ s r.scopes f.closure g.env

/-- Methods that will do so when `this` is added. -/
def Function.FollowsUnbound (programs : List (List Stmt)) (γ : Plan) (s : Scopes) (f : Function)
    (g : Closure) : Prop :=
  g.declaration = f.declaration ∧ g.isInitializer = f.isInitializer ∧
    ∃ context r outer, Visits programs (.function f.declaration context r) ∧
      r.scopes = [("this", true)] :: outer ∧ s.Fits True outer f.closure ∧
      Env.Fits γ s outer f.closure g.env

structure Class.Follows (programs : List (List Stmt)) (γ : Plan) (s : Scopes) (k : Treewalk.Class)
    (k' : Class) : Prop where
  name : k'.name = k.name
  superclass : k'.superclass = k.superclass
  methods : ∀ x, Option.Rel (Function.FollowsUnbound programs γ s) (k.methods.get? x)
    (k'.methods.get? x)

/-- Every location holds what its name is bound to in its scope, and everything else is the same. -/
structure Linked (programs : List (List Stmt)) (γ : Plan) (h : Heap) (s : Store) : Prop where
  nodup : γ.Nodup
  size : s.cells.size = γ.length
  cells : ∀ {l : Location} {j x}, γ[l]? = some (j, x) →
    j ≠ Heap.globals ∧ h.scopes.lookup? j x = s.cells[l]?
  globals : ∀ x, h.scopes.lookup? Heap.globals x = s.globals.get? x
  functions : Alike (Function.Follows programs γ h.scopes) h.functions s.functions
  classes : Alike (Class.Follows programs γ h.scopes) h.classes s.classes
  instances : s.instances = h.instances

section Extending

variable {programs : List (List Stmt)} {γ γ' : Plan} {s s' : Scopes} {gains : ScopeId → Prop}
  {f : Function} {g : Closure}

theorem Function.Follows.extends (h : Function.Follows programs γ s f g)
    (he : s.Extends gains s') (hγ : γ <+: γ') : Function.Follows programs γ' s' f g := by
  obtain ⟨hd, hi, context, r, hv, hf, hthis, henv⟩ := h
  exact ⟨hd, hi, context, r, hv, hf.extends he, hthis, henv.extends he hγ⟩

theorem Function.FollowsUnbound.extends (h : Function.FollowsUnbound programs γ s f g)
    (he : s.Extends gains s') (hγ : γ <+: γ') : Function.FollowsUnbound programs γ' s' f g := by
  obtain ⟨hd, hi, context, r, outer, hv, hs, hf, henv⟩ := h
  exact ⟨hd, hi, context, r, outer, hv, hs, hf.extends he, henv.extends he hγ⟩

theorem Class.Follows.extends {k : Treewalk.Class} {k' : Class}
    (h : Class.Follows programs γ s k k') (he : s.Extends gains s') (hγ : γ <+: γ') :
    Class.Follows programs γ' s' k k' :=
  ⟨h.name, h.superclass, fun x => rel_mono (h.methods x) fun _ _ hf => hf.extends he hγ⟩

end Extending

namespace Linked

variable {programs : List (List Stmt)} {γ γ' : Plan} {h : Heap} {s : Store}

theorem initial (programs : List (List Stmt)) (out : Sink) :
    Linked programs [] Heap.initial (.initial out) where
  nodup := List.nodup_nil
  size := rfl
  cells hl := by cases hl
  globals x := by
    rw [Heap.initial, Scopes.lookup?_add]; rfl
  functions := alike_empty _
  classes := alike_empty _
  instances := rfl

/-! ### What is found -/

theorem lt_size {l : Location} {j : ScopeId} {x : String} (hs : Linked programs γ h s)
    (hl : γ[l]? = some (j, x)) : l < s.cells.size := by
  rw [hs.size]
  exact (List.getElem?_eq_some_iff.1 hl).1

theorem isSome_lookup? {l : Location} {j : ScopeId} {x : String} (hs : Linked programs γ h s)
    (hl : γ[l]? = some (j, x)) : (h.scopes.lookup? j x).isSome := by
  rw [(hs.cells hl).2, Array.getElem?_eq_getElem (hs.lt_size hl)]
  rfl

theorem superclass?_eq (hs : Linked programs γ h s) (c : ClassId) :
    s.superclass? c = h.superclass? c := by
  rw [Store.superclass?, Heap.superclass?]
  rcases rel_cases (hs.classes.rel c) with ⟨hk, hk'⟩ | ⟨k, k', hk, hk', hkk⟩
  · rw [hk, hk']; rfl
  · rw [hk, hk', Option.bind_some, Option.bind_some, hkk.superclass]

theorem findMethod? (hs : Linked programs γ h s) (c : ClassId) (x : String) :
    Option.Rel (Function.FollowsUnbound programs γ h.scopes) (h.findMethod? c x)
      (s.findMethod? c x) := by
  induction c using Nat.strongRecOn with
  | ind c ih =>
    rw [Heap.findMethod?_eq, Store.findMethod?_eq, hs.superclass?_eq]
    have own : Option.Rel (Function.FollowsUnbound programs γ h.scopes)
        (h.classes[c]?.bind (·.methods.get? x)) (s.classes[c]?.bind (·.methods.get? x)) := by
      rcases rel_cases (hs.classes.rel c) with ⟨hk, hk'⟩ | ⟨k, k', hk, hk', hkk⟩
      · rw [hk, hk']; exact .none
      · rw [hk, hk']; exact hkk.methods x
    rcases rel_cases own with ⟨hf, hf'⟩ | ⟨f, f', hf, hf', hff⟩
    · rw [hf, hf']
      cases hd : h.superclass? c with
      | none => exact .none
      | some d => exact ih d (Heap.superclass?_lt hd)
    · rw [hf, hf']
      exact .some hff

theorem classArity_eq (hs : Linked programs γ h s) (c : ClassId) :
    s.classArity c = h.classArity c := by
  rw [Store.classArity, Heap.classArity]
  rcases rel_cases (hs.findMethod? c initializerName) with ⟨hf, hf'⟩ | ⟨f, f', hf, hf', hff⟩
  · rw [hf, hf']
  · rw [hf, hf']
    exact congrArg (·.parameters.length) hff.1

theorem className_eq (hs : Linked programs γ h s) (c : ClassId) :
    s.className c = h.className c := by
  rw [Store.className, Heap.className]
  rcases rel_cases (hs.classes.rel c) with ⟨hk, hk'⟩ | ⟨k, k', hk, hk', hkk⟩
  · rw [hk, hk']
  · rw [hk, hk']
    exact hkk.name

theorem text_eq (hs : Linked programs γ h s) (v : Value) : s.text v = h.text v := by
  cases v with
  | function f =>
    rw [Store.text, Heap.text]
    rcases rel_cases (hs.functions.rel f) with ⟨hf, hf'⟩ | ⟨f, f', hf, hf', hff⟩
    · rw [hf, hf']
    · rw [hf, hf']
      simp only [Function.name, hff.1]
  | «class» c => exact hs.className_eq c
  | «instance» i =>
    rw [Store.text, Heap.text, hs.instances]
    cases h.instances[i]? with
    | none => rfl
    | some o => simp only [hs.className_eq]
  | bool b => cases b <;> rfl
  | _ => rfl

/-! ### What changes

In each case the store changes as the heap does, and the plan goes on where there are new names. -/

/-- The scopes and the locations have changed. -/
theorem of_scopes {gains : ScopeId → Prop} {scopes : Scopes} {cells : Array Value}
    {globals : Bindings Value} (hs : Linked programs γ h s) (he : h.scopes.Extends gains scopes)
    (hγ : γ <+: γ') (nodup : γ'.Nodup) (size : cells.size = γ'.length)
    (at_cells : ∀ {l : Location} {j x}, γ'[l]? = some (j, x) →
      j ≠ Heap.globals ∧ scopes.lookup? j x = cells[l]?)
    (at_globals : ∀ x, scopes.lookup? Heap.globals x = globals.get? x) :
    Linked programs γ' { h with scopes := scopes }
      { s with cells := cells, globals := globals } where
  nodup := nodup
  size := size
  cells := at_cells
  globals := at_globals
  functions := hs.functions.mono fun _ _ hf => hf.extends he hγ
  classes := hs.classes.mono fun _ _ hk => hk.extends he hγ
  instances := hs.instances

theorem define_global (hs : Linked programs γ h s) (hsize : 0 < h.scopes.size) (x : String)
    (v : Value) : Linked programs γ (h.define Heap.globals x v)
      { s with globals := s.globals.set x v } := by
  have extended : h.scopes.Extends (Heap.globals = ·) (h.scopes.define Heap.globals x v) :=
    .define rfl _ x v
  refine hs.of_scopes extended (List.prefix_refl γ) hs.nodup hs.size (fun hl => ?_) fun y => ?_
  · obtain ⟨hj, hl⟩ := hs.cells hl
    exact ⟨hj, (Scopes.lookup?_define_of_ne (.inl hj.symm) v).trans hl⟩
  · rw [Bindings.get?_set]
    split
    · next hxy =>
      subst hxy
      exact Scopes.lookup?_define_self hsize x v
    · next hxy => exact (Scopes.lookup?_define_of_ne (.inr hxy) v).trans (hs.globals y)

theorem write_local {l : Location} {j : ScopeId} {x : String} (hs : Linked programs γ h s)
    (hl : γ[l]? = some (j, x)) (v : Value) : Linked programs γ (h.define j x v)
      { s with cells := s.cells.setIfInBounds l v } := by
  have hbound := hs.isSome_lookup? hl
  have hlt : j < h.scopes.size := Scopes.lt_size_of_isSome hbound
  have extended : h.scopes.Extends (fun _ => False) (h.scopes.define j x v) :=
    .define_of_isSome hbound v
  refine hs.of_scopes extended (List.prefix_refl γ) hs.nodup (by rw [Array.size_setIfInBounds, hs.size]) (fun {l' j' y} hl' => ?_) fun y => ?_
  · refine ⟨(hs.cells hl').1, ?_⟩
    rw [Array.getElem?_setIfInBounds]
    by_cases he : l = l'
    · subst he
      obtain ⟨rfl, rfl⟩ := Prod.mk.inj (Option.some.inj (hl.symm.trans hl'))
      rw [if_pos rfl, if_pos (hs.lt_size hl), Scopes.lookup?_define_self hlt]
    · have hne : j ≠ j' ∨ x ≠ y := by
        by_contra hsame
        obtain ⟨rfl, rfl⟩ : j = j' ∧ x = y := by tauto
        obtain ⟨hlen, -⟩ := List.getElem?_eq_some_iff.1 hl
        exact he ((List.getElem?_inj hlen hs.nodup).1 (hl.trans hl'.symm))
      rw [if_neg he, Scopes.lookup?_define_of_ne hne, (hs.cells hl').2]
  · rw [Scopes.lookup?_define_of_ne (.inl (hs.cells hl).1), hs.globals]

/-- A scope has names that no location stands for yet. -/
theorem gain {gains : ScopeId → Prop} {scopes : Scopes} {c : ScopeId} (names : List String)
    {vs : List Value} (hs : Linked programs γ h s) (he : h.scopes.Extends gains scopes)
    (hc : c ≠ Heap.globals) (hn : names.Nodup) (hlen : vs.length = names.length)
    (fresh : ∀ x ∈ names, (c, x) ∉ γ)
    (old : ∀ {j x}, (c = j → x ∉ names) → (h.scopes.lookup? j x).isSome →
      scopes.lookup? j x = h.scopes.lookup? j x)
    (new : ∀ {i : Nat} {x}, names[i]? = some x → scopes.lookup? c x = vs[i]?)
    (at_globals : ∀ x, scopes.lookup? Heap.globals x = h.scopes.lookup? Heap.globals x) :
    Linked programs (γ ++ names.map (c, ·)) { h with scopes := scopes }
      { s with cells := s.cells ++ vs.toArray } := by
  refine hs.of_scopes he (List.prefix_append ..) ?_ ?_ (fun {l j x} hl => ?_) fun x => ?_
  · refine List.nodup_append.2 ⟨hs.nodup, hn.map fun _ _ h => (Prod.mk.inj h).2, ?_⟩
    rintro a ha b hb rfl
    obtain ⟨x, hx, rfl⟩ := List.mem_map.1 hb
    exact fresh x hx ha
  · simp [hs.size, hlen]
  · by_cases hlt : l < γ.length
    · rw [List.getElem?_append_left hlt] at hl
      refine ⟨(hs.cells hl).1, ?_⟩
      rw [Array.getElem?_append_left (by rwa [hs.size]), ← (hs.cells hl).2]
      refine old ?_ (hs.isSome_lookup? hl)
      rintro rfl hx
      exact fresh x hx (List.mem_of_getElem? hl)
    · have hle : γ.length ≤ l := Nat.le_of_not_lt hlt
      rw [List.getElem?_append_right hle, List.getElem?_map] at hl
      obtain ⟨y, hy, he⟩ := Option.map_eq_some_iff.1 hl
      obtain ⟨rfl, rfl⟩ := Prod.mk.inj he
      refine ⟨hc, (new hy).trans ?_⟩
      rw [Array.getElem?_append_right (by rwa [hs.size]), hs.size, List.getElem?_toArray]
  · rw [at_globals, hs.globals]

/-- A name is declared in a local scope that has not bound it. -/
theorem define_local {c : ScopeId} {x : String} (hs : Linked programs γ h s)
    (hc : c ≠ Heap.globals) (hlt : c < h.scopes.size) (hx : h.scopes.lookup? c x = none)
    (v : Value) : Linked programs (γ ++ [(c, x)]) (h.define c x v)
      { s with cells := s.cells ++ [v].toArray } := by
  have extended : h.scopes.Extends (c = ·) (h.scopes.define c x v) := .define rfl _ x v
  refine hs.gain [x] extended hc (List.nodup_singleton x) rfl ?_ ?_ ?_ ?_
  · intro y hy hmem
    obtain rfl := List.mem_singleton.1 hy
    obtain ⟨l, hl⟩ := List.mem_iff_getElem?.1 hmem
    have := hs.isSome_lookup? hl
    rw [hx] at this
    cases this
  · intro j y hne _
    refine Scopes.lookup?_define_of_ne ?_ v
    by_contra hsame
    obtain ⟨rfl, rfl⟩ : c = j ∧ x = y := by tauto
    exact hne rfl (List.mem_singleton_self x)
  · intro i y hy
    obtain ⟨rfl, rfl⟩ : i = 0 ∧ x = y := by simpa [List.getElem?_singleton] using hy
    exact Scopes.lookup?_define_self hlt x v
  · exact fun y => Scopes.lookup?_define_of_ne (.inl hc) v

/-- A scope is opened whose names have the given values. -/
theorem addScope {bindings : Bindings Value} (names : List String) {vs : List Value}
    (hs : Linked programs γ h s) (hsize : 0 < h.scopes.size) (hn : names.Nodup)
    (hlen : vs.length = names.length)
    (hb : ∀ {i : Nat} {x}, names[i]? = some x → bindings.get? x = vs[i]?) (p : ScopeId) :
    Linked programs (γ ++ names.map (h.scopes.size, ·)) (h.addScope bindings p)
      { s with cells := s.cells ++ vs.toArray } := by
  refine hs.gain names (.add (fun _ => False) ..) (Nat.ne_of_gt hsize) hn hlen ?_ ?_ ?_ ?_
  · intro x _ hmem
    obtain ⟨l, hl⟩ := List.mem_iff_getElem?.1 hmem
    exact absurd (Scopes.lt_size_of_isSome (hs.isSome_lookup? hl)) (Nat.lt_irrefl _)
  · exact fun _ hj => Scopes.lookup?_add_of_lt (Scopes.lt_size_of_isSome hj) ..
  · intro i x hx
    rw [Scopes.lookup?_add_size]
    exact hb hx
  · exact fun x => Scopes.lookup?_add_of_lt hsize ..

theorem addFunction {f : Function} {g : Closure} (hs : Linked programs γ h s)
    (hf : Function.Follows programs γ h.scopes f g) :
    Linked programs γ (h.addFunction f) { s with functions := s.functions.push g } :=
  { hs with functions := hs.functions.push hf }

theorem addClass {k : Treewalk.Class} {k' : Class} (hs : Linked programs γ h s)
    (hk : Class.Follows programs γ h.scopes k k') :
    Linked programs γ (h.addClass k) { s with classes := s.classes.push k' } :=
  { hs with classes := hs.classes.push hk }

theorem addInstance (hs : Linked programs γ h s) (c : ClassId) :
    Linked programs γ (h.addInstance c) { s with instances := s.instances.push ⟨c, []⟩ } :=
  { hs with instances := congrArg (·.push ⟨c, []⟩) hs.instances }

theorem setField (hs : Linked programs γ h s) (i : InstanceId) (x : String) (v : Value) :
    Linked programs γ (h.setField i x v) (s.setField i x v) :=
  { hs with instances := by rw [Store.setField, Heap.setField, hs.instances] }

end Linked

end Lexical
end Treewalk
