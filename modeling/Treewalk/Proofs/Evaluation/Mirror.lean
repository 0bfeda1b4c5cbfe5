import Treewalk.Proofs.Evaluation.Frame
import Treewalk.Proofs.Resolution.Declarations
/-!
# The scopes of a run mirror those of the walk

Control is at a node with as many links up to the global scope as the walk had scopes there
(`Scopes.Fits`), and every function and method of the heap closes over a chain of the height that its
body was walked at (`Heap.Sound`). For programs that are well formed and have no static errors the
chain moreover binds every name that the walk had as defined.

All of it is said for a list of programs and a proposition `checked`, under which the programs are
`Accepted`.
-/

namespace Treewalk

/-- The program is well formed and has no static errors. -/
structure Accepted (p : List Stmt) : Prop where
  formed : Stmt.AllFormed Token.Spelled p
  errors : (resolve p).errors = []

theorem Visits.errors_eq_nil {programs : List (List Stmt)} {c : Call} (h : Visits programs c)
    (ha : ∀ p ∈ programs, Accepted p) : c.result.errors = [] := by
  obtain ⟨p, hp, hon⟩ := h.onward
  have : (Resolver.stmts p .initial).errors = [] := by
    simpa [resolve] using (ha p hp).errors
  exact List.suffix_nil.1 (this ▸ hon.errors)

/-! ### Scopes -/

/-- A scope of one name, in a run and in the walk. -/
theorem Bindings.isSome_single (x : String) (v : Value) :
    ∀ y, get? [(x, true)] y = some true → (get? [(x, v)] y).isSome := by
  intro y hy
  rw [get?] at hy ⊢
  split at hy
  · next h => rw [if_pos h]; rfl
  · cases hy

namespace Scopes

/-- The links from `c` lead through a scope for each of the walk's and then to the global one. Under
`checked` each binds what the walk has as defined. -/
def Fits (checked : Prop) (s : Scopes) : List (Bindings Bool) → ScopeId → Prop
  | [], c => c = Heap.globals
  | b :: outer, c => (∃ p, s.parent? c = some p ∧ s.Fits checked outer p) ∧
      (checked → ∀ x, b.get? x = some true → (s.lookup? c x).isSome)

/-- Scope `c` is executing: the chain fits, and `c` binds no more than the walk has as defined. -/
structure Control (checked : Prop) (s : Scopes) (scopes : List (Bindings Bool)) (c : ScopeId) :
    Prop where
  fits : s.Fits checked scopes c
  exact : checked → ∀ {b outer}, scopes = b :: outer → ∀ {x}, (s.lookup? c x).isSome →
    b.get? x = some true

variable {checked : Prop} {s s' : Scopes} {b : Bindings Bool} {scopes scopes' : List (Bindings Bool)}
  {c : ScopeId} {x : String} {v : Value}

theorem lookup?_add (s : Scopes) (bindings : Bindings Value) (p : Option ScopeId) (j : ScopeId)
    (x : String) :
    (s.add bindings p).lookup? j x = if j = s.size then bindings.get? x else s.lookup? j x := by
  split
  · next h => rw [h, lookup?_add_size]
  · next hne =>
    by_cases hlt : j < s.size
    · exact lookup?_add_of_lt hlt ..
    · have hle : s.size ≤ j := Nat.le_of_not_lt hlt
      rw [lookup?_of_le hle, lookup?_of_le]
      rw [size_add]
      exact Nat.lt_of_le_of_ne hle (Ne.symm hne)

theorem lt_size_of_parent? {p : ScopeId} (h : s.parent? c = some p) : c < s.size := by
  by_contra hle
  rw [parent?_of_le (Nat.le_of_not_lt hle)] at h; cases h

theorem Fits.lt_size (h : s.Fits checked scopes c) (hs : 0 < s.size) : c < s.size := by
  cases scopes with
  | nil => rw [show c = 0 from h]; exact hs
  | cons b outer =>
    obtain ⟨⟨p, hp, -⟩, -⟩ := h
    exact lt_size_of_parent? hp

theorem Fits.extends {gains : ScopeId → Prop} (h : s.Fits checked scopes c)
    (he : s.Extends gains s') : s'.Fits checked scopes c := by
  induction scopes generalizing c with
  | nil => exact h
  | cons b outer ih =>
    obtain ⟨⟨p, hp, hf⟩, hb⟩ := h
    refine ⟨⟨p, ?_, ih hf⟩, fun hc x hx => he.kept c x (hb hc x hx)⟩
    rw [he.parent c (lt_size_of_parent? hp), hp]

/-- Without checks nothing but the number of scopes counts. -/
theorem Fits.congr (h : s.Fits checked scopes c) (hl : scopes'.length = scopes.length)
    (he : checked → scopes' = scopes) : s.Fits checked scopes' c := by
  induction scopes generalizing c scopes' with
  | nil => rw [List.eq_nil_of_length_eq_zero hl]; exact h
  | cons b outer ih =>
    match scopes', hl with
    | b' :: outer', hl =>
      obtain ⟨⟨p, hp, hf⟩, hb⟩ := h
      have heads (hc : checked) : b' = b ∧ outer' = outer := List.cons.inj (he hc)
      refine ⟨⟨p, hp, ih hf (Nat.succ.inj hl) fun hc => (heads hc).2⟩, fun hc x hx => ?_⟩
      exact hb hc x ((heads hc).1 ▸ hx)

/-- The number of links to the global scope is the number of the walk's scopes. -/
theorem Fits.up?_length (h : s.Fits checked scopes c) :
    s.up? scopes.length c = some Heap.globals := by
  induction scopes generalizing c with
  | nil => exact congrArg some h
  | cons b outer ih =>
    obtain ⟨⟨p, hp, hf⟩, -⟩ := h
    simp only [List.length_cons, up?, hp, Option.bind_some, ih hf]

theorem Fits.up? (h : s.Fits checked scopes c) {k : Nat} (hk : k < scopes.length) :
    ∃ j, s.up? k c = some j := by
  induction k generalizing scopes c with
  | zero => exact ⟨c, rfl⟩
  | succ k ih =>
    match scopes, hk with
    | b :: outer, hk =>
      obtain ⟨⟨p, hp, hf⟩, -⟩ := h
      obtain ⟨j, hj⟩ := ih hf (Nat.lt_of_succ_lt_succ hk)
      exact ⟨j, by rw [Scopes.up?, hp]; exact hj⟩

/-- The links of an old scope stay as they are. -/
theorem Extends.up? {gains : ScopeId → Prop} (he : s.Extends gains s') {k : Nat} {j : ScopeId}
    (h : s.up? k c = some j) : s'.up? k c = some j := by
  induction k generalizing c with
  | zero => exact h
  | succ k ih =>
    obtain ⟨p, hp, hk⟩ := Option.bind_eq_some_iff.1 h
    have hp' : s'.parent? c = some p := (he.parent c (lt_size_of_parent? hp)).trans hp
    rw [Scopes.up?, hp']
    exact ih hk

/-- What the walk has as defined is bound that many links up. -/
theorem Fits.bound (h : s.Fits checked scopes c) (hc : checked) {k : Nat}
    (hk : scopes[k]? = some b) (hx : b.get? x = some true) :
    ∃ j, s.up? k c = some j ∧ (s.lookup? j x).isSome := by
  induction k generalizing scopes c with
  | zero =>
    match scopes, hk with
    | _ :: outer, rfl => exact ⟨c, rfl, h.2 hc x hx⟩
  | succ k ih =>
    match scopes, hk with
    | _ :: outer, hk =>
      obtain ⟨⟨p, hp, hf⟩, -⟩ := h
      obtain ⟨j, hj, hb⟩ := ih hf hk
      exact ⟨j, by rw [Scopes.up?, hp]; exact hj, hb⟩

/-- The chain of a new scope. -/
theorem Fits.add (h : s.Fits checked scopes c) (hs : 0 < s.size) {bindings : Bindings Value}
    (hb : checked → ∀ x, b.get? x = some true → (bindings.get? x).isSome) :
    (s.add bindings (some c)).Fits checked (b :: scopes) s.size := by
  refine ⟨⟨c, parent?_add_size s bindings (h.lt_size hs), h.extends (.add (fun _ => False) ..)⟩, ?_⟩
  intro hc x hx
  rw [lookup?_add_size]
  exact hb hc x hx

/-! ### The scope that is executing -/

theorem Control.congr (h : s.Control checked scopes c) (hl : scopes'.length = scopes.length)
    (he : checked → scopes' = scopes) : s.Control checked scopes' c :=
  ⟨h.fits.congr hl he, fun hc _ _ hs _ hx => h.exact hc (he hc ▸ hs) hx⟩

/-- A branch leaves the number of the walk's scopes as it was, and in accepted programs the scopes. -/
theorem Control.gained (h : s.Control checked scopes c) (hg : Resolver.Gained scopes scopes')
    (he : checked → scopes' = scopes) : s.Control checked scopes' c :=
  h.congr hg.length_eq he

theorem Control.extends (h : s.Control checked scopes c) {gains : ScopeId → Prop}
    (he : s.Extends gains s') (hg : ¬ gains c) : s'.Control checked scopes c where
  fits := h.fits.extends he
  exact hc b outer hs x hx := by
    subst hs
    obtain ⟨⟨p, hp, -⟩, -⟩ := h.fits
    exact h.exact hc rfl (he.closed c (lt_size_of_parent? hp) hg x hx)

/-- The global scope. -/
theorem control_globals (checked : Prop) (s : Scopes) : s.Control checked [] Heap.globals :=
  ⟨rfl, nofun⟩

/-- A new scope with the given names and no others. -/
theorem Control.add {bindings : Bindings Value} (h : s.Fits checked scopes c) (hs : 0 < s.size)
    (hb : checked → ∀ x, b.get? x = some true ↔ (bindings.get? x).isSome) :
    (s.add bindings (some c)).Control checked (b :: scopes) s.size where
  fits := h.add hs fun hc x => (hb hc x).1
  exact hc _ _ he x hx := by
    obtain ⟨rfl, rfl⟩ := List.cons.inj he
    rw [lookup?_add_size] at hx
    exact (hb hc x).2 hx

/-- In front of an initializer its name is declared but not bound. -/
theorem Control.declare {r : Resolver} (h : s.Control checked r.scopes c) (name : Token) :
    s.Control checked (r.declare name).scopes c := by
  rcases Resolver.declare_scopes name r with he | ⟨hnone, he⟩ <;> rw [he]
  · exact h
  cases hs : r.scopes with
  | nil => rw [hs] at h; exact h
  | cons b outer =>
    rw [hs] at h
    have absent : b.get? name.lexeme = none := by
      simpa [Resolver.innermost?, hs] using hnone
    refine ⟨⟨h.fits.1, fun hc x hx => h.fits.2 hc x ?_⟩, fun hc b' outer' he x hx => ?_⟩
    · rw [Bindings.get?_set] at hx
      split at hx
      · cases hx
      · exact hx
    · obtain ⟨rfl, rfl⟩ := List.cons.inj he
      have := h.exact hc rfl hx
      rw [Bindings.get?_set, if_neg, this]
      rintro rfl
      rw [absent] at this; cases this

/-- Binding a name in the scope that is executing, as the walk does. -/
theorem Control.define (h : s.Control checked scopes c) (hs : 0 < s.size) (x : String) (v : Value) :
    (s.define c x v).Control checked (Resolver.defining x scopes) c := by
  cases scopes with
  | nil => exact ⟨h.fits, nofun⟩
  | cons b outer =>
    have extended : s.Extends (c = ·) (s.define c x v) := .define rfl s x v
    have hlt := h.fits.lt_size hs
    obtain ⟨⟨p, hp, hf⟩, -⟩ := h.fits
    refine ⟨⟨⟨p, by rw [parent?_define, hp], hf.extends extended⟩, fun hc y hy => ?_⟩,
      fun hc b' outer' he y hy => ?_⟩
    · rw [Bindings.get?_set] at hy
      split at hy
      · next hxy => rw [← hxy, lookup?_define_self hlt]; rfl
      · exact extended.kept c y (h.fits.2 hc y hy)
    · obtain ⟨rfl, rfl⟩ := List.cons.inj he
      rw [Bindings.get?_set]
      split
      · rfl
      · next hxy =>
        rw [lookup?_define_of_ne (.inr hxy)] at hy
        exact h.exact hc rfl hy

/-- In front of the initializer or behind it, the name is defined in the end. -/
theorem Control.define_declared {r : Resolver} (h : s.Control checked (r.declare name).scopes c)
    (hs : 0 < s.size) (v : Value) :
    (s.define c name.lexeme v).Control checked ((r.declare name).define name).scopes c := by
  rw [Resolver.scopes_define]
  exact h.define hs name.lexeme v

/-- A new scope of one name, above a scope in which another name is then bound. -/
theorem Control.fits_single (h : s.Control checked scopes c) (hs : 0 < s.size) (y : String)
    (w : Value) (x : String) (v : Value) :
    ((s.add [(y, w)] (some c)).define c x v).Fits checked
      ([(y, true)] :: Resolver.defining x scopes) s.size := by
  have hlt := h.fits.lt_size hs
  have added : s.Extends (fun _ => False) (s.add [(y, w)] (some c)) := .add _ s _ _
  have hcontrol := (h.extends added id).define (Nat.lt_of_lt_of_le hs added.size) x v
  refine ⟨⟨c, ?_, hcontrol.fits⟩, fun _ z hz => ?_⟩
  · exact (parent?_define ..).trans (parent?_add_size s _ hlt)
  · rw [lookup?_define_of_ne (.inl (Nat.ne_of_lt hlt)), lookup?_add_size]
    exact Bindings.isSome_single y w z hz

end Scopes

/-! ### The heap -/

/-- The function's body was walked in scopes that its closure fits. -/
def Function.Fits (programs : List (List Stmt)) (checked : Prop) (s : Scopes) (f : Function) :
    Prop :=
  ∃ context r, Visits programs (.function f.declaration context r) ∧
    s.Fits checked r.scopes f.closure ∧
    (f.isInitializer = true → r.scopes.head? = some [("this", true)])

/-- The method's body was walked in scopes that its closure fits when `this` is added. -/
def Function.FitsUnbound (programs : List (List Stmt)) (checked : Prop) (s : Scopes)
    (f : Function) : Prop :=
  ∃ context r outer, Visits programs (.function f.declaration context r) ∧
    r.scopes = [("this", true)] :: outer ∧ s.Fits checked outer f.closure

/-- Every function and method of the heap has a closure that fits. Under `checked`, `this` is always
an instance and `super` a class. -/
structure Heap.Sound (programs : List (List Stmt)) (checked : Prop) (h : Heap) : Prop where
  scopes : 0 < h.scopes.size
  functions : ∀ {i : FunctionId} {f : Function}, h.functions[i]? = some f →
    f.Fits programs checked h.scopes
  methods : ∀ {c : ClassId} {k : Class} {x : String} {f : Function}, h.classes[c]? = some k →
    k.methods.get? x = some f → f.FitsUnbound programs checked h.scopes
  this : checked → ∀ {j v}, h.scopes.lookup? j "this" = some v → ∃ i, v = .instance i
  super : checked → ∀ {j v}, h.scopes.lookup? j "super" = some v → ∃ c, v = .class c

section Extending

variable {programs programs' : List (List Stmt)} {checked : Prop} {s s' : Scopes}
  {gains : ScopeId → Prop} {f : Function}

theorem Function.Fits.extends (h : f.Fits programs checked s) (he : s.Extends gains s') :
    f.Fits programs checked s' := by
  obtain ⟨context, r, hv, hf, hi⟩ := h
  exact ⟨context, r, hv, hf.extends he, hi⟩

theorem Function.FitsUnbound.extends (h : f.FitsUnbound programs checked s)
    (he : s.Extends gains s') : f.FitsUnbound programs checked s' := by
  obtain ⟨context, r, outer, hv, hs, hf⟩ := h
  exact ⟨context, r, outer, hv, hs, hf.extends he⟩

theorem Function.Fits.mono (hp : programs ⊆ programs') (h : f.Fits programs checked s) :
    f.Fits programs' checked s := by
  obtain ⟨context, r, hv, hf, hi⟩ := h
  exact ⟨context, r, hv.mono hp, hf, hi⟩

theorem Function.FitsUnbound.mono (hp : programs ⊆ programs')
    (h : f.FitsUnbound programs checked s) : f.FitsUnbound programs' checked s := by
  obtain ⟨context, r, outer, hv, hs, hf⟩ := h
  exact ⟨context, r, outer, hv.mono hp, hs, hf⟩

end Extending

/-- Only the classes of a heap count for its methods. -/
theorem Heap.findMethod?_congr {h h' : Heap} (hc : h'.classes = h.classes) (c : ClassId)
    (x : String) : h'.findMethod? c x = h.findMethod? c x := by
  induction c using Nat.strongRecOn with
  | ind c ih =>
    have hs : h'.superclass? c = h.superclass? c := by simp only [Heap.superclass?, hc]
    rw [Heap.findMethod?_eq, Heap.findMethod?_eq h, hc, hs]
    cases hs' : h.superclass? c with
    | none => rfl
    | some s => simp only [Option.bind_some, ih s (Heap.superclass?_lt hs')]

theorem Heap.findMethod?_addInstance (h : Heap) (i c : ClassId) (x : String) :
    (h.addInstance i).findMethod? c x = h.findMethod? c x :=
  @Heap.findMethod?_congr h (h.addInstance i) rfl c x

namespace Heap.Sound

variable {programs programs' : List (List Stmt)} {checked : Prop} {h : Heap} {s : Scopes}
  {gains : ScopeId → Prop}

theorem mono (hp : programs ⊆ programs') (hs : h.Sound programs checked) :
    h.Sound programs' checked :=
  ⟨hs.scopes, fun hf => (hs.functions hf).mono hp, fun hk hf => (hs.methods hk hf).mono hp,
    hs.this, hs.super⟩

theorem initial (programs : List (List Stmt)) (checked : Prop) :
    Heap.initial.Sound programs checked where
  scopes := Nat.one_pos
  functions hf := by simp [Heap.initial] at hf
  methods hk _ := by simp [Heap.initial] at hk
  this _ j v hv := by
    simp only [Heap.initial, Scopes.lookup?_add] at hv
    split at hv
    · simp [Bindings.get?, Native.name] at hv
    · simp [Scopes.lookup?, Scopes.empty] at hv
  super _ j v hv := by
    simp only [Heap.initial, Scopes.lookup?_add] at hv
    split at hv
    · simp [Bindings.get?, Native.name] at hv
    · simp [Scopes.lookup?, Scopes.empty] at hv

/-- More scopes and names are no harm unless they are of `this` and `super`. -/
theorem of_extends (hs : h.Sound programs checked) (he : h.scopes.Extends gains s)
    (this : checked → ∀ {j v}, s.lookup? j "this" = some v → ∃ i, v = .instance i)
    (super : checked → ∀ {j v}, s.lookup? j "super" = some v → ∃ c, v = .class c) :
    Sound programs checked { h with scopes := s } where
  scopes := Nat.lt_of_lt_of_le hs.scopes he.size
  functions hf := (hs.functions hf).extends he
  methods hk hf := (hs.methods hk hf).extends he
  this := this
  super := super

theorem addScope (hs : h.Sound programs checked) {bindings : Bindings Value}
    (this : checked → ∀ v, bindings.get? "this" = some v → ∃ i, v = .instance i)
    (super : checked → ∀ v, bindings.get? "super" = some v → ∃ c, v = .class c) (p : ScopeId) :
    Sound programs checked (h.addScope bindings p) := by
  refine hs.of_extends (.add (fun _ => False) _ bindings (some p)) (fun hc {j v} hv => ?_)
    fun hc {j v} hv => ?_
  · rw [Scopes.lookup?_add] at hv
    split at hv
    · exact this hc v hv
    · exact hs.this hc hv
  · rw [Scopes.lookup?_add] at hv
    split at hv
    · exact super hc v hv
    · exact hs.super hc hv

theorem define (hs : h.Sound programs checked) {x : String}
    (hx : checked → x ≠ "this" ∧ x ≠ "super") (i : ScopeId) (v : Value) :
    Sound programs checked (h.define i x v) := by
  have extended : h.scopes.Extends (i = ·) (h.scopes.define i x v) := .define rfl _ x v
  refine hs.of_extends extended (fun hc {j w} hw => ?_) fun hc {j w} hw => ?_
  · rw [Scopes.lookup?_define_of_ne (.inr (hx hc).1)] at hw
    exact hs.this hc hw
  · rw [Scopes.lookup?_define_of_ne (.inr (hx hc).2)] at hw
    exact hs.super hc hw

theorem addFunction (hs : h.Sound programs checked) {f : Function}
    (hf : f.Fits programs checked h.scopes) : Sound programs checked (h.addFunction f) where
  scopes := hs.scopes
  functions {i g} hg := by
    simp only [Heap.addFunction, Array.getElem?_push] at hg
    split at hg
    · obtain rfl := Option.some.inj hg; exact hf
    · exact hs.functions hg
  methods := hs.methods
  this := hs.this
  super := hs.super

theorem addClass (hs : h.Sound programs checked) {k : Class}
    (hk : ∀ {x f}, k.methods.get? x = some f → f.FitsUnbound programs checked h.scopes) :
    Sound programs checked (h.addClass k) where
  scopes := hs.scopes
  functions := hs.functions
  methods {c k' x f} hk' hf := by
    simp only [Heap.addClass, Array.getElem?_push] at hk'
    split at hk'
    · obtain rfl := Option.some.inj hk'; exact hk hf
    · exact hs.methods hk' hf
  this := hs.this
  super := hs.super

theorem addInstance (hs : h.Sound programs checked) (c : ClassId) :
    Sound programs checked (h.addInstance c) :=
  ⟨hs.scopes, hs.functions, hs.methods, hs.this, hs.super⟩

theorem setField (hs : h.Sound programs checked) (i : InstanceId) (x : String) (v : Value) :
    Sound programs checked (h.setField i x v) :=
  ⟨hs.scopes, hs.functions, hs.methods, hs.this, hs.super⟩

theorem findMethod? (hs : h.Sound programs checked) {c : ClassId} {x : String} {f : Function}
    (hf : h.findMethod? c x = some f) : f.FitsUnbound programs checked h.scopes := by
  fun_induction Heap.findMethod? h c x with
  | case1 c g hg =>
    obtain rfl := Option.some.inj hf
    obtain ⟨k, hk, hm⟩ := Option.bind_eq_some_iff.1 hg
    exact hs.methods hk hm
  | case2 c _ s hs' ih => exact ih hf
  | case3 => cases hf

end Heap.Sound
end Treewalk
