import Treewalk.Proofs.Evaluation.Nodes
import Treewalk.Proofs.Inheritance.Evaluation
/-!
# What a ledger says of a heap

A ledger holds for a heap (`Ledger.Holds`) if the heap's classes are the declared ones and the scope
in which the methods of a subclass are made binds `super` to the superclass that was declared, and if
each function can reach its home: going up from its closure, the first scope of the walk that has
`this` binds it to the home's instance, and lies in the scope of the home's class (`Home.Fits`).

Scopes get new names, but `this` and `super` keep their values, so a ledger that holds goes on to hold
as the heap grows (`Grows`). While it holds, what a class finds under a name is the last method of its
own declaration or else what its superclass finds (`Ledger.Records.findMethod?_declared`).
-/

namespace Treewalk
namespace Inheritance

variable {programs programs' : List (List Stmt)} {h h' h'' : Heap} {l l' l'' : Ledger}

/-! ### Classes as values -/

/-- If the value is a class, it has been made. -/
def Made (h : Heap) (v : Value) : Prop :=
  ∀ c, v = .class c → c < h.classes.size

theorem made_nil : Made h .nil :=
  nofun

theorem made_native (f : Native) : Made h (.native f) :=
  nofun

theorem made_function (f : FunctionId) : Made h (.function f) :=
  nofun

theorem made_instance (i : InstanceId) : Made h (.instance i) :=
  nofun

structure AllMade (h : Heap) : Prop where
  scopes : ∀ {j x v}, h.scopes.lookup? j x = some v → Made h v
  fields : ∀ {i : InstanceId} {o x v}, h.instances[i]? = some o → o.fields.get? x = some v → Made h v

/-! ### Homes -/

/-- If the walk has `this` in its scopes, there is a home: the scope that many links up binds `this`
to its instance and lies in the scope of its class, which has a superclass if the walk has `super`
there. -/
def Home.Fits (h : Heap) (l : Ledger) (home : Option Home) (scopes : List (Bindings Bool))
    (c : ScopeId) : Prop :=
  ∀ k, scopes.findIdx? (·.contains "this") = some k → ∃ here j d,
    home = some here ∧ h.scopes.up? k c = some j ∧
    h.scopes.lookup? j "this" = some (.instance here.receiver) ∧
    l.classes[here.ofClass]? = some d ∧ h.scopes.parent? j = some d.closure ∧
    (scopes[k + 1]? = some [("super", true)] → d.superclass.isSome)

/-- The function's body was walked in scopes that its closure fits, and so does its home. -/
def Housed (programs : List (List Stmt)) (h : Heap) (l : Ledger) (f : Function)
    (home : Option Home) : Prop :=
  ∃ context r, Visits programs (.function f.declaration context r) ∧
    h.scopes.Fits True r.scopes f.closure ∧ Home.Fits h l home r.scopes f.closure ∧
    (f.isInitializer = true → r.scopes.head? = some [("this", true)])

/-- The heap's class `c` is as declared, and its methods were walked in scopes that the closure
fits. -/
structure Declared.Holds (programs : List (List Stmt)) (h : Heap) (c : ClassId) (d : Declared) :
    Prop where
  stored : ∃ name, h.classes[c]? =
    some ⟨name, d.superclass, Eval.methodTable d.methods d.closure⟩
  superclass : ∀ {s}, d.superclass = some s →
    s < c ∧ h.scopes.lookup? d.closure "super" = some (.class s)
  methods : ∀ {f}, f ∈ d.methods → ∃ context r outer, Visits programs (.function f context r) ∧
    r.scopes = [("this", true)] :: outer ∧ h.scopes.Fits True outer d.closure ∧
    (outer.head? = some [("super", true)] → d.superclass.isSome)

/-- The ledger has the classes and functions of the heap. -/
structure Ledger.Records (programs : List (List Stmt)) (h : Heap) (l : Ledger) : Prop where
  classes_size : l.classes.size = h.classes.size
  homes_size : l.homes.size = h.functions.size
  declared : ∀ {c : ClassId} {d}, l.classes[c]? = some d → d.Holds programs h c
  housed : ∀ {i : FunctionId} {f home}, h.functions[i]? = some f → l.homes[i]? = some home →
    Housed programs h l f home

structure Ledger.Holds (programs : List (List Stmt)) (h : Heap) (l : Ledger) : Prop
    extends l.Records programs h where
  made : AllMade h

/-! ### Growing -/

/-- Heap and ledger have more in them. No `this` or `super` has another value, and no class is
declared otherwise. -/
structure Grows (h : Heap) (l : Ledger) (h' : Heap) (l' : Ledger) : Prop where
  heap : h.Extends (fun _ => True) h'
  implicit : ∀ {j x v}, x = "this" ∨ x = "super" → h.scopes.lookup? j x = some v →
    h'.scopes.lookup? j x = some v
  classes : ∀ {c : ClassId} {d}, l.classes[c]? = some d → l'.classes[c]? = some d

namespace Grows

theorem refl (h : Heap) (l : Ledger) : Grows h l h l :=
  ⟨.refl _ h, fun _ hv => hv, fun hd => hd⟩

theorem trans (g : Grows h l h' l') (g' : Grows h' l' h'' l'') : Grows h l h'' l'' :=
  ⟨g.heap.trans g'.heap fun _ _ _ => trivial, fun hx hv => g'.implicit hx (g.implicit hx hv),
    fun hd => g'.classes (g.classes hd)⟩

theorem addScope (h : Heap) (l : Ledger) (bindings : Bindings Value) (p : ScopeId) :
    Grows h l (h.addScope bindings p) l := by
  refine ⟨.addScope _ h bindings p, fun {j x v} _ hv => ?_, fun hd => hd⟩
  have hlt := Scopes.lt_size_of_isSome (Option.isSome_of_eq_some hv)
  exact (Scopes.lookup?_add_of_lt hlt ..).trans hv

theorem define {x : String} (hx : x ≠ "this" ∧ x ≠ "super") (h : Heap) (l : Ledger) (i : ScopeId)
    (v : Value) : Grows h l (h.define i x v) l := by
  refine ⟨.define trivial h x v, fun {j y w} hy hw => ?_, fun hd => hd⟩
  have hne : x ≠ y := by
    rcases hy with rfl | rfl
    · exact hx.1
    · exact hx.2
  exact (Scopes.lookup?_define_of_ne (.inr hne) v).trans hw

theorem addInstance (h : Heap) (l : Ledger) (c : ClassId) : Grows h l (h.addInstance c) l :=
  ⟨.addInstance _ h c, fun _ hv => hv, fun hd => hd⟩

theorem setField (h : Heap) (l : Ledger) (i : InstanceId) (x : String) (v : Value) :
    Grows h l (h.setField i x v) l :=
  ⟨.setField _ h i x v, fun _ hv => hv, fun hd => hd⟩

theorem addFunction (h : Heap) (l : Ledger) (f : Function) (home : Option Home) :
    Grows h l (h.addFunction f) { l with homes := l.homes.push home } :=
  ⟨.addFunction _ h f, fun _ hv => hv, fun hd => hd⟩

theorem addClass (h : Heap) (l : Ledger) (k : Class) (d : Declared) :
    Grows h l (h.addClass k) { l with classes := l.classes.push d } :=
  ⟨.addClass _ h k, fun _ hv => hv, fun hd => Heap.getElem?_push_of_some hd⟩

end Grows

theorem Made.grows {v : Value} (hv : Made h v) (g : Grows h l h' l') : Made h' v := by
  intro c hc
  exact (Array.getElem?_eq_some_iff.1 (g.heap.classes c _ (Array.getElem?_eq_getElem (hv c hc)))).1

theorem Home.Fits.grows {home : Option Home} {scopes : List (Bindings Bool)} {c : ScopeId}
    (hf : Home.Fits h l home scopes c) (g : Grows h l h' l') : Home.Fits h' l' home scopes c := by
  intro k hk
  obtain ⟨here, j, d, hhome, hj, hthis, hd, hp, hsuper⟩ := hf k hk
  have hlt := Scopes.lt_size_of_parent? hp
  exact ⟨here, j, d, hhome, g.heap.scopes.up? hj, g.implicit (.inl rfl) hthis, g.classes hd,
    (g.heap.scopes.parent j hlt).trans hp, hsuper⟩

theorem Housed.grows {f : Function} {home : Option Home} (hf : Housed programs h l f home)
    (g : Grows h l h' l') : Housed programs h' l' f home := by
  obtain ⟨context, r, hv, hfit, hhome, hi⟩ := hf
  exact ⟨context, r, hv, hfit.extends g.heap.scopes, hhome.grows g, hi⟩

theorem Declared.Holds.grows {c : ClassId} {d : Declared} (hd : d.Holds programs h c)
    (g : Grows h l h' l') : d.Holds programs h' c where
  stored := by
    obtain ⟨name, hk⟩ := hd.stored
    exact ⟨name, g.heap.classes c _ hk⟩
  superclass hs := ⟨(hd.superclass hs).1, g.implicit (.inr rfl) (hd.superclass hs).2⟩
  methods hf := by
    obtain ⟨context, r, outer, hv, hr, hfit, hsuper⟩ := hd.methods hf
    exact ⟨context, r, outer, hv, hr, hfit.extends g.heap.scopes, hsuper⟩

namespace AllMade

theorem addScope (hm : AllMade h) {bindings : Bindings Value}
    (hb : ∀ {x v}, bindings.get? x = some v → Made h v) (p : ScopeId) :
    AllMade (h.addScope bindings p) := by
  refine ⟨fun {j x v} hv => ?_, hm.fields⟩
  have hv' := (Scopes.lookup?_add ..).symm.trans hv
  split at hv'
  · exact hb hv'
  · exact hm.scopes hv'

theorem define (hm : AllMade h) {v : Value} (hv : Made h v) (i : ScopeId) (x : String) :
    AllMade (h.define i x v) := by
  refine ⟨fun {j y w} hw => ?_, hm.fields⟩
  by_cases hy : i = j ∧ x = y
  · obtain ⟨rfl, rfl⟩ := hy
    have hlt : i < h.scopes.size := by
      rw [← Scopes.size_define h.scopes i x v]
      exact Scopes.lt_size_of_isSome (Option.isSome_of_eq_some hw)
    obtain rfl := Option.some.inj ((Scopes.lookup?_define_self hlt x v).symm.trans hw)
    exact hv
  · exact hm.scopes ((Scopes.lookup?_define_of_ne (by tauto) v).symm.trans hw)

theorem addInstance (hm : AllMade h) (c : ClassId) : AllMade (h.addInstance c) := by
  refine ⟨hm.scopes, fun {i o x v} ho hv => ?_⟩
  simp only [Heap.addInstance, Array.getElem?_push] at ho
  split at ho
  · obtain rfl := Option.some.inj ho
    cases hv
  · exact hm.fields ho hv

theorem setField (hm : AllMade h) {v : Value} (hv : Made h v) (i : InstanceId) (x : String) :
    AllMade (h.setField i x v) := by
  refine ⟨hm.scopes, fun {j o y w} ho hw => ?_⟩
  simp only [Heap.setField, Array.getElem?_modify] at ho
  split at ho
  · obtain ⟨o', ho', rfl⟩ := Option.map_eq_some_iff.1 ho
    rw [Bindings.get?_set] at hw
    split at hw
    · obtain rfl := Option.some.inj hw
      exact hv
    · exact hm.fields ho' hw
  · exact hm.fields ho hw

theorem addClass (hm : AllMade h) (k : Class) : AllMade (h.addClass k) :=
  have g := Grows.addClass h .empty k ⟨[], none, Heap.globals⟩
  ⟨fun hv => (hm.scopes hv).grows g, fun ho hv => (hm.fields ho hv).grows g⟩

end AllMade

namespace Ledger.Records

theorem mono (hp : programs ⊆ programs') (hl : l.Records programs h) : l.Records programs' h where
  classes_size := hl.classes_size
  homes_size := hl.homes_size
  declared hd := by
    refine ⟨(hl.declared hd).stored, (hl.declared hd).superclass, fun hf => ?_⟩
    obtain ⟨context, r, outer, hv, hrest⟩ := (hl.declared hd).methods hf
    exact ⟨context, r, outer, hv.mono hp, hrest⟩
  housed hf hhome := by
    obtain ⟨context, r, hv, hrest⟩ := hl.housed hf hhome
    exact ⟨context, r, hv.mono hp, hrest⟩

/-- What makes no function and no class. -/
theorem of_grows (hl : l.Records programs h) (g : Grows h l h' l)
    (hf : h'.functions = h.functions) (hc : h'.classes = h.classes) : l.Records programs h' where
  classes_size := hl.classes_size.trans (congrArg Array.size hc.symm)
  homes_size := hl.homes_size.trans (congrArg Array.size hf.symm)
  declared hd := (hl.declared hd).grows g
  housed hi hhome := (hl.housed (hf ▸ hi) hhome).grows g

theorem addFunction (hl : l.Records programs h) {f : Function} {home : Option Home}
    (hf : Housed programs h l f home) :
    Ledger.Records programs (h.addFunction f) { l with homes := l.homes.push home } where
  classes_size := hl.classes_size
  homes_size := by simp [Heap.addFunction, hl.homes_size]
  declared hd := (hl.declared hd).grows (.addFunction h l f home)
  housed {i g home'} hg hhome := by
    refine Housed.grows ?_ (.addFunction h l f home)
    simp only [Heap.addFunction, Array.getElem?_push] at hg hhome
    rw [hl.homes_size] at hhome
    split at hg
    · next hi =>
      rw [if_pos hi] at hhome
      obtain rfl := Option.some.inj hg
      obtain rfl := Option.some.inj hhome
      exact hf
    · next hi =>
      rw [if_neg hi] at hhome
      exact hl.housed hg hhome

theorem addClass (hl : l.Records programs h) {d : Declared} {name : String}
    (hd : d.Holds programs
      (h.addClass ⟨name, d.superclass, Eval.methodTable d.methods d.closure⟩) h.classes.size) :
    Ledger.Records programs
      (h.addClass ⟨name, d.superclass, Eval.methodTable d.methods d.closure⟩)
      { l with classes := l.classes.push d } := by
  have g := Grows.addClass h l ⟨name, d.superclass, Eval.methodTable d.methods d.closure⟩ d
  refine ⟨?_, hl.homes_size, fun {c d'} hd' => ?_, fun hf hhome => (hl.housed hf hhome).grows g⟩
  · simp [Heap.addClass, hl.classes_size]
  · simp only [Array.getElem?_push, hl.classes_size] at hd'
    split at hd'
    · next hc =>
      obtain rfl := Option.some.inj hd'
      exact hc ▸ hd
    · exact (hl.declared hd').grows g

theorem exists_home (hl : l.Records programs h) {i : FunctionId} {f : Function}
    (hf : h.functions[i]? = some f) : ∃ home, l.homes[i]? = some home := by
  have hlt := (Array.getElem?_eq_some_iff.1 hf).1
  rw [← hl.homes_size] at hlt
  exact ⟨_, Array.getElem?_eq_getElem hlt⟩

/-! ### What classes find -/

/-- Of the methods of a name the table has the last. -/
theorem get?_methodTable (d : Declared) (x : String) :
    (Eval.methodTable d.methods d.closure).get? x = d.own? x :=
  (Bindings.get?_foldl_set (fun f : FunctionDecl => f.name.lexeme) _ d.methods [] x).trans
    (Option.or_none ..)

theorem own?_eq (hl : l.Records programs h) (c : ClassId) (x : String) :
    h.classes[c]?.bind (·.methods.get? x) = l.classes[c]?.bind (·.own? x) := by
  cases hd : l.classes[c]? with
  | some d =>
    obtain ⟨name, hk⟩ := (hl.declared hd).stored
    rw [hk]
    exact get?_methodTable d x
  | none =>
    rw [Array.getElem?_eq_none_iff, hl.classes_size] at hd
    rw [Array.getElem?_eq_none hd]
    rfl

theorem superclass?_eq (hl : l.Records programs h) (c : ClassId) :
    h.superclass? c = l.superclass? c := by
  unfold Heap.superclass? Ledger.superclass?
  cases hd : l.classes[c]? with
  | some d =>
    obtain ⟨name, hk⟩ := (hl.declared hd).stored
    rw [hk]
    rfl
  | none =>
    rw [Array.getElem?_eq_none_iff, hl.classes_size] at hd
    rw [Array.getElem?_eq_none hd]
    rfl

/-- A superclass is always an earlier class. -/
theorem superclass?_declared (hl : l.Records programs h) {c : ClassId} {d : Declared}
    (hd : l.classes[c]? = some d) : l.superclass? c = d.superclass := by
  rw [Ledger.superclass?, hd, Option.bind_some]
  cases hs : d.superclass with
  | none => rfl
  | some s => simp [Option.filter, ((hl.declared hd).superclass hs).1]

theorem findMethod?_eq (hl : l.Records programs h) (c : ClassId) (x : String) :
    h.findMethod? c x = (l.nearest? c x).map (·.2) := by
  fun_induction Ledger.nearest? l c x with
  | case1 c f hf => rw [Heap.findMethod?_eq, hl.own?_eq, hf]; rfl
  | case2 c hf s hs ih =>
    rw [Heap.findMethod?_eq, hl.own?_eq, hf, hl.superclass?_eq, hs, Option.none_or]
    exact ih
  | case3 c hf hs => rw [Heap.findMethod?_eq, hl.own?_eq, hf, hl.superclass?_eq, hs]; rfl

/-- A class finds the last method of the name in its own declaration, or else what the superclass
finds that it was declared with. -/
theorem findMethod?_declared (hl : l.Records programs h) {c : ClassId} {d : Declared}
    (hd : l.classes[c]? = some d) (x : String) :
    h.findMethod? c x = (d.own? x).or (d.superclass.bind (h.findMethod? · x)) := by
  rw [Heap.findMethod?_eq, hl.own?_eq, hl.superclass?_eq, hl.superclass?_declared hd, hd]
  rfl

theorem classArity_eq (hl : l.Records programs h) (c : ClassId) : h.classArity c = l.arity c := by
  rw [Heap.classArity, Ledger.arity, hl.findMethod?_eq]
  cases l.nearest? c initializerName <;> rfl

end Ledger.Records

namespace Ledger.Holds

theorem initial (programs : List (List Stmt)) : Ledger.empty.Holds programs .initial where
  classes_size := rfl
  homes_size := rfl
  declared hd := by simp [empty] at hd
  housed hf _ := by simp [Heap.initial] at hf
  made := by
    refine ⟨fun {j x v} hv => ?_, fun ho _ => by simp [Heap.initial] at ho⟩
    simp only [Heap.initial, Scopes.lookup?_add] at hv
    split at hv
    · simp only [Bindings.get?] at hv
      split at hv <;> cases hv
      exact made_native _
    · simp [Scopes.lookup?, Scopes.empty] at hv

theorem mono (hp : programs ⊆ programs') (hl : l.Holds programs h) : l.Holds programs' h :=
  ⟨hl.toRecords.mono hp, hl.made⟩

theorem addScope (hl : l.Holds programs h) {bindings : Bindings Value}
    (hb : ∀ {x v}, bindings.get? x = some v → Made h v) (p : ScopeId) :
    l.Holds programs (h.addScope bindings p) :=
  ⟨hl.toRecords.of_grows (.addScope h l bindings p) rfl rfl, hl.made.addScope hb p⟩

/-- A scope of one name. -/
theorem addSingle (hl : l.Holds programs h) {v : Value} (hv : Made h v) (x : String)
    (p : ScopeId) : l.Holds programs (h.addScope [(x, v)] p) := by
  refine hl.addScope (fun {y w} hw => ?_) p
  simp only [Bindings.get?] at hw
  split at hw <;> cases hw
  exact hv

theorem define (hl : l.Holds programs h) {x : String} (hx : x ≠ "this" ∧ x ≠ "super")
    (i : ScopeId) {v : Value} (hv : Made h v) : l.Holds programs (h.define i x v) :=
  ⟨hl.toRecords.of_grows (.define hx h l i v) rfl rfl, hl.made.define hv i x⟩

theorem addInstance (hl : l.Holds programs h) (c : ClassId) :
    l.Holds programs (h.addInstance c) :=
  ⟨hl.toRecords.of_grows (.addInstance h l c) rfl rfl, hl.made.addInstance c⟩

theorem setField (hl : l.Holds programs h) (i : InstanceId) (x : String) {v : Value}
    (hv : Made h v) : l.Holds programs (h.setField i x v) :=
  ⟨hl.toRecords.of_grows (.setField h l i x v) rfl rfl, hl.made.setField hv i x⟩

theorem addFunction (hl : l.Holds programs h) {f : Function} {home : Option Home}
    (hf : Housed programs h l f home) :
    Ledger.Holds programs (h.addFunction f) { l with homes := l.homes.push home } :=
  ⟨hl.toRecords.addFunction hf, ⟨hl.made.scopes, hl.made.fields⟩⟩

/-- A class is made and bound to its name. Its methods see the name, so they fit only then. -/
theorem declareClass (hl : l.Holds programs h) {x : String} (hx : x ≠ "this" ∧ x ≠ "super")
    (i : ScopeId) {d : Declared}
    (hsuper : ∀ {s}, d.superclass = some s →
      s < h.classes.size ∧ h.scopes.lookup? d.closure "super" = some (.class s))
    (hms : ∀ {f}, f ∈ d.methods → ∃ context r outer, Visits programs (.function f context r) ∧
      r.scopes = [("this", true)] :: outer ∧
      (h.define i x (.class h.classes.size)).scopes.Fits True outer d.closure ∧
      (outer.head? = some [("super", true)] → d.superclass.isSome)) :
    Ledger.Holds programs
      ((h.define i x (.class h.classes.size)).addClass
        ⟨x, d.superclass, Eval.methodTable d.methods d.closure⟩)
      { l with classes := l.classes.push d } := by
  have g := Grows.define hx h l i (.class h.classes.size)
  refine ⟨(hl.toRecords.of_grows g rfl rfl).addClass ⟨⟨x, ?_⟩, fun hs => ?_, hms⟩, ?_⟩
  · simp [Heap.addClass, Heap.define]
  · exact ⟨(hsuper hs).1, g.implicit (.inr rfl) (hsuper hs).2⟩
  · refine AllMade.define (hl.made.addClass _) (fun c hc => ?_) i x
    obtain rfl := Value.class.inj hc
    simp [Heap.addClass]

end Ledger.Holds

/-- The function is a method of the class, not bound to an instance. -/
def IsMethod (l : Ledger) (c : ClassId) (f : Function) : Prop :=
  ∃ d m, l.classes[c]? = some d ∧ m ∈ d.methods ∧ f = ⟨m, d.closure, m.isInitializer⟩

theorem isMethod_of_nearest? {c owner : ClassId} {x : String} {f : Function}
    (hn : l.nearest? c x = some (owner, f)) : IsMethod l owner f := by
  fun_induction Ledger.nearest? l c x with
  | case1 c g hg =>
    obtain ⟨rfl, rfl⟩ := Prod.mk.inj (Option.some.inj hn)
    obtain ⟨d, hd, hown⟩ := Option.bind_eq_some_iff.1 hg
    obtain ⟨m, hm, rfl⟩ := Option.map_eq_some_iff.1 hown
    exact ⟨d, m, hd, List.mem_reverse.1 (List.mem_of_find?_eq_some hm), rfl⟩
  | case2 c _ s hs ih => exact ih hn
  | case3 => cases hn

end Inheritance
end Treewalk
