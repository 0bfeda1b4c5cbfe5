import Treewalk.Proofs.Evaluation.Compositional
/-!
# What an evaluation leaves alone

However it ends, an evaluation comes back to the scope it started in, and it takes nothing away: every
scope keeps its link, every function and class stays as it was made, every instance keeps its class
and its fields (`expr_frames`, `stmt_frames`). New names appear only in the scope that is executing,
and only by a statement.
-/

namespace Treewalk

/-! ### Scopes -/

/-- `s'` is `s` with more scopes; of the old ones only those in `gains` have new names. -/
structure Scopes.Extends (gains : ScopeId → Prop) (s s' : Scopes) : Prop where
  size : s.size ≤ s'.size
  parent : ∀ j < s.size, s'.parent? j = s.parent? j
  kept : ∀ j x, (s.lookup? j x).isSome → (s'.lookup? j x).isSome
  closed : ∀ j < s.size, ¬ gains j → ∀ x, (s'.lookup? j x).isSome → (s.lookup? j x).isSome

namespace Scopes

variable {s s' s'' : Scopes} {gains gains' : ScopeId → Prop}

theorem lookup?_of_le {j : ScopeId} (h : s.size ≤ j) (x : String) : s.lookup? j x = none := by
  simp [lookup?, Array.getElem?_eq_none h]

theorem lt_size_of_isSome {j : ScopeId} {x : String} (h : (s.lookup? j x).isSome) : j < s.size := by
  by_contra hle
  rw [lookup?_of_le (Nat.le_of_not_lt hle)] at h; cases h

theorem parent?_of_le {j : ScopeId} (h : s.size ≤ j) : s.parent? j = none := by
  simp [parent?, Array.getElem?_eq_none h]

theorem size_add (s : Scopes) (b : Bindings Value) (p : Option ScopeId) :
    (s.add b p).size = s.size + 1 := by
  simp [add, size]

theorem cells_add_of_lt {j : ScopeId} (h : j < s.size) (b : Bindings Value) (p : Option ScopeId) :
    (s.add b p).cells[j]? = s.cells[j]? := by
  simp only [add]; exact Array.getElem?_push_lt h ▸ (Array.getElem?_eq_getElem h).symm

theorem lookup?_add_of_lt {j : ScopeId} (h : j < s.size) (b : Bindings Value) (p : Option ScopeId)
    (x : String) : (s.add b p).lookup? j x = s.lookup? j x := by
  rw [lookup?, cells_add_of_lt h, lookup?]

theorem parent?_add_of_lt {j : ScopeId} (h : j < s.size) (b : Bindings Value) (p : Option ScopeId) :
    (s.add b p).parent? j = s.parent? j := by
  rw [parent?, cells_add_of_lt h, parent?]

@[simp] theorem lookup?_add_size (s : Scopes) (b : Bindings Value) (p : Option ScopeId)
    (x : String) : (s.add b p).lookup? s.size x = b.get? x := by
  simp [lookup?, add, size]

theorem parent?_add_size (s : Scopes) (b : Bindings Value) {p : ScopeId} (h : p < s.size) :
    (s.add b (some p)).parent? s.size = some p := by
  simp [parent?, add, size, Option.filter, show p < s.cells.size from h]

theorem Extends.refl (gains : ScopeId → Prop) (s : Scopes) : Extends gains s s :=
  ⟨Nat.le_refl _, fun _ _ => rfl, fun _ _ h => h, fun _ _ _ _ h => h⟩

theorem Extends.trans (h : Extends gains s s') (h' : Extends gains' s' s'')
    (hg : ∀ j < s.size, gains' j → gains j) : Extends gains s s'' where
  size := Nat.le_trans h.size h'.size
  parent j hj := (h'.parent j (Nat.lt_of_lt_of_le hj h.size)).trans (h.parent j hj)
  kept j x hx := h'.kept j x (h.kept j x hx)
  closed j hj hn x hx := by
    refine h.closed j hj hn x (h'.closed j (Nat.lt_of_lt_of_le hj h.size) ?_ x hx)
    exact fun hg' => hn (hg j hj hg')

theorem Extends.add (gains : ScopeId → Prop) (s : Scopes) (b : Bindings Value)
    (p : Option ScopeId) : Extends gains s (s.add b p) where
  size := by rw [size_add]; exact Nat.le_succ _
  parent _ hj := parent?_add_of_lt hj b p
  kept j x hx := by rwa [lookup?_add_of_lt (lt_size_of_isSome hx)]
  closed j hj _ x hx := by rwa [lookup?_add_of_lt hj] at hx

theorem Extends.define {i : ScopeId} (hi : gains i) (s : Scopes) (x : String) (v : Value) :
    Extends gains s (s.define i x v) where
  size := Nat.le_of_eq (size_define ..).symm
  parent j _ := parent?_define s i j x v
  kept j y hy := by
    by_cases hj : i = j ∧ x = y
    · obtain ⟨rfl, rfl⟩ := hj
      rw [lookup?_define_self (lt_size_of_isSome hy)]; rfl
    · rwa [lookup?_define_of_ne (by tauto)]
  closed j _ hn y hy := by
    rwa [lookup?_define_of_ne (.inl (by rintro rfl; exact hn hi))] at hy

/-- Writing to a name that is bound binds no new one. -/
theorem Extends.define_of_isSome {i : ScopeId} {x : String} (hi : (s.lookup? i x).isSome)
    (v : Value) : Extends gains s (s.define i x v) where
  size := Nat.le_of_eq (size_define ..).symm
  parent j _ := parent?_define s i j x v
  kept j y hy := (@Extends.define (fun _ => True) i trivial s x v).kept j y hy
  closed j _ _ y hy := by
    by_cases hj : i = j ∧ x = y
    · obtain ⟨rfl, rfl⟩ := hj; exact hi
    · rwa [lookup?_define_of_ne (by tauto)] at hy

end Scopes

/-! ### The heap -/

/-- `h'` is `h` with more objects; new names, fields and nothing else are in the old ones. -/
structure Heap.Extends (gains : ScopeId → Prop) (h h' : Heap) : Prop where
  scopes : h.scopes.Extends gains h'.scopes
  functions : ∀ (f : FunctionId) g, h.functions[f]? = some g → h'.functions[f]? = some g
  classes : ∀ (c : ClassId) k, h.classes[c]? = some k → h'.classes[c]? = some k
  instances : ∀ (i : InstanceId) o, h.instances[i]? = some o → ∃ o', h'.instances[i]? = some o' ∧
    o'.ofClass = o.ofClass ∧ ∀ x, (o.fields.get? x).isSome → (o'.fields.get? x).isSome

namespace Heap

variable {h h' h'' : Heap} {gains gains' : ScopeId → Prop}

theorem Extends.of_scopes {s : Scopes} (hs : h.scopes.Extends gains s) :
    Extends gains h { h with scopes := s } :=
  ⟨hs, fun _ _ e => e, fun _ _ e => e, fun _ o e => ⟨o, e, rfl, fun _ hx => hx⟩⟩

theorem Extends.refl (gains : ScopeId → Prop) (h : Heap) : Extends gains h h :=
  .of_scopes (.refl gains _)

theorem Extends.mono (e : Extends gains h h') (hg : ∀ j, gains j → gains' j) :
    Extends gains' h h' :=
  ⟨⟨e.scopes.size, e.scopes.parent, e.scopes.kept,
    fun j hj hn => e.scopes.closed j hj fun hgj => hn (hg j hgj)⟩,
    e.functions, e.classes, e.instances⟩

theorem Extends.trans (e : Extends gains h h') (e' : Extends gains' h' h'')
    (hg : ∀ j < h.scopes.size, gains' j → gains j) : Extends gains h h'' where
  scopes := e.scopes.trans e'.scopes hg
  functions f g hf := e'.functions f g (e.functions f g hf)
  classes c k hc := e'.classes c k (e.classes c k hc)
  instances i o ho := by
    obtain ⟨o₁, h₁, hc₁, hf₁⟩ := e.instances i o ho
    obtain ⟨o₂, h₂, hc₂, hf₂⟩ := e'.instances i o₁ h₁
    exact ⟨o₂, h₂, hc₂.trans hc₁, fun x hx => hf₂ x (hf₁ x hx)⟩

theorem getElem?_push_of_some {α : Type} {a : Array α} {i : Nat} {x y : α} (h : a[i]? = some y) :
    (a.push x)[i]? = some y := by
  have hi : i < a.size := by
    by_contra hle
    rw [Array.getElem?_eq_none (Nat.le_of_not_lt hle)] at h; cases h
  rw [Array.getElem?_push_lt hi, ← h, Array.getElem?_eq_getElem hi]

theorem Extends.addScope (gains : ScopeId → Prop) (h : Heap) (b : Bindings Value) (p : ScopeId) :
    Extends gains h (h.addScope b p) :=
  .of_scopes (.add gains _ b _)

/-- What gains names only in a new scope gains none in the old ones. -/
theorem Extends.of_addScope {b : Bindings Value} {p : ScopeId}
    (e : (h.addScope b p).Extends gains' h') (hg : ∀ j < h.scopes.size, ¬ gains' j) :
    Extends gains h h' :=
  (addScope gains h b p).trans e fun j hj hj' => absurd hj' (hg j hj)

theorem Extends.define {i : ScopeId} (hi : gains i) (h : Heap) (x : String) (v : Value) :
    Extends gains h (h.define i x v) :=
  .of_scopes (.define hi _ x v)

theorem Extends.addFunction (gains : ScopeId → Prop) (h : Heap) (f : Function) :
    Extends gains h (h.addFunction f) where
  scopes := .refl gains _
  functions _ _ hf := getElem?_push_of_some hf
  classes _ _ hc := hc
  instances _ o ho := ⟨o, ho, rfl, fun _ hx => hx⟩

theorem Extends.addClass (gains : ScopeId → Prop) (h : Heap) (c : Class) :
    Extends gains h (h.addClass c) where
  scopes := .refl gains _
  functions _ _ hf := hf
  classes _ _ hc := getElem?_push_of_some hc
  instances _ o ho := ⟨o, ho, rfl, fun _ hx => hx⟩

theorem Extends.addInstance (gains : ScopeId → Prop) (h : Heap) (c : ClassId) :
    Extends gains h (h.addInstance c) where
  scopes := .refl gains _
  functions _ _ hf := hf
  classes _ _ hc := hc
  instances _ o ho := ⟨o, getElem?_push_of_some ho, rfl, fun _ hx => hx⟩

theorem Extends.setField (gains : ScopeId → Prop) (h : Heap) (i : InstanceId) (x : String)
    (v : Value) : Extends gains h (h.setField i x v) where
  scopes := .refl gains _
  functions _ _ hf := hf
  classes _ _ hc := hc
  instances j o ho := by
    simp only [Heap.setField, Array.getElem?_modify, ho]
    split
    · refine ⟨_, rfl, rfl, fun y hy => ?_⟩
      simp only [Bindings.get?_set]; split
      · rfl
      · exact hy
    · exact ⟨o, rfl, rfl, fun _ hx => hx⟩

/-- Opening a scope and defining a name in an older one commute. -/
theorem addScope_define {c : ScopeId} (hc : c < h.scopes.size) (b : Bindings Value)
    (p : ScopeId) (x : String) (v : Value) :
    (h.addScope b p).define c x v = (h.define c x v).addScope b p := by
  have hcells : (h.scopes.add b (some p)).define c x v = (h.scopes.define c x v).add b (some p) := by
    refine congrArg Scopes.mk (Array.ext_getElem? fun i => ?_)
    simp only [Scopes.add, Scopes.define, Array.getElem?_modify, Array.getElem?_push,
      Array.size_modify]
    by_cases hi : i = h.scopes.cells.size
    · rw [if_pos hi, if_neg (hi ▸ Nat.ne_of_lt hc), if_pos hi]
    · rw [if_neg hi, if_neg hi]
  rw [Heap.define, Heap.addScope, hcells]
  rfl

end Heap

/-! ### Evaluations -/

/-- A primitive change only extends the heap. -/
theorem Machine.Step.frames {m m' : Machine} (h : m.Step m') (gains : ScopeId → Prop) :
    m'.cursor = m.cursor ∧ m.heap.Extends gains m'.heap := by
  cases h with
  | scope b p => exact ⟨rfl, .addScope _ _ b p⟩
  | function f closure => exact ⟨rfl, .addFunction _ _ _⟩
  | @method c x f i hf =>
    exact ⟨rfl, (Heap.Extends.addScope gains _ _ _).trans (.addFunction gains _ _) fun _ _ h => h⟩
  | «class» => exact ⟨rfl, .addClass _ _ _⟩
  | «instance» c => exact ⟨rfl, .addInstance _ _ c⟩
  | field i x v => exact ⟨rfl, .setField _ _ i x v⟩
  | output | clock => exact ⟨rfl, .refl _ _⟩

namespace Eval

variable {α β : Type}

/-- Control is back in its scope, and the heap is only extended. Behind a statement the scope may have
new names. -/
def Framed (S : Prop) (m : Machine) (r : Result α) : Prop :=
  (ending r).cursor = m.cursor ∧ m.heap.Extends (fun j => S ∧ j = m.cursor) (ending r).heap

/-- Declaring a name gives it to the scope that is executing. -/
theorem framed_define {σ : Setting} {m : Machine} (x : String) (v : Value) :
    Framed True m (define x v σ m) :=
  ⟨rfl, .define ⟨trivial, rfl⟩ _ x v⟩

/-- An assignment is to a scope that has the name. -/
theorem framed_assign {S : Prop} {σ : Setting} {m : Machine} (node : NodeId) (name : Token)
    (v : Value) : Framed S m (assign node name v σ m) := by
  unfold Framed assign
  rw [bind_run, locate_run]
  cases hj : located σ m node name with
  | error fault => exact ⟨rfl, .refl _ _⟩
  | ok j => exact ⟨rfl, .of_scopes (.define_of_isSome (isSome_of_located hj) v)⟩

theorem compositional_framed : Compositional fun S m {_} r _ => Framed S m r :=
  .of_endings
    (R := fun S m m' => m'.cursor = m.cursor ∧ m.heap.Extends (fun j => S ∧ j = m.cursor) m'.heap)
    (fun _ _ => ⟨rfl, .refl _ _⟩)
    (fun h h' => ⟨h'.1.trans h.1, h.2.trans h'.2 fun _ _ hj => ⟨hj.1, hj.2.trans h.1⟩⟩)
    (fun hs => hs.frames _)
    fun _ _ h => ⟨rfl, h.2.of_addScope fun _ hj hc => absurd hc.2 (Nat.ne_of_lt hj)⟩

/-- The machine behind an evaluation, however it ends. -/
def after (x : Eval α) (σ : Setting) (m : Machine) : Machine :=
  match x σ m with
  | .ok _ m' => m'
  | .error _ m' => m'

/-- The evaluation comes back to its scope and only extends the heap. If it is a statement's, the
scope may gain names. -/
structure Frames (statement : Prop) (x : Eval α) : Prop where
  run : ∀ σ m, (after x σ m).cursor = m.cursor ∧
    m.heap.Extends (fun j => statement ∧ j = m.cursor) (after x σ m).heap

variable {S : Prop} {x : Eval α} {f : α → Eval β}

theorem Frames.of_framed (h : ∀ {σ m}, Framed S m (x σ m)) : Frames S x :=
  ⟨fun _ _ => h⟩

theorem Frames.framed (h : Frames S x) (σ : Setting) (m : Machine) : Framed S m (x σ m) :=
  h.run σ m

theorem Frames.ok (h : Frames S x) {σ : Setting} {m m' : Machine} {a : α} (e : x σ m = .ok a m') :
    m'.cursor = m.cursor ∧ m.heap.Extends (fun j => S ∧ j = m.cursor) m'.heap := by
  have := h.run σ m; simpa only [after, e] using this

/-- Statements in a scope of their own give the surrounding ones no names. -/
theorem frames_within_newScope {body : Eval α} (h : Frames True body) (b : Bindings Value)
    (p : ScopeId) : Frames S (newScope b p >>= fun scope => within scope body) :=
  .of_framed (compositional_framed.opened (y := body) (h.framed _ _))

theorem frames_statements {exec : Stmt → Eval Completion} (hs : ∀ s, Frames True (exec s))
    (body : List Stmt) : Frames True (statements exec body) :=
  ⟨fun σ m => @Compositional.statements _ σ m compositional_framed exec exec
    (fun s => (hs s).framed σ) body⟩

theorem frames_callValue {exec : Stmt → Eval Completion} (hs : ∀ s, Frames True (exec s))
    (callee : Value) (arguments : List Value) (line : Nat) :
    Frames S (callValue exec callee arguments line) :=
  ⟨fun σ m => @Compositional.callValue _ S σ m compositional_framed exec exec
    (fun s => (hs s).framed σ) callee arguments line⟩

/-! ### Whole evaluations -/

/-- An expression gives no old scope a new name. -/
theorem expr_frames (n : Nat) (e : Expr) (S : Prop) : Frames S (expr n e) :=
  .of_framed (compositional_framed.expr framed_assign framed_define n e)

/-- A statement gives new names only to the scope that is executing. -/
theorem stmt_frames (n : Nat) (s : Stmt) : Frames True (stmt n s) :=
  .of_framed (compositional_framed.stmt framed_assign framed_define n s)

theorem program_frames (fuel : Nat) (p : List Stmt) : Frames True (program fuel p) :=
  .of_framed (compositional_framed.program framed_assign framed_define fuel p)

end Eval
end Treewalk
