import Treewalk.Proofs.Evaluation.Watch
/-!
# What evaluation keeps inside

An expression, a block and a call leave every scope that there was with its link and with the names it
had: what they declare is in scopes of their own. Functions and classes stay as they are, instances
keep their class and their fields. A name of an old scope is bound to another value only by an
assignment that finds it there (`evaluation_contained`).

Which bindings stay as they are is said by a `Sparing`, and what an evaluation does to them by
`Machine.Spares`. Evaluations under a watch that speaks in front of every write to a spared binding
spare them all (`Sparing.Watched.compositional`).
-/

namespace Treewalk

/-! ### Looking names up in scopes that gain none -/

namespace Scopes

variable {s s' : Scopes} {i : ScopeId}

theorem Extends.isSome_eq (h : Extends (fun _ => False) s s') (hi : i < s.size) (x : String) :
    (s'.lookup? i x).isSome = (s.lookup? i x).isSome :=
  Bool.eq_iff_iff.2 ⟨h.closed i hi id x, h.kept i x⟩

theorem nearest?_eq (s : Scopes) (i : ScopeId) (x : String) :
    s.nearest? i x =
      if (s.lookup? i x).isSome then some i else (s.parent? i).bind (s.nearest? · x) := by
  rw [nearest?]
  split
  · rfl
  · split
    · next p hp => rw [hp]; rfl
    · next hp => rw [hp]; rfl

theorem Extends.nearest?_eq (h : Extends (fun _ => False) s s') (hi : i < s.size) (x : String) :
    s'.nearest? i x = s.nearest? i x := by
  induction i using Nat.strongRecOn with
  | ind i ih =>
    rw [Scopes.nearest?_eq s', Scopes.nearest?_eq s, h.isSome_eq hi, h.parent i hi]
    cases hp : s.parent? i with
    | none => rfl
    | some p =>
      have hlt : p < i := parent?_lt hp
      rw [Option.bind_some, Option.bind_some, ih p hlt (Nat.lt_trans hlt hi)]

theorem Extends.up?_eq (h : Extends (fun _ => False) s s') (hi : i < s.size) (k : Nat) :
    s'.up? k i = s.up? k i := by
  induction k generalizing i with
  | zero => rfl
  | succ k ih =>
    have link := h.parent i hi
    rw [Scopes.up?, Scopes.up?, link]
    cases hp : s.parent? i with
    | none => rfl
    | some p => exact ih (Nat.lt_trans (parent?_lt hp) hi)

theorem up?_le {k : Nat} {j : ScopeId} (h : s.up? k i = some j) : j ≤ i := by
  induction k generalizing i with
  | zero => cases h; exact Nat.le_refl _
  | succ k ih =>
    obtain ⟨p, hp, hk⟩ := Option.bind_eq_some_iff.1 h
    exact Nat.le_trans (ih hk) (Nat.le_of_lt (parent?_lt hp))

theorem Extends.findAt_eq (h : Extends (fun _ => False) s s') (hi : i < s.size) (k : Nat)
    (x : String) : s'.findAt i k x = s.findAt i k x := by
  unfold findAt ancestor
  rw [h.up?_eq hi]
  cases hk : s.up? k i with
  | none => rfl
  | some j =>
    have bound := h.isSome_eq (Nat.lt_of_le_of_lt (up?_le hk) hi) x
    simp only [Bind.bind, Except.bind, bound]

/-- A write misses whatever has a property that the written binding has not. -/
theorem lookup?_define_of_not {spared : ScopeId → String → Prop} {j : ScopeId} {x y : String}
    (hi : ¬ spared i x) (hj : spared j y) (v : Value) :
    (s.define i x v).lookup? j y = s.lookup? j y := by
  refine lookup?_define_of_ne ?_ v
  by_cases hij : i = j
  · refine .inr ?_
    rintro rfl
    exact hi (hij ▸ hj)
  · exact .inl hij

end Scopes

/-! ### Bindings that are spared -/

/-- Which names are to stay bound as they are, and in which scopes: for an expression or, if the
proposition is true, a statement, while the given scope is executing. -/
abbrev Sparing := Prop → ScopeId → ScopeId → String → Prop

/-- From one machine to a later one: control is where it was, the heap is extended, and what is to be
spared is bound as it was. -/
structure Machine.Spares (K : Sparing) (S : Prop) (m m' : Machine) : Prop where
  cursor : m'.cursor = m.cursor
  extended : m.heap.Extends (fun j => S ∧ j = m.cursor) m'.heap
  same : ∀ {j x}, j < m.heap.scopes.size → K S m.cursor j x →
    m'.heap.scopes.lookup? j x = m.heap.scopes.lookup? j x

namespace Machine

variable {K : Sparing} {S : Prop} {m m' m'' : Machine}

theorem Spares.refl (K : Sparing) (S : Prop) (m : Machine) : m.Spares K S m :=
  ⟨rfl, .refl _ _, fun _ _ => rfl⟩

theorem Spares.trans (h : m.Spares K S m') (h' : m'.Spares K S m'') : m.Spares K S m'' where
  cursor := h'.cursor.trans h.cursor
  extended := h.extended.trans h'.extended fun _ _ hj => ⟨hj.1, hj.2.trans h.cursor⟩
  same {j x} hj hk := by
    have later : j < m'.heap.scopes.size := Nat.lt_of_lt_of_le hj h.extended.scopes.size
    exact (h'.same later (h.cursor ▸ hk)).trans (h.same hj hk)

/-- A primitive change writes to no scope that there was. -/
theorem Step.lookup?_eq (h : m.Step m') {j : ScopeId} (hj : j < m.heap.scopes.size) (x : String) :
    m'.heap.scopes.lookup? j x = m.heap.scopes.lookup? j x := by
  cases h with
  | scope | method => exact Scopes.lookup?_add_of_lt hj ..
  | function | «class» | «instance» | field | output | clock => rfl

theorem Step.spares (h : m.Step m') (K : Sparing) (S : Prop) : m.Spares K S m' :=
  have framed := h.frames fun j => S ∧ j = m.cursor
  ⟨framed.1, framed.2, fun hj _ => h.lookup?_eq hj _⟩

end Machine

/-- Under the watch nothing is written to what is to be spared. What is to be spared when control
enters a new scope is at least what was to be spared outside. -/
structure Sparing.Watched (K : Sparing) (w : Watch) (σ : Setting) : Prop where
  inner {S : Prop} {c i j : ScopeId} {x : String} : j < i → K S c j x → K True i j x
  assign {S : Prop} {m : Machine} {node : NodeId} {name : Token} {value : Expr} {j : ScopeId} :
    w (.expr (.assign node name value)) m = none → Eval.located σ m node name = .ok j →
    ¬ K S m.cursor j name.lexeme
  declare {m : Machine} {s : Stmt} {name : Token} {c : ScopeId} : w (.stmt s) m = none →
    s.declared? = some name → ¬ K True c c name.lexeme

namespace Eval

section Spares

variable {K : Sparing} {w : Watch} {σ : Setting}

/-- What is done in a new scope spares what is to be spared outside. -/
theorem spares_of_inside (h : K.Watched w σ) {S : Prop} {m m' : Machine} {b : Bindings Value}
    {p : ScopeId}
    (hs : Machine.Spares K True
      { m with heap := m.heap.addScope b p, cursor := m.heap.scopes.size } m') :
    m.Spares K S { m' with cursor := m.cursor } where
  cursor := rfl
  extended := hs.extended.of_addScope fun _ hj hc => absurd hc.2 (Nat.ne_of_lt hj)
  same {j x} hj hk := by
    have later : j < (m.heap.addScope b p).scopes.size := by
      show j < (Scopes.add ..).size
      rw [Scopes.size_add]; exact Nat.lt_succ_of_lt hj
    exact (hs.same later (h.inner hj hk)).trans (Scopes.lookup?_add_of_lt hj ..)

theorem spares_assign (h : K.Watched w σ) {S : Prop} {m : Machine} {node : NodeId} {name : Token}
    {value : Expr} (v : Value) (hw : w (.expr (.assign node name value)) m = none) :
    m.Spares K S (ending (assign node name v σ m)) := by
  have framed := framed_assign (S := S) (σ := σ) (m := m) node name v
  refine ⟨framed.1, framed.2, fun {j x} _ hk => ?_⟩
  unfold assign
  rw [bind_run, locate_run]
  cases hi : located σ m node name with
  | error fault => rfl
  | ok i =>
    have unspared : ¬ K S m.cursor i name.lexeme := h.assign hw hi
    exact Scopes.lookup?_define_of_not unspared hk v

theorem spares_define (h : K.Watched w σ) {m₀ : Machine} {s : Stmt} {name : Token}
    (hw : w (.stmt s) m₀ = none) (hd : s.declared? = some name) (v : Value) (m : Machine) :
    m.Spares K True (ending (define name.lexeme v σ m)) := by
  have framed := framed_define (σ := σ) (m := m) name.lexeme v
  refine ⟨framed.1, framed.2, fun {j x} _ hk => ?_⟩
  have unspared : ¬ K True m.cursor m.cursor name.lexeme := h.declare hw hd
  exact Scopes.lookup?_define_of_not unspared hk v

/-- Evaluations under the watch leave alone what is to be spared. -/
theorem compositional_spares (h : K.Watched w σ) (w' : Watch) :
    CompositionalUnder w w' σ fun S m {_} r _ => m.Spares K S (ending r) :=
  have spares : Compositional fun S m {_} r _ => m.Spares K S (ending r) :=
    .of_endings (Machine.Spares.refl K) Machine.Spares.trans (fun hs => hs.spares K _)
      fun _ _ => spares_of_inside h
  spares.under (spares_assign h) (spares_define h) w'

end Spares

/-! ### Expressions, blocks and calls -/

/-- The watch speaks wherever control is at an assignment to `x` that finds it in scope `j`. -/
def Guards (w : Watch) (σ : Setting) (j : ScopeId) (x : String) : Prop :=
  ∀ node (name : Token) value m, name.lexeme = x → located σ m node name = .ok j →
    w (.expr (.assign node name value)) m ≠ none

/-- What an evaluation keeps inside. The machine's old scopes have the links and the names they had,
so that every name is found from them where it was; what names are bound to is changed by assignments
only, in that a watch which guards the name in its scope makes a difference then. Functions and
classes are as they were, instances have the class and the fields they had. -/
structure Contained (σ : Setting) (m : Machine) (x : Eval α) (watched : Watch → Eval α) : Prop where
  extended : m.heap.Extends (fun _ => False) (after x σ m).heap
  nearest : ∀ i < m.heap.scopes.size, ∀ y,
    (after x σ m).heap.scopes.nearest? i y = m.heap.scopes.nearest? i y
  findAt : ∀ i < m.heap.scopes.size, ∀ k y,
    (after x σ m).heap.scopes.findAt i k y = m.heap.scopes.findAt i k y
  assigned : ∀ j < m.heap.scopes.size, ∀ y,
    (after x σ m).heap.scopes.lookup? j y ≠ m.heap.scopes.lookup? j y →
    ∀ w, Guards w σ j y → watched w σ m ≠ x σ m

/-- The bindings that a watch guards, other than those of the scope in which statements are being
executed. -/
def guarded (w : Watch) (σ : Setting) : Sparing := fun S c j x =>
  Guards w σ j x ∧ ¬ (S ∧ j = c)

/-- What is declared in a scope of its own is not guarded. -/
theorem guarded_watched (w : Watch) (σ : Setting) : (guarded w σ).Watched w σ where
  inner hj hk := ⟨hk.1, fun h => Nat.ne_of_lt hj h.2⟩
  assign hw hj hk := hk.1 _ _ _ _ rfl hj hw
  declare _ _ hk := hk.2 ⟨trivial, rfl⟩

theorem Contained.of_frames {σ : Setting} {m : Machine} {x : Eval α} {watched : Watch → Eval α}
    (hx : Frames False x)
    (hs : ∀ w, m.Spares (guarded w σ) False (ending (watched w σ m))) :
    Contained σ m x watched := by
  have extended : m.heap.Extends (fun _ => False) (after x σ m).heap :=
    (hx.run σ m).2.mono fun _ hj => hj.1
  refine ⟨extended, fun i hi y => extended.scopes.nearest?_eq hi y,
    fun i hi k y => extended.scopes.findAt_eq hi k y, fun j hj y hne w hw heq => hne ?_⟩
  have same := (hs w).same hj ⟨hw, fun h => h.1⟩
  rw [heq] at same
  exact same

/-- A block declares its names in a scope of its own. -/
theorem frames_block (n : Nat) (body : List Stmt) : Frames False (stmt n (.block body)) := by
  constructor
  intro σ m
  cases n with
  | zero => exact ⟨rfl, .refl _ _⟩
  | succ n =>
    have inside := frames_within_newScope (S := False) (frames_statements (stmt_frames n) body)
    exact (inside [] m.cursor).run σ m

theorem spares_block {K : Sparing} {w : Watch} {σ : Setting} (hK : K.Watched w σ) (n : Nat)
    (body : List Stmt) (m : Machine) :
    m.Spares K False (ending (stmtWatched w n (.block body) σ m)) := by
  have hP := compositional_spares hK w
  cases n with
  | zero => exact .refl ..
  | succ n =>
    refine hP.check (y := stmtWatched w n (.block body)) fun _ => ?_
    have inside := @Compositional.statements _ σ { m with
        heap := m.heap.addScope [] m.cursor, cursor := m.heap.scopes.size }
      hP.toCompositional (stmtWatched w n) (stmtWatched w n) (hP.nodes n).2 body
    exact hP.opened (S := False) (y := statements (stmtWatched w n) body) inside

/-- On every machine and however it ends, an expression, a block and a call of any value leave the
old scopes, functions, classes and instances as they were, but for the values of fields and of names
that are assigned to. -/
theorem evaluation_contained (σ : Setting) (m : Machine) (n : Nat) :
    (∀ e, Contained σ m (expr n e) fun w => exprWatched w n e) ∧
    (∀ body, Contained σ m (stmt n (.block body)) fun w => stmtWatched w n (.block body)) ∧
    ∀ callee arguments line, Contained σ m (callValue (stmt n) callee arguments line)
      fun w => callValue (stmtWatched w n) callee arguments line := by
  have spares (w : Watch) := compositional_spares (guarded_watched w σ) w
  refine ⟨fun e => ?_, fun body => ?_, fun callee arguments line => ?_⟩
  · exact .of_frames (expr_frames n e False) fun w => ((spares w).nodes n).1 False e m
  · exact .of_frames (frames_block n body) fun w => spares_block (guarded_watched w σ) n body m
  · refine .of_frames (frames_callValue (stmt_frames n) callee arguments line) fun w => ?_
    exact @Compositional.callValue _ False σ m (spares w).toCompositional (stmtWatched w n)
      (stmtWatched w n) ((spares w).nodes n).2 callee arguments line

end Eval

end Treewalk
