import Treewalk.Proofs.Evaluation.Nodes
/-!
# Initializers

The walk and the heap agree on what an initializer is. A function is flagged as one only if it is
declared under the name of one (`Heap.Flagged`), and where its closure binds `this` it was walked as
what its name says (`Visits.context_eq`). In a program without static errors no return of such a body
has a value (`Visits.bare`), so the body finishes normally or with nil, whatever it is run on and
however deep in blocks and loops a return is (`bare_of_flagged`).
-/

namespace Treewalk

/-! ### Statements -/

mutual

/-- No return of the statement has a value. Returns of functions that it declares are their own. -/
def Stmt.Bare : Stmt → Prop
  | .block body => Stmt.AllBare body
  | .if _ consequent none => consequent.Bare
  | .if _ consequent (some alternative) => consequent.Bare ∧ alternative.Bare
  | .while _ body => body.Bare
  | .return _ value => value = none
  | .expression _ | .print _ | .var _ _ | .function _ | .class _ _ _ => True

def Stmt.AllBare : List Stmt → Prop
  | [] => True
  | s :: rest => s.Bare ∧ Stmt.AllBare rest

end

namespace Eval

variable {α : Type} {σ : Setting} {m : Machine} {eval : Expr → Eval Value}
  {exec : Stmt → Eval Completion}

/-- If there is a return, it is without a value. -/
def ReturnsNil (r : Result Completion) : Prop :=
  ∀ v m, r = .ok (.returned v) m → v = .nil

theorem returnsNil_bind {x : Eval α} {f : α → Eval Completion}
    (h : ∀ a m', ReturnsNil (f a σ m')) : ReturnsNil ((x >>= f) σ m) := by
  cases hx : x σ m with
  | ok a m' => rw [bind_ok hx]; exact h a m'
  | error e m' => rw [bind_error hx]; nofun

theorem returnsNil_normal : ReturnsNil ((pure .normal : Eval Completion) σ m) := by
  rintro v m' ⟨⟩

theorem returnsNil_throw (e : Stop) : ReturnsNil ((throw e : Eval Completion) σ m) := by
  rintro v m' ⟨⟩

theorem returnsNil_within {x : Eval Completion} {scope : ScopeId}
    (h : ∀ m, ReturnsNil (x σ m)) : ReturnsNil (within scope x σ m) := by
  intro v m' hr
  rw [within_run] at hr
  have inside := h { m with cursor := scope }
  cases hx : x σ { m with cursor := scope } with
  | ok c m₁ =>
    rw [hx] at hr inside
    cases hr
    exact inside v m₁ rfl
  | error e m₁ => rw [hx] at hr; cases hr

/-- What a return passes by adds none of its own. -/
theorem returnsNil_onward {x y : Eval Completion} (hx : ReturnsNil (x σ m))
    (hy : ∀ m', ReturnsNil (y σ m')) :
    ReturnsNil ((x >>= fun c => match c with
      | .normal => y
      | .returned v => pure (.returned v)) σ m) := by
  intro v m' hr
  cases he : x σ m with
  | error e m₁ => rw [bind_error he] at hr; cases hr
  | ok c m₁ =>
    rw [bind_ok he] at hr
    rw [he] at hx
    cases c with
    | normal => exact hy m₁ v m' hr
    | returned w => cases hr; exact hx v _ rfl

variable (hs : ∀ {s : Stmt}, s.Bare → ∀ m, ReturnsNil (exec s σ m))

include hs

theorem statements_returnsNil {body : List Stmt} (hb : Stmt.AllBare body) (m : Machine) :
    ReturnsNil (statements exec body σ m) := by
  induction body generalizing m with
  | nil => exact returnsNil_normal
  | cons s rest ih =>
    rw [Stmt.AllBare] at hb
    exact returnsNil_onward (hs hb.1 m) fun m' => ih hb.2 m'

theorem loop_returnsNil {body : Stmt} (hb : body.Bare) (condition : Expr) (n : Nat) (m : Machine) :
    ReturnsNil (loop eval exec condition body n σ m) := by
  induction n generalizing m with
  | zero => exact returnsNil_throw _
  | succ n ih =>
    refine returnsNil_bind fun v m₁ => ?_
    split
    · exact returnsNil_onward (hs hb m₁) fun m₂ => ih m₂
    · exact returnsNil_normal

theorem stmtRule_returnsNil {s : Stmt} (hb : s.Bare) (n : Nat) (m : Machine) :
    ReturnsNil (stmtRule eval exec n s σ m) := by
  match s with
  | .expression e => exact returnsNil_bind fun _ _ => returnsNil_normal
  | .print e =>
    exact returnsNil_bind fun _ _ => returnsNil_bind fun _ _ => returnsNil_bind fun _ _ =>
      returnsNil_normal
  | .var name none => exact returnsNil_bind fun _ _ => returnsNil_normal
  | .var name (some e) =>
    exact returnsNil_bind fun _ _ => returnsNil_bind fun _ _ => returnsNil_normal
  | .block body =>
    rw [Stmt.Bare] at hb
    exact returnsNil_bind fun _ _ => returnsNil_bind fun _ _ =>
      returnsNil_within (statements_returnsNil hs hb)
  | .if condition consequent alternative =>
    refine returnsNil_bind fun v m₁ => ?_
    cases alternative with
    | none =>
      rw [Stmt.Bare] at hb
      split
      · exact hs hb m₁
      · exact returnsNil_normal
    | some alternative =>
      rw [Stmt.Bare] at hb
      split
      · exact hs hb.1 m₁
      · exact hs hb.2 m₁
  | .while condition body =>
    rw [Stmt.Bare] at hb
    exact loop_returnsNil hs hb condition n m
  | .function f =>
    exact returnsNil_bind fun _ _ => returnsNil_bind fun _ _ => returnsNil_bind fun _ _ =>
      returnsNil_normal
  | .return _ none => rintro v m' ⟨⟩; rfl
  | .return _ (some e) => rw [Stmt.Bare] at hb; cases hb
  | .class name none methods => exact returnsNil_bind fun _ _ => returnsNil_normal
  | .class name (some superclass) methods =>
    refine returnsNil_bind fun v m₁ => ?_
    split
    · exact returnsNil_bind fun _ _ => returnsNil_normal
    · exact returnsNil_throw _

omit hs

/-- However deep in blocks and loops a return is, it is without a value. -/
theorem stmt_returnsNil (n : Nat) {s : Stmt} (hb : s.Bare) (m : Machine) :
    ReturnsNil (stmt n s σ m) := by
  induction n generalizing s m with
  | zero => exact returnsNil_throw _
  | succ n ih => exact stmtRule_returnsNil (fun hb m => ih hb m) hb n m

end Eval

/-! ### What the walk says of bodies -/

variable {programs : List (List Stmt)}

theorem Resolver.initializer_checkReturn {r : Resolver} (h : r.inFunction = .initializer)
    (keyword : Token) : (r.checkReturn keyword true).errors ≠ [] := by
  simp [checkReturn, errorIf, error, h]

mutual

/-- In an initializer a return with a value is an error. -/
theorem Visits.bare (ha : ∀ p ∈ programs, Accepted p) : ∀ {s : Stmt} {r : Resolver},
    Visits programs (.stmt s r) → r.inFunction = .initializer → s.Bare
  | .expression _, _, _, _ | .print _, _, _, _ | .var _ _, _, _, _ | .function _, _, _, _
  | .class _ _ _, _, _, _ => by rw [Stmt.Bare]; trivial
  | .block body, r, hv, hr => by
    rw [Stmt.Bare]
    exact Visits.allBare ha (hv.part (p := .stmts body (r.push [])) (by simp [Call.parts])) hr
  | .if condition consequent none, r, hv, hr => by
    rw [Stmt.Bare]
    have before := (Resolver.expr_notes condition r).inFunction.trans hr
    exact Visits.bare ha (hv.part (by simp [Call.parts])) before
  | .if condition consequent (some alternative), r, hv, hr => by
    rw [Stmt.Bare]
    have before := (Resolver.expr_notes condition r).inFunction.trans hr
    have between := (Resolver.stmt_gains consequent (Resolver.expr condition r)).inFunction.trans
      before
    exact ⟨Visits.bare ha (hv.part (by simp [Call.parts])) before,
      Visits.bare ha (hv.part (by simp [Call.parts])) between⟩
  | .while condition body, r, hv, hr => by
    rw [Stmt.Bare]
    have before := (Resolver.expr_notes condition r).inFunction.trans hr
    exact Visits.bare ha (hv.part (by simp [Call.parts])) before
  | .return _ none, _, _, _ => by rw [Stmt.Bare]
  | .return keyword (some e), r, hv, hr => by
    have part : Visits programs (.expr e (r.checkReturn keyword true)) :=
      hv.part (by simp [Call.parts])
    have none : (Resolver.expr e (r.checkReturn keyword true)).errors = [] :=
      part.errors_eq_nil ha
    have kept := (Resolver.expr_notes e (r.checkReturn keyword true)).errors
    rw [none] at kept
    exact absurd (List.suffix_nil.1 kept) (Resolver.initializer_checkReturn hr keyword)

theorem Visits.allBare (ha : ∀ p ∈ programs, Accepted p) : ∀ {body : List Stmt} {r : Resolver},
    Visits programs (.stmts body r) → r.inFunction = .initializer → Stmt.AllBare body
  | [], _, _, _ => by rw [Stmt.AllBare]; trivial
  | s :: rest, r, hv, hr => by
    rw [Stmt.AllBare]
    have behind := (Resolver.stmt_gains s r).inFunction.trans hr
    exact ⟨Visits.bare ha (hv.part (by simp [Call.parts])) hr,
      Visits.allBare ha (hv.part (by simp [Call.parts])) behind⟩

end

/-- Functions are walked where they are declared and where they are methods. -/
theorem Call.function_mem_parts {f : FunctionDecl} {context : FunctionContext} {r : Resolver}
    {c : Call} (h : .function f context r ∈ c.parts) :
    (∃ r' : Resolver, c = .stmt (.function f) r' ∧ r = r'.named f.name) ∨
      context = f.methodContext := by
  match c with
  | .expr e r' => cases e <;> simp [parts] at h
  | .exprs [] _ | .exprs (_ :: _) _ | .stmts [] _ | .stmts (_ :: _) _ => simp [parts] at h
  | .methods [] _ => simp [parts] at h
  | .methods (m :: rest) r' =>
    simp only [parts, List.mem_cons, List.not_mem_nil, or_false, reduceCtorEq] at h
    obtain ⟨rfl, rfl, -⟩ := Call.function.inj h
    exact .inr rfl
  | .function ⟨_, _, _⟩ _ _ => simp [parts] at h
  | .stmt (.function g) r' =>
    obtain ⟨rfl, -, rfl⟩ := Call.function.inj (List.mem_singleton.1 h)
    exact .inl ⟨r', rfl, rfl⟩
  | .stmt (.expression _) _ | .stmt (.print _) _ | .stmt (.var _ none) _
  | .stmt (.var _ (some _)) _ | .stmt (.block _) _ | .stmt (.if _ _ none) _
  | .stmt (.if _ _ (some _)) _ | .stmt (.while _ _) _ | .stmt (.return _ none) _
  | .stmt (.return _ (some _)) _ | .stmt (.class _ none _) _ | .stmt (.class _ (some _) _) _ =>
    simp [parts] at h

/-- Right inside the scope of `this` only methods are walked. -/
theorem Visits.context_eq (hf : ∀ p ∈ programs, Stmt.AllFormed Token.Spelled p) {f : FunctionDecl}
    {context : FunctionContext} {r : Resolver} (hv : Visits programs (.function f context r))
    (hr : r.scopes.head? = some [("this", true)]) : context = f.methodContext := by
  cases hv with
  | part hc hp =>
    rcases Call.function_mem_parts hp with ⟨r', rfl, rfl⟩ | h
    · -- behind its declaration a function's own name is in the innermost scope
      exfalso
      have hformed := hc.formed hf
      simp only [Call.Formed, Stmt.Formed] at hformed
      have hname : "this" ≠ f.name.lexeme := (hformed.name.ne_keyword .this).symm
      rw [Resolver.scopes_named] at hr
      cases hs : r'.scopes with
      | nil => rw [hs] at hr; cases hr
      | cons b outer =>
        rw [hs] at hr
        have head : b.set f.name.lexeme true = [("this", true)] := Option.some.inj hr
        have own : (b.set f.name.lexeme true).get? f.name.lexeme = some true := by
          rw [Bindings.get?_set, if_pos rfl]
        rw [head, Bindings.get?, if_neg hname] at own
        cases own
    · exact h

theorem Visits.bare_body (ha : ∀ p ∈ programs, Accepted p) {f : FunctionDecl} {r : Resolver}
    (hv : Visits programs (.function f .initializer r)) : Stmt.AllBare f.body := by
  obtain ⟨name, parameters, body⟩ := f
  have inside : Visits programs (.stmts body (r.functionBody parameters .initializer)) :=
    hv.part (by simp [Call.parts])
  exact inside.allBare ha rfl

/-! ### Flags -/

/-- A function is flagged as an initializer only if it is declared as one, and a method exactly if it
is. Methods are found under their own names. -/
structure Heap.Flagged (h : Heap) : Prop where
  functions : ∀ {i : FunctionId} {f : Function}, h.functions[i]? = some f →
    f.isInitializer = true → f.declaration.isInitializer = true
  methods : ∀ {c : ClassId} {k : Class} {x : String} {f : Function}, h.classes[c]? = some k →
    k.methods.get? x = some f →
    f.declaration.name.lexeme = x ∧ f.isInitializer = f.declaration.isInitializer

namespace Heap

variable {h : Heap}

theorem Flagged.initial : Heap.initial.Flagged where
  functions hf := by simp [Heap.initial] at hf
  methods hk _ := by simp [Heap.initial] at hk

theorem Flagged.findMethod? (hh : h.Flagged) {c : ClassId} {x : String} {f : Function}
    (hf : h.findMethod? c x = some f) :
    f.declaration.name.lexeme = x ∧ f.isInitializer = f.declaration.isInitializer := by
  fun_induction Heap.findMethod? h c x with
  | case1 c g hg =>
    obtain rfl := Option.some.inj hf
    obtain ⟨k, hk, hm⟩ := Option.bind_eq_some_iff.1 hg
    exact hh.methods hk hm
  | case2 c _ s hs' ih => exact ih hf
  | case3 => cases hf

theorem Flagged.addFunction (hh : h.Flagged) {f : Function}
    (hf : f.isInitializer = true → f.declaration.isInitializer = true) :
    (h.addFunction f).Flagged where
  functions {i g} hg := by
    simp only [Heap.addFunction, Array.getElem?_push] at hg
    split at hg
    · obtain rfl := Option.some.inj hg; exact hf
    · exact hh.functions hg
  methods := hh.methods

theorem Flagged.addClass (hh : h.Flagged) (name : String) (superclass : Option ClassId)
    (methods : List FunctionDecl) (closure : ScopeId) :
    (h.addClass ⟨name, superclass, Eval.methodTable methods closure⟩).Flagged where
  functions := hh.functions
  methods {c k x f} hk hf := by
    simp only [Heap.addClass, Array.getElem?_push] at hk
    split at hk
    · obtain rfl := Option.some.inj hk
      obtain ⟨m, -, hx, rfl⟩ := Eval.methodTable_get? hf
      exact ⟨hx, rfl⟩
    · exact hh.methods hk hf

/-- Flags are in functions and classes only. -/
theorem Flagged.congr (hh : h.Flagged) {h' : Heap} (hf : h'.functions = h.functions)
    (hc : h'.classes = h.classes) : h'.Flagged :=
  ⟨fun hg => hh.functions (hf ▸ hg), fun hk => hh.methods (hc ▸ hk)⟩

end Heap

theorem Machine.Step.flagged {m m' : Machine} (hs : m.Step m') (h : m.heap.Flagged) :
    m'.heap.Flagged := by
  cases hs with
  | function f closure => exact h.addFunction nofun
  | @method c x f i hf =>
    have bound : (m.heap.addScope [("this", .instance i)] f.closure).Flagged := h.congr rfl rfl
    exact bound.addFunction fun hflag => (h.findMethod? hf).2 ▸ hflag
  | «class» name superclass methods closure => exact h.addClass ..
  | scope | «instance» | field | output | clock => exact h.congr rfl rfl

namespace Eval

/-- Assigning and declaring names makes no functions and no classes. -/
theorem flagged_assign {σ : Setting} {m : Machine} (node : NodeId) (name : Token) (v : Value)
    (h : m.heap.Flagged) : (ending (assign node name v σ m)).heap.Flagged := by
  unfold assign
  rw [bind_run, locate_run]
  cases located σ m node name with
  | error fault => exact h
  | ok i => exact h.congr rfl rfl

theorem flagged_define {σ : Setting} {m : Machine} (x : String) (v : Value)
    (h : m.heap.Flagged) : (ending (define x v σ m)).heap.Flagged :=
  h.congr rfl rfl

/-- Evaluations keep the flags right. -/
theorem compositional_flagged :
    Compositional fun _ m {_} r _ => m.heap.Flagged → (ending r).heap.Flagged :=
  .of_endings (R := fun _ m m' => m.heap.Flagged → m'.heap.Flagged) (fun _ _ h => h)
    (fun h h' hm => h' (h hm)) Machine.Step.flagged fun _ _ h hm => h (hm.congr rfl rfl)

theorem program_flagged {σ : Setting} {m : Machine} (fuel : Nat) (p : List Stmt)
    (h : m.heap.Flagged) : (ending (program fuel p σ m)).heap.Flagged :=
  compositional_flagged.program flagged_assign flagged_define fuel p h

/-- The body of a function that is flagged, and whose closure binds `this`, finishes normally or with
nil. -/
theorem bare_of_flagged (ha : ∀ p ∈ programs, Accepted p) {f : FunctionDecl}
    {context : FunctionContext} {r : Resolver} (hv : Visits programs (.function f context r))
    (hr : r.scopes.head? = some [("this", true)]) (hf : f.isInitializer = true) :
    Visits programs (.function f .initializer r) ∧
      ∀ n σ m, ReturnsNil (statements (stmt n) f.body σ m) := by
  have hcontext : context = .initializer := by
    rw [hv.context_eq (fun p hp => (ha p hp).formed) hr, FunctionDecl.methodContext, if_pos hf]
  subst hcontext
  refine ⟨hv, fun n σ m => ?_⟩
  exact statements_returnsNil (fun hb m => stmt_returnsNil n hb m) (hv.bare_body ha) m

end Eval

end Treewalk
