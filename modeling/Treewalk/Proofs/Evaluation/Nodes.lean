import Treewalk.Proofs.Evaluation.Parameters
import Treewalk.Proofs.Evaluation.References
import Treewalk.Proofs.Evaluation.Watch
/-!
# Control at the nodes of a program

Whenever control is at a node, the scopes mirror those that the walk had there (`AtNode`), however
deep in calls and whichever function or method the node is in: evaluation under a watch that is
silent at such nodes is the same as without (`program_tracks`). On the way, and also when the
evaluation stops, the heap stays sound, and some stops never occur (`Stop.Tolerable`).
-/

namespace Treewalk

/-- No scope is ever missing. In accepted programs `super` and the operators are what they should
be, and `this` is bound. -/
def RuntimeFault.Tolerable (checked : Prop) : RuntimeFault → Prop
  | .noScope _ _ => False
  | .superOutsideClass | .unaryOperator _ | .binaryOperator _ => ¬ checked
  | .undefinedVariable x => checked → x ≠ "this"
  | _ => True

def Stop.Tolerable (checked : Prop) : Stop → Prop
  | .runtime e => e.fault.Tolerable checked
  | .output _ | .outOfFuel => True

namespace Eval

variable (programs : List (List Stmt)) (checked : Prop)

/-- Control is at the node, in scopes that mirror those of a walk that visits it. -/
def AtNode : Node → Machine → Prop
  | .expr e, m => ∃ r, Visits programs (.expr e r) ∧ m.heap.Sound programs checked ∧
      m.heap.scopes.Ready checked e r.scopes m.cursor
  | .stmt s, m => ∃ r, Visits programs (.stmt s r) ∧ m.heap.Sound programs checked ∧
      m.heap.scopes.Control checked r.scopes m.cursor

/-- How an evaluation may stop. -/
def Tolerated (e : Stop) (h : Heap) : Prop :=
  h.Sound programs checked ∧ e.Tolerable checked

/-- Control is where it was, and no old scope has a new name. -/
structure Quiet (m m' : Machine) : Prop where
  sound : m'.heap.Sound programs checked
  cursor : m'.cursor = m.cursor
  extended : m.heap.Extends (fun _ => False) m'.heap

/-- From machines with `At` on, both evaluations of an expression are the same, in scopes that mirror
those of the walk, and leave it so. -/
def ExprMirrored (σ : Setting) (At : Machine → Prop) (eval eval' : Expr → Eval Value) : Prop :=
  ∀ {e r m}, Visits programs (.expr e r) → At m → m.heap.Sound programs checked →
    m.heap.scopes.Ready checked e r.scopes m.cursor →
    Tracks σ (Tolerated programs checked) m (eval e) (eval' e) fun _ => Quiet programs checked m

/-- Behind a statement that finished normally, the scopes mirror those behind it in the walk. -/
def StmtMirrored (σ : Setting) (exec exec' : Stmt → Eval Completion) : Prop :=
  ∀ {s r m}, Visits programs (.stmt s r) → m.heap.Sound programs checked →
    m.heap.scopes.Control checked r.scopes m.cursor →
    Tracks σ (Tolerated programs checked) m (exec s) (exec' s) fun c m' =>
      m'.heap.Sound programs checked ∧ m'.cursor = m.cursor ∧
        (c = .normal → m'.heap.scopes.Control checked (Resolver.stmt s r).scopes m'.cursor)

variable {programs checked}

theorem Quiet.control {m m' : Machine} (h : Quiet programs checked m m')
    {scopes : List (Bindings Bool)} (hc : m.heap.scopes.Control checked scopes m.cursor) :
    m'.heap.scopes.Control checked scopes m'.cursor := by
  rw [h.cursor]; exact hc.extends h.extended.scopes nofun

theorem Quiet.ready {m m' : Machine} (h : Quiet programs checked m m') {e : Expr}
    {scopes : List (Bindings Bool)} (hr : m.heap.scopes.Ready checked e scopes m.cursor) :
    m'.heap.scopes.Ready checked e scopes m'.cursor := by
  rcases hr with hc | ⟨node, name, x, before, he, hne, hs, hc⟩
  · exact .inl (h.control hc)
  · exact .inr ⟨node, name, x, before, he, hne, hs, h.control hc⟩

theorem Quiet.trans {m m' m'' : Machine} (h : Quiet programs checked m m')
    (h' : Quiet programs checked m' m'') : Quiet programs checked m m'' :=
  ⟨h'.sound, h'.cursor.trans h.cursor, h.extended.trans h'.extended nofun⟩

section Rules

variable {σ : Setting} {m : Machine} {eval eval' : Expr → Eval Value}
  {exec exec' : Stmt → Eval Completion} {n : Nat}

/-- What leaves the heap sound, alone and with control where it was, is quiet. -/
theorem quiet_of_frames {α : Type} {x y : Eval α}
    (h : Tracks σ (Tolerated programs checked) m x y fun _ m' => m'.heap.Sound programs checked)
    (hf : Frames False x) :
    Tracks σ (Tolerated programs checked) m x y fun _ => Quiet programs checked m := by
  refine (h.framed hf).mono fun _ m' ⟨hs, hc, he⟩ => ⟨hs, hc, ?_⟩
  exact he.mono fun _ hj => hj.1

/-! ### References -/

section References

variable {d : Distances} (hd : d.Suits programs checked)
include hd

/-- A distance does not lead out of the walk's scopes. -/
theorem distance_lt {e : Expr} {r : Resolver} {node : NodeId} {k : Nat}
    (hv : Visits programs (.expr e r)) (hn : node ∈ (Call.expr e r).own) (hk : d[node]? = some k) :
    k < r.scopes.length := by
  rw [hd.agrees hv hn] at hk
  obtain ⟨ref, href, hk⟩ := Option.bind_eq_some_iff.1 hk
  refine Resolver.distance?_lt (x := ref.name) ?_
  unfold Expr.reference? at href
  split at href <;> (try split at href) <;> cases href <;> exact hk

end References

variable (hσ : σ.distances.Suits programs checked)
include hσ

theorem found_error {e : Expr} {r : Resolver} {node : NodeId} {name : Token}
    {fault : RuntimeFault} (hv : Visits programs (.expr e r)) (hn : node ∈ (Call.expr e r).own)
    (hr : m.heap.scopes.Ready checked e r.scopes m.cursor)
    (h : found σ m node name = .error fault) : fault = .undefinedVariable name.lexeme := by
  unfold found at h
  split at h
  · next k hk =>
    obtain ⟨j, hj⟩ := hr.up? (distance_lt hσ hv hn hk)
    rw [Scopes.getAt_eq_read hj] at h
    exact Scopes.read_error h
  · exact Scopes.get_error h

theorem located_error {e : Expr} {r : Resolver} {node : NodeId} {name : Token}
    {fault : RuntimeFault} (hv : Visits programs (.expr e r)) (hn : node ∈ (Call.expr e r).own)
    (hr : m.heap.scopes.Ready checked e r.scopes m.cursor)
    (h : located σ m node name = .error fault) : fault = .undefinedVariable name.lexeme := by
  unfold located at h
  split at h
  · next k hk =>
    obtain ⟨j, hj⟩ := hr.up? (distance_lt hσ hv hn hk)
    exact Scopes.findAt_error hj h
  · exact Scopes.find_error h

/-- The names in an accepted program. -/
theorem formed_of_visits {c : Call} (hv : Visits programs c) (hc : checked) :
    c.Formed Token.Spelled :=
  hv.formed fun p hp => (hσ.accepted hc p hp).formed

section Branches

variable {condition : Expr} {r : Resolver}

theorem scopes_of_undeclared {s : Stmt} (hv : Visits programs (.stmt s r)) (hc : checked)
    (hs : s.declared? = none) : (Resolver.stmt s r).scopes = r.scopes := by
  have hscopes := Resolver.scopes_stmt (formed_of_visits hσ hv hc) r
  rwa [hs] at hscopes

/-- The body of a loop leaves no name behind. -/
theorem scopes_loopBody {body : Stmt} (hv : Visits programs (.stmt (.while condition body) r))
    (hc : checked) : (Resolver.stmt body (Resolver.expr condition r)).scopes = r.scopes := by
  have hformed := formed_of_visits hσ hv hc
  simp only [Call.Formed, Stmt.Formed] at hformed
  have hbody : Visits programs (.stmt body (Resolver.expr condition r)) :=
    hv.part (by simp [Call.parts])
  rw [scopes_of_undeclared hσ hbody hc hformed.2.1, Resolver.scopes_expr]

variable {consequent : Stmt}

omit hσ in
/-- With or without an alternative, a conditional has a condition and a first branch. -/
theorem visits_if {alternative : Option Stmt}
    (hv : Visits programs (.stmt (.if condition consequent alternative) r)) :
    Visits programs (.expr condition r) ∧
      Visits programs (.stmt consequent (Resolver.expr condition r)) := by
  cases alternative <;> exact ⟨hv.part (by simp [Call.parts]), hv.part (by simp [Call.parts])⟩

theorem scopes_consequent {alternative : Option Stmt}
    (hv : Visits programs (.stmt (.if condition consequent alternative) r)) (hc : checked) :
    (Resolver.stmt consequent (Resolver.expr condition r)).scopes = r.scopes := by
  have hformed := formed_of_visits hσ hv hc
  have hnone : consequent.declared? = none := by
    cases alternative <;> simp only [Call.Formed, Stmt.Formed] at hformed
    · exact hformed.2.1
    · exact hformed.2.1.1
  rw [scopes_of_undeclared hσ (visits_if hv).2 hc hnone, Resolver.scopes_expr]

theorem scopes_alternative {alternative : Stmt}
    (hv : Visits programs (.stmt (.if condition consequent (some alternative)) r))
    (hc : checked) : (Resolver.stmt alternative
      (Resolver.stmt consequent (Resolver.expr condition r))).scopes = r.scopes := by
  have hformed := formed_of_visits hσ hv hc
  simp only [Call.Formed, Stmt.Formed] at hformed
  have halt : Visits programs
      (.stmt alternative (Resolver.stmt consequent (Resolver.expr condition r))) :=
    hv.part (by simp [Call.parts])
  rw [scopes_of_undeclared hσ halt hc hformed.2.2.1, scopes_consequent hσ hv hc]

end Branches

section Superclass

variable {name : Token} {superclass : Expr} {ms : List FunctionDecl} {r : Resolver}

omit hσ in
theorem visits_subclass (hv : Visits programs (.stmt (.class name (some superclass) ms) r)) :
    Visits programs (.expr superclass (r.beforeSuperclass name superclass)) ∧
      Visits programs (.methods ms (r.subclassBody name superclass)) :=
  ⟨hv.part (by simp [Call.parts]), hv.part (by simp [Call.parts])⟩

/-- A superclass is a variable of another name than the class. -/
theorem exists_superclass (hv : Visits programs (.stmt (.class name (some superclass) ms) r))
    (hc : checked) : ∃ node superName, superclass = .variable node superName ∧
      superName.lexeme ≠ name.lexeme := by
  have hformed := formed_of_visits hσ hv hc
  simp only [Call.Formed, Stmt.Formed] at hformed
  obtain ⟨-, ⟨node, superName, rfl, -⟩, -⟩ := hformed
  exact ⟨node, superName, rfl, Resolver.superclass_ne (hv.errors_eq_nil (hσ.accepted hc))⟩

/-- The class's own name is in the walk's scope already, but not in that of the run. -/
theorem superclass_ready (hv : Visits programs (.stmt (.class name (some superclass) ms) r))
    (hcontrol : m.heap.scopes.Control checked r.scopes m.cursor) :
    m.heap.scopes.Ready checked superclass (r.beforeSuperclass name superclass).scopes
      m.cursor := by
  rw [Resolver.scopes_beforeSuperclass]
  by_cases hc : checked
  · obtain ⟨node, superName, rfl, hne⟩ := exists_superclass hσ hv hc
    exact .inr ⟨node, superName, name.lexeme, r.scopes, rfl, hne, rfl, hcontrol⟩
  · exact .inl (hcontrol.congr (Resolver.length_defining ..) fun h => absurd h hc)

end Superclass

theorem variable_tracks {r : Resolver} {node : NodeId} {name : Token}
    (hv : Visits programs (.expr (.variable node name) r)) (hs : m.heap.Sound programs checked)
    (hr : m.heap.scopes.Ready checked (.variable node name) r.scopes m.cursor) :
    Tracks σ (Tolerated programs checked) m (lookUp node name) (lookUp node name)
      fun _ m' => m'.heap.Sound programs checked := by
  refine ⟨rfl, ?_⟩
  rw [lookUp_run]
  cases hf : found σ m node name with
  | ok v => exact hs
  | error fault =>
    obtain rfl := found_error hσ hv List.mem_cons_self hr hf
    refine ⟨hs, fun hc => ?_⟩
    have := formed_of_visits hσ hv hc
    simp only [Call.Formed, Expr.Formed] at this
    exact this.ne_keyword .this

theorem this_tracks {r : Resolver} {node : NodeId} {keyword : Token}
    (hv : Visits programs (.expr (.this node keyword) r)) (hs : m.heap.Sound programs checked)
    (hr : m.heap.scopes.Ready checked (.this node keyword) r.scopes m.cursor) :
    Tracks σ (Tolerated programs checked) m (lookUp node keyword) (lookUp node keyword)
      fun _ m' => m'.heap.Sound programs checked := by
  refine ⟨rfl, ?_⟩
  rw [lookUp_run]
  cases hf : found σ m node keyword with
  | ok v => exact hs
  | error fault =>
    obtain rfl := found_error hσ hv List.mem_cons_self hr hf
    refine ⟨hs, fun hc => ?_⟩
    obtain rfl : checked = True := eq_true hc
    obtain ⟨k, i, hk, hget⟩ := this_found hσ hs hv (hr.control nofun)
    simp only [found, hk, hget] at hf
    cases hf

theorem assign_tracks {r : Resolver} {node : NodeId} {name : Token} {value : Expr} {v : Value}
    (hv : Visits programs (.expr (.assign node name value) r))
    (hs : m.heap.Sound programs checked)
    (hr : m.heap.scopes.Ready checked (.assign node name value) r.scopes m.cursor) :
    Tracks σ (Tolerated programs checked) m (assign node name v) (assign node name v)
      fun _ m' => m'.heap.Sound programs checked := by
  have hname (hc : checked) (k : Keyword) : name.lexeme ≠ k.spelling := by
    have := formed_of_visits hσ hv hc
    simp only [Call.Formed, Expr.Formed] at this
    exact this.1.ne_keyword k
  refine ⟨rfl, ?_⟩
  unfold assign
  rw [bind_run, locate_run]
  cases hf : located σ m node name with
  | ok j => exact hs.define (fun hc => ⟨hname hc .this, hname hc .super⟩) j v
  | error fault =>
    obtain rfl := located_error hσ hv List.mem_cons_self hr hf
    exact ⟨hs, fun hc => hname hc .this⟩

/-! ### Operators -/

theorem unary_tracks {r : Resolver} {operator : Token} {operand : Expr} {v : Value}
    (hv : Visits programs (.expr (.unary operator operand) r))
    (hs : m.heap.Sound programs checked) :
    Tracks σ (Tolerated programs checked) m (unary operator v) (unary operator v)
      fun _ m' => m'.heap.Sound programs checked := by
  obtain ⟨result, hr, he⟩ := unary_plainly operator v
  rw [hr]
  refine tracks_plainly (fun _ _ => hs) fun e hresult => ⟨hs, ?_⟩
  rcases he e hresult with hf | ⟨hf, hbang, hminus⟩ <;> rw [Stop.Tolerable, hf]
  · trivial
  · intro hc
    have := formed_of_visits hσ hv hc
    simp only [Call.Formed, Expr.Formed, Rule.isUnaryOperator, Bool.or_eq_true,
      decide_eq_true_eq] at this
    exact this.1.2.elim hbang hminus

theorem binary_tracks {r : Resolver} {left right : Expr} {operator : Token} {v w : Value}
    (hv : Visits programs (.expr (.binary left operator right) r))
    (hs : m.heap.Sound programs checked) :
    Tracks σ (Tolerated programs checked) m (binary v operator w) (binary v operator w)
      fun _ m' => m'.heap.Sound programs checked := by
  obtain ⟨result, hr, he⟩ := binary_plainly v operator w
  rw [hr]
  refine tracks_plainly (fun _ _ => hs) fun e hresult => ⟨hs, ?_⟩
  rcases he e hresult with hf | hf | ⟨hf, hk⟩ <;> rw [Stop.Tolerable, hf]
  · trivial
  · trivial
  · intro hc
    have := formed_of_visits hσ hv hc
    simp only [Call.Formed, Expr.Formed] at this
    obtain ⟨rank, hle, hrank⟩ := this.2.1.2
    exact hk rank hle hrank

omit hσ

/-! ### Functions and classes -/

section Calls

theorem statements_tracks (hs : StmtMirrored programs checked σ exec exec') {body : List Stmt}
    {r : Resolver} (hv : Visits programs (.stmts body r)) (hsound : m.heap.Sound programs checked)
    (hc : m.heap.scopes.Control checked r.scopes m.cursor) :
    Tracks σ (Tolerated programs checked) m (statements exec body) (statements exec' body)
      fun c m' => m'.heap.Sound programs checked ∧ m'.cursor = m.cursor ∧
        (c = .normal →
          m'.heap.scopes.Control checked (Resolver.stmts body r).scopes m'.cursor) := by
  induction body generalizing r m with
  | nil => exact tracks_pure ⟨hsound, rfl, fun _ => hc⟩
  | cons s rest ih =>
    refine tracks_bind (hs (hv.part (by simp [Call.parts])) hsound hc) ?_
    rintro (_ | v) m' ⟨hsound', hcursor, hcontrol⟩
    · refine (ih (hv.part (by simp [Call.parts])) hsound' (hcontrol rfl)).mono ?_
      rintro c m'' ⟨h, hc', hn⟩
      exact ⟨h, hc'.trans hcursor, hn⟩
    · exact tracks_pure ⟨hsound', hcursor, nofun⟩

/-- Statements in a scope of their own leave the surrounding ones alone. -/
theorem newScope_tracks (hs : StmtMirrored programs checked σ exec exec')
    (hfs : ∀ s, Frames True (exec s)) {bindings : Bindings Value} {p : ScopeId} {body : List Stmt}
    {r : Resolver} (hv : Visits programs (.stmts body r))
    (hsound : (m.heap.addScope bindings p).Sound programs checked)
    (hc : (m.heap.addScope bindings p).scopes.Control checked r.scopes m.heap.scopes.size) :
    Tracks σ (Tolerated programs checked) m
      (newScope bindings p >>= fun scope => within scope (statements exec body))
      (newScope bindings p >>= fun scope => within scope (statements exec' body))
      fun _ => Quiet programs checked m := by
  refine quiet_of_frames ?_ (frames_within_newScope (frames_statements hfs _) bindings p)
  refine tracks_newScope_bind (tracks_within ?_)
  exact (statements_tracks
    (m := ⟨m.heap.addScope bindings p, m.heap.scopes.size, m.out, m.readings⟩) hs hv hsound
    hc).mono fun _ _ h => h.1

variable (hσ : σ.distances.Suits programs checked) (hs : StmtMirrored programs checked σ exec exec')
  (hfs : ∀ s, Frames True (exec s))

include hσ in
/-- The scope of a call binds what the walk has in that of the function's body. -/
theorem enter_body {name : Token} {parameters : List Token} {statements : List Stmt}
    {context : FunctionContext} {r : Resolver} {closure : ScopeId} {arguments : List Value}
    (hv : Visits programs (.function ⟨name, parameters, statements⟩ context r))
    (hfit : m.heap.scopes.Fits checked r.scopes closure)
    (ha : parameters.length = arguments.length) (hsound : m.heap.Sound programs checked) :
    (m.heap.addScope (parameterBindings parameters arguments) closure).Sound programs checked ∧
      (m.heap.addScope (parameterBindings parameters arguments) closure).scopes.Control checked
        (r.functionBody parameters context).scopes m.heap.scopes.size := by
  have absent (hc : checked) (k : Keyword) :
      (parameterBindings parameters arguments).get? k.spelling = none := by
    rw [← Option.not_isSome_iff_eq_none, isSome_parameterBindings ha]
    intro hk
    obtain ⟨p, hp, he⟩ := List.mem_map.1 hk
    have := formed_of_visits hσ hv hc
    simp only [Call.Formed, FunctionDecl.Formed] at this
    exact (this.2.1 p hp).ne_keyword k he
  constructor
  · exact hsound.addScope (fun hc _ hx => by cases (absent hc .this).symm.trans hx)
      (fun hc _ hx => by cases (absent hc .super).symm.trans hx) closure
  · rw [Resolver.scopes_functionBody]
    refine Scopes.Control.add hfit hsound.scopes fun _ x => ?_
    rw [isSome_parameterBindings ha, Resolver.get?_parameterScope]
    split <;> simp [*]

include hσ hs hfs in
theorem callFunction_tracks {f : Function} {arguments : List Value}
    (hf : f.Fits programs checked m.heap.scopes) (ha : f.arity = arguments.length)
    (hsound : m.heap.Sound programs checked) :
    Tracks σ (Tolerated programs checked) m (callFunction exec f arguments)
      (callFunction exec' f arguments) fun _ m' => m'.heap.Sound programs checked := by
  obtain ⟨⟨name, parameters, statements⟩, closure, isInitializer⟩ := f
  obtain ⟨context, r, hv, hfit, hinit⟩ := hf
  have hbody : Visits programs (.stmts statements (r.functionBody parameters context)) :=
    hv.part (by simp [Call.parts])
  obtain ⟨hsound₁, entered⟩ := enter_body hσ hv hfit ha hsound
  unfold callFunction
  rw [← bind_assoc, ← bind_assoc]
  refine tracks_bind (newScope_tracks hs hfs hbody hsound₁ entered) fun c m' hq => ?_
  cases isInitializer with
  | false => cases c <;> exact tracks_pure hq.sound
  | true =>
    -- an initializer yields the instance in its closure
    refine tracks_lift (m := m') (fun _ _ => hq.sound) fun fault hfault => ⟨hq.sound, ?_⟩
    rw [Scopes.getAt_eq_read (k := 0) rfl] at hfault
    obtain rfl := Scopes.read_error hfault
    intro hc
    obtain ⟨outer, hr⟩ := List.head?_eq_some_iff.1 (hinit rfl)
    have hthis : (m.heap.scopes.lookup? closure "this").isSome := by
      rw [hr] at hfit; exact hfit.2 hc "this" rfl
    obtain ⟨v, hv'⟩ := Option.isSome_iff_exists.1 (hq.extended.scopes.kept closure "this" hthis)
    rw [Scopes.read_eq_ok hv'] at hfault
    cases hfault

/-- Binding a method makes it a function whose closure fits. -/
theorem bind_fits {f : Function} (hf : f.FitsUnbound programs checked m.heap.scopes)
    (hsound : m.heap.Sound programs checked) (i : InstanceId) :
    (m.heap.addScope [("this", .instance i)] f.closure).Sound programs checked ∧
      Function.Fits programs checked
        (m.heap.addScope [("this", .instance i)] f.closure).scopes
        { f with closure := m.heap.scopes.size } := by
  obtain ⟨context, r, outer, hv, hr, hfit⟩ := hf
  refine ⟨hsound.addScope (fun _ v hx => ⟨i, ?_⟩) (fun _ v hx => ?_) f.closure,
    context, r, hv, ?_, fun _ => by rw [hr]; rfl⟩
  · exact (Option.some.inj hx).symm
  · cases hx
  · rw [hr]
    exact hfit.add hsound.scopes fun _ => Bindings.isSome_single "this" (.instance i)

theorem boundMethod_tracks {f : Function} (hf : f.FitsUnbound programs checked m.heap.scopes)
    (hsound : m.heap.Sound programs checked) (i : InstanceId) :
    Tracks σ (Tolerated programs checked) m (boundMethod f i) (boundMethod f i)
      fun _ m' => m'.heap.Sound programs checked := by
  obtain ⟨hsound', hfit⟩ := bind_fits hf hsound i
  exact ⟨rfl, hsound'.addFunction hfit⟩

include hσ hs hfs in
theorem instantiate_tracks {c : ClassId} {arguments : List Value}
    (ha : m.heap.classArity c = arguments.length) (hsound : m.heap.Sound programs checked) :
    Tracks σ (Tolerated programs checked) m (instantiate exec c arguments)
      (instantiate exec' c arguments) fun _ m' => m'.heap.Sound programs checked := by
  unfold instantiate
  refine tracks_newInstance_bind (tracks_heap_bind ?_)
  rw [Heap.findMethod?_addInstance]
  cases hf : m.heap.findMethod? c initializerName with
  | none => exact tracks_pure (hsound.addInstance c)
  | some f =>
    obtain ⟨hsound', hfit⟩ := bind_fits (m := { m with heap := m.heap.addInstance c })
      (hsound.findMethod? hf) (hsound.addInstance c) m.heap.instances.size
    rw [Heap.classArity, hf] at ha
    refine tracks_bind (x := bind f _) (Q := fun g m' => m' = _ ∧ g = _) ⟨rfl, rfl, rfl⟩ ?_
    rintro _ _ ⟨rfl, rfl⟩
    exact tracks_bind (callFunction_tracks hσ hs hfs hfit ha hsound') fun _ _ h => tracks_pure h

theorem checkArity_tracks (expected got line : Nat) (hsound : m.heap.Sound programs checked) :
    Tracks σ (Tolerated programs checked) m (checkArity expected got line)
      (checkArity expected got line) fun _ m' => m' = m ∧ expected = got := by
  unfold checkArity
  split
  · next h => exact tracks_pure ⟨rfl, h⟩
  · exact tracks_throw ⟨hsound, trivial⟩

include hσ hs hfs in
theorem callValue_tracks (callee : Value) (arguments : List Value) (line : Nat)
    (hsound : m.heap.Sound programs checked) :
    Tracks σ (Tolerated programs checked) m (callValue exec callee arguments line)
      (callValue exec' callee arguments line) fun _ m' => m'.heap.Sound programs checked := by
  unfold callValue
  cases callee with
  | native f =>
    refine tracks_bind (checkArity_tracks _ _ _ hsound) ?_
    rintro _ _ ⟨rfl, -⟩
    cases f; exact ⟨rfl, hsound⟩
  | function f =>
    refine tracks_heap_bind ?_
    cases hf : m.heap.functions[f]? with
    | none => exact tracks_throw ⟨hsound, trivial⟩
    | some f =>
      refine tracks_bind (checkArity_tracks _ _ _ hsound) ?_
      rintro _ _ ⟨rfl, ha⟩
      exact callFunction_tracks hσ hs hfs (hsound.functions hf) ha hsound
  | «class» c =>
    refine tracks_heap_bind (tracks_bind (checkArity_tracks _ _ _ hsound) ?_)
    rintro _ _ ⟨rfl, ha⟩
    exact instantiate_tracks hσ hs hfs ha hsound
  | _ => exact tracks_throw ⟨hsound, trivial⟩

theorem getProperty_tracks (v : Value) (name : Token) (hsound : m.heap.Sound programs checked) :
    Tracks σ (Tolerated programs checked) m (getProperty v name) (getProperty v name)
      fun _ m' => m'.heap.Sound programs checked := by
  unfold getProperty
  cases v with
  | «instance» i =>
    refine tracks_heap_bind ?_
    split
    · split
      · exact tracks_pure hsound
      · split
        · next f hf => exact boundMethod_tracks (hsound.findMethod? hf) hsound i
        · exact tracks_throw ⟨hsound, trivial⟩
    · exact tracks_throw ⟨hsound, trivial⟩
  | _ => exact tracks_throw ⟨hsound, trivial⟩

/-- An access that fails only for a missing name. -/
theorem getAt_tracks {k : Nat} {x : String} {line : Nat} (hsound : m.heap.Sound programs checked)
    (hk : ∃ j, m.heap.scopes.up? k m.cursor = some j)
    (hc : checked → ∃ v, m.heap.scopes.getAt m.cursor k x = .ok v) :
    Tracks σ (Tolerated programs checked) m (getAt k x line) (getAt k x line)
      fun v m' => m' = m ∧ m.heap.scopes.getAt m.cursor k x = .ok v := by
  refine tracks_lift (m := m) (fun v hv => ⟨rfl, hv⟩) fun fault hfault => ⟨hsound, ?_⟩
  obtain ⟨j, hj⟩ := hk
  have hf := hfault
  rw [Scopes.getAt_eq_read hj] at hf
  obtain rfl := Scopes.read_error hf
  intro h
  obtain ⟨v, hv⟩ := hc h
  rw [hv] at hfault; cases hfault

include hσ in
theorem superMethod_tracks {r : Resolver} {node : NodeId} {keyword method : Token}
    (hv : Visits programs (.expr (.super node keyword method) r))
    (hsound : m.heap.Sound programs checked)
    (hr : m.heap.scopes.Control checked r.scopes m.cursor) :
    Tracks σ (Tolerated programs checked) m (superMethod node keyword method)
      (superMethod node keyword method) fun _ m' => m'.heap.Sound programs checked := by
  have found (hc : checked) : ∃ k superclass i, σ.distances[node]? = some (k + 1) ∧
      m.heap.scopes.getAt m.cursor (k + 1) keyword.lexeme = .ok (.class superclass) ∧
      m.heap.scopes.getAt m.cursor k "this" = .ok (.instance i) := by
    obtain rfl : checked = True := eq_true hc
    exact super_found hσ hsound hv hr
  unfold superMethod
  refine tracks_read_bind ?_
  cases hd : σ.distances[node]? with
  | none =>
    refine tracks_throw ⟨hsound, fun hc => ?_⟩
    obtain ⟨k, _, _, hk, -⟩ := found hc
    rw [hd] at hk; cases hk
  | some distance =>
    have hlt := distance_lt hσ hv List.mem_cons_self hd
    refine tracks_bind (getAt_tracks hsound (hr.fits.up? hlt) fun hc => ?_) ?_
    · obtain ⟨k, c, _, hk, hsuper, -⟩ := found hc
      rw [hd] at hk; cases hk
      exact ⟨_, hsuper⟩
    rintro superclass _ ⟨rfl, hsuper⟩
    refine tracks_bind (getAt_tracks hsound (hr.fits.up? (by omega)) fun hc => ?_) ?_
    · obtain ⟨k, _, i, hk, -, hthis⟩ := found hc
      rw [hd] at hk; cases hk
      exact ⟨_, hthis⟩
    rintro object _ ⟨rfl, hthis⟩
    split
    · next c i =>
      refine tracks_heap_bind ?_
      split
      · next f hf => exact boundMethod_tracks (hsound.findMethod? hf) hsound i
      · exact tracks_throw ⟨hsound, trivial⟩
    · next hno =>
      refine tracks_throw ⟨hsound, fun hc => ?_⟩
      obtain ⟨k, c, i, hk, hsuper', hthis'⟩ := found hc
      rw [hd] at hk; cases hk
      rw [hsuper] at hsuper'; cases hsuper'
      rw [Nat.add_sub_cancel, hthis'] at hthis; cases hthis
      exact hno c i rfl rfl

end Calls

/-! ### Expressions -/

section Parts

variable {At : Machine → Prop} (hquiet : ∀ {m m'}, At m → Quiet programs checked m m' → At m')
  (he : ExprMirrored programs checked σ At eval eval') (hfe : ∀ e, Frames False (eval e))

include hquiet he in
theorem values_tracks {es : List Expr} {r : Resolver} (hv : Visits programs (.exprs es r))
    (hat : At m) (hsound : m.heap.Sound programs checked)
    (hc : m.heap.scopes.Control checked r.scopes m.cursor) :
    Tracks σ (Tolerated programs checked) m (values eval es) (values eval' es)
      fun _ => Quiet programs checked m := by
  induction es generalizing r m with
  | nil => exact tracks_pure ⟨hsound, rfl, .refl _ _⟩
  | cons e rest ih =>
    refine tracks_bind (he (hv.part (by simp [Call.parts])) hat hsound (.inl hc)) ?_
    intro v m' hq
    have hc' : m'.heap.scopes.Control checked (Resolver.expr e r).scopes m'.cursor := by
      rw [Resolver.scopes_expr]; exact hq.control hc
    refine tracks_bind (ih (hv.part (by simp [Call.parts])) (hquiet hat hq) hq.sound hc') ?_
    intro vs m'' hq'
    exact tracks_pure (hq.trans hq')

end Parts

section Expressions

variable (hσ : σ.distances.Suits programs checked) (hs : StmtMirrored programs checked σ exec exec')
  (hfs : ∀ s, Frames True (exec s))

/-- Control is at the expression, which a walk visits in state `r`. -/
def AtExpr (programs : List (List Stmt)) (checked : Prop) (e : Expr) (r : Resolver) (m : Machine) :
    Prop :=
  m.heap.Sound programs checked ∧ m.heap.scopes.Ready checked e r.scopes m.cursor

theorem AtExpr.quiet {e : Expr} {r : Resolver} {m m' : Machine}
    (h : AtExpr programs checked e r m) (hq : Quiet programs checked m m') :
    AtExpr programs checked e r m' :=
  ⟨hq.sound, hq.ready h.2⟩

/-- Both evaluations give the callee and the arguments the same values, so a call is the same if what
it does with them is. -/
theorem call_tracks {callee : Expr} {closing : Token} {arguments : List Expr} {r : Resolver}
    (hv : Visits programs (.expr (.call callee closing arguments) r))
    (he : ExprMirrored programs checked σ
      (AtExpr programs checked (.call callee closing arguments) r) eval eval')
    (hat : AtExpr programs checked (.call callee closing arguments) r m)
    {onValues onValues' : Value → List Value → Eval Value}
    (hon : ∀ v vs m', m'.heap.Sound programs checked →
      Tracks σ (Tolerated programs checked) m' (onValues v vs) (onValues' v vs)
        fun _ m'' => m''.heap.Sound programs checked) :
    Tracks σ (Tolerated programs checked) m
      (do let v ← eval callee
          onValues v (← values eval arguments))
      (do let v ← eval' callee
          onValues' v (← values eval' arguments))
      fun _ m' => m'.heap.Sound programs checked := by
  have hscopes : (r.checkCallee callee).scopes = r.scopes :=
    (Resolver.checkCallee_notes callee r).scopes
  have hbehind : (Resolver.expr callee (r.checkCallee callee)).scopes = r.scopes :=
    (Resolver.scopes_expr ..).trans hscopes
  have control {rp : Resolver} {m' : Machine} (h : rp.scopes = r.scopes)
      (hat' : AtExpr programs checked (.call callee closing arguments) r m') :
      m'.heap.scopes.Control checked rp.scopes m'.cursor := by
    rw [h]; exact hat'.2.control nofun
  refine tracks_bind (he (hv.part (by simp [Call.parts])) hat hat.1
    (.inl (control hscopes hat))) fun v m' hq => ?_
  have hat' := hat.quiet hq
  refine tracks_bind (values_tracks (fun h hq => h.quiet hq) he (hv.part (by simp [Call.parts])) hat'
    hq.sound (control hbehind hat')) fun vs m'' hq' => ?_
  exact hon v vs m'' hq'.sound

include hσ hs hfs in
theorem exprRule_tracks {e : Expr} {r : Resolver} (hv : Visits programs (.expr e r))
    (he : ExprMirrored programs checked σ (AtExpr programs checked e r) eval eval')
    (hat : AtExpr programs checked e r m) :
    Tracks σ (Tolerated programs checked) m (exprRule eval exec e) (exprRule eval' exec' e)
      fun _ m' => m'.heap.Sound programs checked := by
  -- a part that is walked in the same scopes
  have part {p : Expr} {rp : Resolver} {m' : Machine} (hp : .expr p rp ∈ (Call.expr e r).parts)
      (hscopes : rp.scopes = r.scopes) (hq : Quiet programs checked m m') :
      Tracks σ (Tolerated programs checked) m' (eval p) (eval' p)
        fun _ => Quiet programs checked m := by
    have hat' := hat.quiet hq
    have hcontrol : m'.heap.scopes.Control checked rp.scopes m'.cursor := by
      rw [hscopes]
      refine hat'.2.control fun node name hvar => ?_
      subst hvar; cases hp
    exact (he (hv.part hp) hat' hat'.1 (.inl hcontrol)).mono fun _ _ h => hq.trans h
  have start : Quiet programs checked m m := ⟨hat.1, rfl, .refl _ _⟩
  cases e with
  | literal value => exact tracks_pure hat.1
  | grouping inner => exact (part (by simp [Call.parts]) rfl start).mono fun _ _ h => h.sound
  | unary operator operand =>
    exact tracks_bind (part (by simp [Call.parts]) rfl start) fun v m' hq =>
      unary_tracks hσ hv hq.sound
  | binary left operator right =>
    refine tracks_bind (part (by simp [Call.parts]) rfl start) fun v m' hq => ?_
    exact tracks_bind (part (by simp [Call.parts]) (Resolver.scopes_expr left r) hq) fun w m'' hq' =>
      binary_tracks hσ hv hq'.sound
  | logical left operator right =>
    refine tracks_bind (part (by simp [Call.parts]) rfl start) fun v m' hq => ?_
    split
    · exact tracks_pure hq.sound
    · exact (part (by simp [Call.parts]) (Resolver.scopes_expr left r) hq).mono
        fun _ _ h => h.sound
  | «variable» node name => exact variable_tracks hσ hv hat.1 hat.2
  | assign node name value =>
    refine tracks_bind (part (by simp [Call.parts]) rfl start) fun v m' hq => ?_
    exact tracks_bind (assign_tracks hσ hv hq.sound (hq.ready hat.2)) fun _ _ h => tracks_pure h
  | call callee closing arguments =>
    exact call_tracks hv he hat fun v vs _ hm => callValue_tracks hσ hs hfs v vs closing.line hm
  | get object name =>
    exact tracks_bind (part (by simp [Call.parts]) rfl start) fun v m' hq =>
      getProperty_tracks v name hq.sound
  | set object name value =>
    refine tracks_bind (part (by simp [Call.parts]) (Resolver.scopes_expr value r) start)
      fun v m' hq => ?_
    split
    · next i =>
      refine tracks_bind (part (by simp [Call.parts]) rfl hq) fun w m'' hq' => ?_
      exact tracks_modifyHeap_bind (tracks_pure (hq'.sound.setField i name.lexeme w))
    · exact tracks_throw ⟨hq.sound, trivial⟩
  | this node keyword => exact this_tracks hσ hv hat.1 hat.2
  | super node keyword method =>
    exact superMethod_tracks hσ hv hat.1 (hat.2.control nofun)

end Expressions

/-! ### Statements -/

section Statements

variable (hσ : σ.distances.Suits programs checked) (hs : StmtMirrored programs checked σ exec exec')
  (hfs : ∀ s, Frames True (exec s))

/-- Control is at the statement, which a walk visits in state `r`. -/
def AtStmt (programs : List (List Stmt)) (checked : Prop) (r : Resolver) (m : Machine) : Prop :=
  m.heap.Sound programs checked ∧ m.heap.scopes.Control checked r.scopes m.cursor

theorem AtStmt.quiet {r : Resolver} {m m' : Machine} (h : AtStmt programs checked r m)
    (hq : Quiet programs checked m m') : AtStmt programs checked r m' :=
  ⟨hq.sound, hq.control h.2⟩

/-- How a statement that is walked in state `r` is to end. -/
def StmtEnds (programs : List (List Stmt)) (checked : Prop) (r' : Resolver) (c : Completion)
    (m : Machine) : Prop :=
  m.heap.Sound programs checked ∧
    (c = .normal → m.heap.scopes.Control checked r'.scopes m.cursor)

theorem print_tracks (text : String) (hsound : m.heap.Sound programs checked) :
    Tracks σ (Tolerated programs checked) m (print text) (print text)
      fun _ m' => m'.heap = m.heap ∧ m'.cursor = m.cursor := by
  refine ⟨rfl, ?_⟩
  rw [print_run]
  cases m.out.refusal? (text ++ "\n").toUTF8 with
  | none => exact ⟨rfl, rfl⟩
  | some reason => exact ⟨hsound, trivial⟩

/-- The methods in a table are those of the declaration, under their own names. -/
theorem methodTable_get? {methods : List FunctionDecl} {closure : ScopeId} {x : String}
    {f : Function} (h : (methodTable methods closure).get? x = some f) :
    ∃ m ∈ methods, m.name.lexeme = x ∧ f = ⟨m, closure, m.isInitializer⟩ := by
  rw [methodTable, Bindings.get?_foldl_set, Bindings.get?, Option.or_none] at h
  obtain ⟨m, hfind, rfl⟩ := Option.map_eq_some_iff.1 h
  have hmem := List.mem_reverse.1 (List.mem_of_find?_eq_some hfind)
  exact ⟨m, hmem, by simpa using List.find?_some hfind, rfl⟩

/-- Each method of a class is walked in the scopes of the class. -/
theorem visits_method {ms : List FunctionDecl} {r : Resolver}
    (hv : Visits programs (.methods ms r)) {f : FunctionDecl} (hf : f ∈ ms) :
    ∃ r', Visits programs (.function f f.methodContext r') ∧ r'.scopes = r.scopes := by
  induction ms generalizing r with
  | nil => cases hf
  | cons first rest ih =>
    rcases List.mem_cons.1 hf with rfl | hf
    · exact ⟨r, hv.part (by simp [Call.parts]), rfl⟩
    · have hrest : Visits programs (.methods rest (Resolver.functionDecl first _ r)) :=
        hv.part (List.mem_cons_of_mem _ List.mem_cons_self)
      obtain ⟨r', hv', hs⟩ := ih hrest hf
      exact ⟨r', hv', hs.trans (Resolver.scopes_functionDecl ..)⟩

/-- A class is declared in the scope that is executing, and its methods close over that scope or over
the new one of `super`. -/
theorem declareClass_tracks {name : Token} (superclass : Option ClassId)
    {ms : List FunctionDecl} {r rm : Resolver} (hsound : m.heap.Sound programs checked)
    (hc : m.heap.scopes.Control checked r.scopes m.cursor)
    (hname : checked → name.lexeme ≠ "this" ∧ name.lexeme ≠ "super")
    (hv : Visits programs (.methods ms rm))
    (hscopes : rm.scopes = [("this", true)] :: match superclass with
      | none => Resolver.defining name.lexeme r.scopes
      | some _ => [("super", true)] :: Resolver.defining name.lexeme r.scopes) :
    Tracks σ (Tolerated programs checked) m (declareClass name superclass ms)
      (declareClass name superclass ms) fun _ m' => m'.heap.Sound programs checked ∧
        m'.heap.scopes.Control checked (Resolver.defining name.lexeme r.scopes) m'.cursor := by
  refine ⟨rfl, ?_⟩
  cases superclass with
  | none =>
    have hcontrol := hc.define hsound.scopes name.lexeme (.class m.heap.classes.size)
    have hsound' := hsound.define hname m.cursor (.class m.heap.classes.size)
    refine ⟨hsound'.addClass fun hf => ?_, hcontrol⟩
    obtain ⟨f, hmem, -, rfl⟩ := methodTable_get? hf
    obtain ⟨r', hv', hr'⟩ := visits_method hv hmem
    exact ⟨_, r', _, hv', hr'.trans hscopes, hcontrol.fits⟩
  | some s =>
    set h₁ := m.heap.addScope [("super", .class s)] m.cursor
    have hsound₁ : h₁.Sound programs checked :=
      hsound.addScope (fun _ v hx => by cases hx)
        (fun _ v hx => ⟨s, by simpa [Bindings.get?, eq_comm] using hx⟩) m.cursor
    have hc₁ : h₁.scopes.Control checked r.scopes m.cursor :=
      hc.extends (.add (fun _ => False) ..) id
    have hcontrol := hc₁.define hsound₁.scopes name.lexeme (.class m.heap.classes.size)
    have hsound' := hsound₁.define hname m.cursor (.class m.heap.classes.size)
    refine ⟨hsound'.addClass fun hf => ?_, hcontrol⟩
    obtain ⟨f, hmem, -, rfl⟩ := methodTable_get? hf
    obtain ⟨r', hv', hr'⟩ := visits_method hv hmem
    exact ⟨_, r', _, hv', hr'.trans hscopes,
      hc.fits_single hsound.scopes "super" (.class s) name.lexeme (.class m.heap.classes.size)⟩

include hs in
theorem loop_tracks {condition : Expr} {body : Stmt} {r : Resolver}
    (hv : Visits programs (.stmt (.while condition body) r))
    (he : ExprMirrored programs checked σ (AtStmt programs checked r) eval eval')
    (hσ : σ.distances.Suits programs checked)
    (hat : AtStmt programs checked r m) (n : Nat) :
    Tracks σ (Tolerated programs checked) m (loop eval exec condition body n)
      (loop eval' exec' condition body n) (StmtEnds programs checked r) := by
  induction n generalizing m with
  | zero => exact tracks_throw ⟨hat.1, trivial⟩
  | succ n ih =>
    refine tracks_bind (he (hv.part (by simp [Call.parts])) hat hat.1 (.inl hat.2)) ?_
    intro v m' hq
    have hat' := hat.quiet hq
    split
    · have hcontrol : m'.heap.scopes.Control checked (Resolver.expr condition r).scopes
          m'.cursor := by
        rw [Resolver.scopes_expr]; exact hat'.2
      refine tracks_bind (hs (hv.part (by simp [Call.parts])) hat'.1 hcontrol) ?_
      rintro (_ | v) m'' ⟨hsound, hcursor, hend⟩
      · -- behind the body the walk's scopes are as in front of it
        have hgained := Resolver.stmt_gains body (Resolver.expr condition r)
        refine ih ⟨hsound, (hend rfl).congr ?_ fun hc => (scopes_loopBody hσ hv hc).symm⟩
        rw [hgained.length_eq, Resolver.scopes_expr]
      · exact tracks_pure ⟨hsound, nofun⟩
    · exact tracks_pure ⟨hat'.1, fun _ => hat'.2⟩

/-- A block leaves the scope that is executing as it was. -/
theorem block_tracks (hs : StmtMirrored programs checked σ exec exec')
    (hfs : ∀ s, Frames True (exec s)) {body : List Stmt} {r : Resolver}
    (hv : Visits programs (.stmt (.block body) r)) (hat : AtStmt programs checked r m) :
    Tracks σ (Tolerated programs checked) m
      (newScope [] m.cursor >>= fun scope => within scope (statements exec body))
      (newScope [] m.cursor >>= fun scope => within scope (statements exec' body))
      fun _ => AtStmt programs checked r := by
  have hsound : (m.heap.addScope [] m.cursor).Sound programs checked :=
    hat.1.addScope (fun _ v hx => by cases hx) (fun _ v hx => by cases hx) m.cursor
  have entered : (m.heap.addScope [] m.cursor).scopes.Control checked (r.push []).scopes
      m.heap.scopes.size :=
    .add hat.2.fits hat.1.scopes fun _ x => by simp [Bindings.get?]
  have quiet := newScope_tracks hs hfs (hv.part (p := .stmts body (r.push []))
    (by simp [Call.parts])) hsound entered
  exact quiet.mono fun _ _ hq => hat.quiet hq

/-- A function is made and then declared in the scope that is executing, which it closes over. -/
theorem function_tracks {f : FunctionDecl} {r : Resolver}
    (hv : Visits programs (.stmt (.function f) r)) (hat : AtStmt programs checked r m)
    (hname : checked → f.name.lexeme ≠ "this" ∧ f.name.lexeme ≠ "super") :
    Tracks σ (Tolerated programs checked) m (stmtRule eval exec n (.function f))
      (stmtRule eval' exec' n (.function f))
      (StmtEnds programs checked (Resolver.stmt (.function f) r)) := by
  have hcontrol := hat.2.define hat.1.scopes f.name.lexeme (.function m.heap.functions.size)
  have hsound := hat.1.define hname m.cursor (.function m.heap.functions.size)
  have hfits : Function.Fits programs checked
      (m.heap.define m.cursor f.name.lexeme (.function m.heap.functions.size)).scopes
      ⟨f, m.cursor, false⟩ := by
    refine ⟨.function, r.named f.name, hv.part (by simp [Call.parts]), ?_, nofun⟩
    rw [Resolver.scopes_named]; exact hcontrol.fits
  refine ⟨rfl, hsound.addFunction hfits, fun _ => ?_⟩
  have hscopes : (Resolver.stmt (.function f) r).scopes =
      Resolver.defining f.name.lexeme r.scopes :=
    (Resolver.scopes_functionDecl ..).trans (Resolver.scopes_named ..)
  rw [hscopes]; exact hcontrol

include hσ hs in
theorem if_tracks {condition : Expr} {consequent : Stmt} {alternative : Option Stmt}
    {r : Resolver} (hv : Visits programs (.stmt (.if condition consequent alternative) r))
    (he : ExprMirrored programs checked σ (AtStmt programs checked r) eval eval')
    (hat : AtStmt programs checked r m) :
    Tracks σ (Tolerated programs checked) m
      (stmtRule eval exec n (.if condition consequent alternative))
      (stmtRule eval' exec' n (.if condition consequent alternative))
      (StmtEnds programs checked (Resolver.stmt (.if condition consequent alternative) r)) := by
  obtain ⟨hcond, hcons⟩ := visits_if hv
  have hleft (hc : checked) : (Resolver.stmt consequent (Resolver.expr condition r)).scopes =
      (Resolver.expr condition r).scopes :=
    (scopes_consequent hσ hv hc).trans (Resolver.scopes_expr condition r).symm
  refine tracks_bind (he hcond hat hat.1 (.inl hat.2)) fun v m' hq => ?_
  have hcontrol : m'.heap.scopes.Control checked (Resolver.expr condition r).scopes m'.cursor := by
    rw [Resolver.scopes_expr]; exact hq.control hat.2
  have hskipped : m'.heap.scopes.Control checked
      (Resolver.stmt consequent (Resolver.expr condition r)).scopes m'.cursor :=
    hcontrol.gained (Resolver.stmt_gains ..).scopes hleft
  cases alternative with
  | none =>
    split
    · exact (hs hcons hq.sound hcontrol).mono fun _ _ h => ⟨h.1, h.2.2⟩
    · exact tracks_pure ⟨hq.sound, fun _ => hskipped⟩
  | some alternative =>
    have halt : Visits programs
        (.stmt alternative (Resolver.stmt consequent (Resolver.expr condition r))) :=
      hv.part (by simp [Call.parts])
    have hright (hc : checked) :
        (Resolver.stmt alternative (Resolver.stmt consequent (Resolver.expr condition r))).scopes =
          (Resolver.stmt consequent (Resolver.expr condition r)).scopes :=
      (scopes_alternative hσ hv hc).trans (scopes_consequent hσ hv hc).symm
    split
    · refine (hs hcons hq.sound hcontrol).mono fun _ _ h => ⟨h.1, fun hn => ?_⟩
      exact (h.2.2 hn).gained (Resolver.stmt_gains ..).scopes hright
    · exact (hs halt hq.sound hskipped).mono fun _ _ h => ⟨h.1, h.2.2⟩

include hσ in
theorem class_tracks {name : Token} {superclass : Option Expr} {ms : List FunctionDecl}
    {r : Resolver} (hv : Visits programs (.stmt (.class name superclass ms) r))
    (he : ExprMirrored programs checked σ (AtStmt programs checked r) eval eval')
    (hat : AtStmt programs checked r m)
    (hname : checked → name.lexeme ≠ "this" ∧ name.lexeme ≠ "super") :
    Tracks σ (Tolerated programs checked) m
      (stmtRule eval exec n (.class name superclass ms))
      (stmtRule eval' exec' n (.class name superclass ms))
      (StmtEnds programs checked (Resolver.stmt (.class name superclass ms) r)) := by
  cases superclass with
  | none =>
    have hms : Visits programs (.methods ms (r.classBody name)) := hv.part (by simp [Call.parts])
    refine tracks_bind (declareClass_tracks none hat.1 hat.2 hname hms
      (Resolver.scopes_classBody ..))
      fun _ m' ⟨hsound, hcontrol⟩ => tracks_pure ⟨hsound, fun _ => ?_⟩
    have hscopes : (Resolver.stmt (.class name none ms) r).scopes =
        Resolver.defining name.lexeme r.scopes := by
      show (Resolver.methods ms (r.classBody name)).scopes.tail = _
      simp
    rw [hscopes]; exact hcontrol
  | some superclass =>
    obtain ⟨hsuper, hms⟩ := visits_subclass hv
    refine tracks_bind (he hsuper hat hat.1 (superclass_ready hσ hv hat.2)) fun v m' hq => ?_
    split
    · next s =>
      refine tracks_bind (declareClass_tracks (some s) hq.sound (hq.control hat.2)
        hname hms (Resolver.scopes_subclassBody ..))
        fun _ m'' ⟨hsound, hcontrol⟩ => tracks_pure ⟨hsound, fun _ => ?_⟩
      have hscopes : (Resolver.stmt (.class name (some superclass) ms) r).scopes =
          Resolver.defining name.lexeme r.scopes := by
        show (Resolver.methods ms (r.subclassBody name superclass)).scopes.tail.tail = _
        simp
      rw [hscopes]; exact hcontrol
    · exact tracks_throw ⟨hq.sound, trivial⟩

include hσ hs hfs in
theorem stmtRule_tracks {s : Stmt} {r : Resolver} (hv : Visits programs (.stmt s r))
    (he : ExprMirrored programs checked σ (AtStmt programs checked r) eval eval')
    (hat : AtStmt programs checked r m) (n : Nat) :
    Tracks σ (Tolerated programs checked) m (stmtRule eval exec n s) (stmtRule eval' exec' n s)
      (StmtEnds programs checked (Resolver.stmt s r)) := by
  have hformed (hc : checked) : s.Formed Token.Spelled := formed_of_visits hσ hv hc
  have hname {name : Token} (hd : s.declared? = some name) (hc : checked) :
      name.lexeme ≠ "this" ∧ name.lexeme ≠ "super" :=
    ⟨((hformed hc).declared hd).ne_keyword .this, ((hformed hc).declared hd).ne_keyword .super⟩
  -- an expression that is walked in the same scopes
  have part {p : Expr} {rp : Resolver} (hp : .expr p rp ∈ (Call.stmt s r).parts)
      (hscopes : rp.scopes = r.scopes) : Tracks σ (Tolerated programs checked) m (eval p) (eval' p)
        fun _ => AtStmt programs checked r :=
    (he (hv.part hp) hat hat.1 (.inl (by rw [hscopes]; exact hat.2))).mono
      fun _ _ hq => hat.quiet hq
  cases s with
  | expression e =>
    refine tracks_bind (part (by simp [Call.parts]) rfl) fun _ m' hat' => tracks_pure ⟨hat'.1, ?_⟩
    intro _; rw [Resolver.stmt, Resolver.scopes_expr]; exact hat'.2
  | print e =>
    refine tracks_bind (part (by simp [Call.parts]) rfl) fun v m' hat' => tracks_heap_bind ?_
    refine tracks_bind (print_tracks _ hat'.1) ?_
    rintro _ m'' ⟨hheap, hcursor⟩
    refine tracks_pure ⟨hheap ▸ hat'.1, fun _ => ?_⟩
    rw [Resolver.stmt, Resolver.scopes_expr, hheap, hcursor]; exact hat'.2
  | var name initial =>
    cases initial with
    | none =>
      refine tracks_define_bind (tracks_pure ⟨hat.1.define (hname rfl) _ _, fun _ => ?_⟩)
      exact (hat.2.declare name).define_declared hat.1.scopes .nil
    | some e =>
      refine tracks_bind (he (hv.part (by simp [Call.parts])) hat hat.1
        (.inl (hat.2.declare name))) fun v m' hq => ?_
      refine tracks_define_bind (tracks_pure ⟨hq.sound.define (hname rfl) _ v, fun _ => ?_⟩)
      rw [Resolver.stmt, Resolver.scopes_define, Resolver.scopes_expr, ← Resolver.scopes_define]
      exact (hq.control (hat.2.declare name)).define_declared hq.sound.scopes v
  | block body =>
    refine tracks_get_bind ((block_tracks hs hfs hv hat).mono fun c m' hat' => ⟨hat'.1, fun _ => ?_⟩)
    have hscopes : (Resolver.stmt (.block body) r).scopes = r.scopes :=
      Resolver.tail_scopes_stmts body (r.push [])
    rw [hscopes]; exact hat'.2
  | «if» condition consequent alternative => exact if_tracks hσ hs hv he hat
  | «while» condition body =>
    refine (loop_tracks hs hv he hσ hat n).mono fun c m' hend => ⟨hend.1, fun hn => ?_⟩
    have hgained := Resolver.stmt_gains body (Resolver.expr condition r)
    refine (hend.2 hn).congr ?_ fun hc => ?_
    · rw [Resolver.stmt, hgained.length_eq, Resolver.scopes_expr]
    · exact Resolver.scopes_stmt (hformed hc) r
  | function f => exact function_tracks hv hat (hname rfl)
  | «return» keyword value =>
    cases value with
    | none => exact tracks_pure ⟨hat.1, fun hn => by cases hn⟩
    | some e =>
      refine tracks_bind (part (by simp [Call.parts]; rfl) ?_) fun _ _ hat' =>
        tracks_pure ⟨hat'.1, fun hn => by cases hn⟩
      exact (Resolver.checkReturn_notes ..).scopes
  | «class» name superclass methods => exact class_tracks hσ hv he hat (hname rfl)

end Statements

/-! ### Whole evaluations -/

section Whole

variable (hσ : σ.distances.Suits programs checked) {w : Watch}
  (hw : ∀ ν m, AtNode programs checked ν m → w ν m = none)
include hσ hw

/-- At every fuel, watched evaluations are the same as others. -/
theorem mirrored (n : Nat) :
    ExprMirrored programs checked σ (fun _ => True) (expr n) (exprWatched w n) ∧
      StmtMirrored programs checked σ (stmt n) (stmtWatched w n) := by
  induction n with
  | zero => exact ⟨fun _ _ hs _ => tracks_throw ⟨hs, trivial⟩, fun _ hs _ => tracks_throw ⟨hs, trivial⟩⟩
  | succ n ih =>
    obtain ⟨ihe, ihs⟩ := ih
    refine ⟨fun {e r m} hv _ hs hr => ?_, fun {s r m} hv hs hc => ?_⟩
    · have parts : ExprMirrored programs checked σ (AtExpr programs checked e r) (expr n)
          (fun part => comingBack w (.expr e) (exprWatched w n part)) :=
        fun hp hat hsp hrp => (ihe hp trivial hsp hrp).comingBack fun _ _ hq =>
          hw (.expr e) _ ⟨r, hv, (hat.quiet hq).1, (hat.quiet hq).2⟩
      refine quiet_of_frames (.check ?_ (hw (.expr e) m ⟨r, hv, hs, hr⟩)) (expr_frames (n + 1) e False)
      exact exprRule_tracks hσ ihs (stmt_frames n) hv parts ⟨hs, hr⟩
    · have parts : ExprMirrored programs checked σ (AtStmt programs checked r) (expr n)
          (fun part => comingBack w (.stmt s) (exprWatched w n part)) :=
        fun hp hat hsp hrp => (ihe hp trivial hsp hrp).comingBack fun _ _ hq =>
          hw (.stmt s) _ ⟨r, hv, (hat.quiet hq).1, (hat.quiet hq).2⟩
      have rule := stmtRule_tracks hσ ihs (stmt_frames n) hv parts ⟨hs, hc⟩ n
      refine ((rule.check (hw (.stmt s) m ⟨r, hv, hs, hc⟩)).framed (stmt_frames (n + 1) s)).mono ?_
      exact fun c m' ⟨⟨hs', hend⟩, hcursor, _⟩ => ⟨hs', hcursor, hend⟩

end Whole

/-- Statements in order. A return ends its own statement only. -/
def inTurn (exec : Stmt → Eval Completion) : List Stmt → Eval Unit
  | [] => return
  | s :: rest => do
    let _ ← exec s
    inTurn exec rest

theorem program_eq_inTurn (fuel : Nat) (ss : List Stmt) : program fuel ss = inTurn (stmt fuel) ss := by
  induction ss with
  | nil => rfl
  | cons s rest ih => rw [program, inTurn, ih]

theorem programWatched_eq_inTurn (w : Watch) (fuel : Nat) (ss : List Stmt) :
    programWatched w fuel ss = inTurn (stmtWatched w fuel) ss := by
  induction ss with
  | nil => rfl
  | cons s rest ih => rw [programWatched, inTurn, ih]

/-- At the outermost level there are no scopes but the global one. -/
theorem outermost_tracks (hx : StmtMirrored programs checked σ exec exec') {ss : List Stmt}
    {r : Resolver} (hv : Visits programs (.stmts ss r)) (hr : r.scopes = [])
    (hs : m.heap.Sound programs checked) (hc : m.cursor = Heap.globals) :
    Tracks σ (Tolerated programs checked) m (inTurn exec ss) (inTurn exec' ss)
      fun _ m' => m'.heap.Sound programs checked := by
  induction ss generalizing r m with
  | nil => exact tracks_pure hs
  | cons s rest ih =>
    have hcontrol : m.heap.scopes.Control checked r.scopes m.cursor := by
      rw [hr, hc]; exact Scopes.control_globals checked _
    refine tracks_bind (hx (hv.part (by simp [Call.parts])) hs hcontrol) ?_
    intro c m' ⟨hs', hcursor, _⟩
    exact ih (hv.part (p := .stmts rest (Resolver.stmt s r)) (by simp [Call.parts]))
      (Resolver.scopes_stmt_outermost hr s) hs' (hcursor.trans hc)

/-- A program is run in scopes that mirror those of its walk, so a watch that is silent at such nodes
makes no difference. -/
theorem program_tracks (hσ : σ.distances.Suits programs checked) {w : Watch}
    (hw : ∀ ν m, AtNode programs checked ν m → w ν m = none) (fuel : Nat) {p : List Stmt}
    (hp : p ∈ programs) (hs : m.heap.Sound programs checked) (hc : m.cursor = Heap.globals) :
    Tracks σ (Tolerated programs checked) m (program fuel p) (programWatched w fuel p)
      fun _ m' => m'.heap.Sound programs checked := by
  rw [program_eq_inTurn, programWatched_eq_inTurn]
  exact outermost_tracks (mirrored hσ hw fuel).2 (.program hp) rfl hs hc

/-! What is known of evaluations under a watch is known of them alone. -/

theorem expr_mirrored (hσ : σ.distances.Suits programs checked) (n : Nat) :
    ExprMirrored programs checked σ (fun _ => True) (expr n) (expr n) := fun hv hat hs hr =>
  ⟨rfl, ((mirrored hσ (w := fun _ _ => none) (fun _ _ _ => rfl) n).1 hv hat hs hr).2⟩

theorem stmt_mirrored (hσ : σ.distances.Suits programs checked) (n : Nat) :
    StmtMirrored programs checked σ (stmt n) (stmt n) := fun hv hs hc =>
  ⟨rfl, ((mirrored hσ (w := fun _ _ => none) (fun _ _ _ => rfl) n).2 hv hs hc).2⟩

end Rules

end Eval
end Treewalk
