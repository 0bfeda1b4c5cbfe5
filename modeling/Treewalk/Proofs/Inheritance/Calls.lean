import Treewalk.Proofs.Inheritance.Follows
/-!
# Homes at calls

Given that statements are executed in the same way with a ledger and without one, so are the bodies of
functions, each at the home of its function (`callFunction_follows`). The home still fits in front of
an expression and behind a declaration, because neither makes or moves a `this` of the walk's scopes.
-/

namespace Treewalk

/-! ### Values that are read -/

namespace Scopes

variable {s : Scopes} {i j p : ScopeId} {k : Nat} {x : String} {v : Value}

theorem lookup?_of_read (h : s.read j x = .ok v) : s.lookup? j x = some v := by
  unfold read at h
  split at h
  · next hv => rw [hv, Except.ok.inj h]
  · cases h

theorem exists_of_getAt (h : s.getAt i k x = .ok v) : ∃ j, s.lookup? j x = some v := by
  unfold getAt at h
  cases hj : s.ancestor i k x with
  | ok j => rw [hj] at h; exact ⟨j, lookup?_of_read h⟩
  | error fault => rw [hj] at h; cases h

theorem exists_of_get (h : s.get i x = .ok v) : ∃ j, s.lookup? j x = some v := by
  unfold get at h
  cases hj : s.find i x with
  | ok j => rw [hj] at h; exact ⟨j, lookup?_of_read h⟩
  | error fault => rw [hj] at h; cases h

theorem up?_succ (hj : s.up? k i = some j) (hp : s.parent? j = some p) :
    s.up? (k + 1) i = some p := by
  induction k generalizing i with
  | zero => rw [Scopes.up?, Option.some.inj hj, hp]; rfl
  | succ k ih =>
    obtain ⟨q, hq, hk⟩ := Option.bind_eq_some_iff.1 hj
    rw [Scopes.up?, hq]
    exact ih hk

end Scopes

namespace Eval

theorem exists_of_found {σ : Setting} {m : Machine} {node : NodeId} {name : Token} {v : Value}
    (h : found σ m node name = .ok v) : ∃ j, m.heap.scopes.lookup? j name.lexeme = some v := by
  unfold found at h
  split at h
  · exact Scopes.exists_of_getAt h
  · exact Scopes.exists_of_get h

end Eval

namespace Inheritance

open Eval (Quiet StmtMirrored Frames)

/-- The class that a statement may have returned has been made. -/
def Yields (h : Heap) (c : Completion) : Prop :=
  ∀ v, c = .returned v → Made h v

/-- A statement is about to be executed: the scopes mirror those of the walk, the ledger holds, and
the home fits. -/
structure Standing (programs : List (List Stmt)) (t : State) (home : Option Home)
    (scopes : List (Bindings Bool)) : Prop where
  sound : t.heap.Sound programs True
  holds : t.ledger.Holds programs t.heap
  control : t.heap.scopes.Control True scopes t.cursor
  home : Home.Fits t.heap t.ledger home scopes t.cursor

/-- An expression is about to be evaluated. -/
structure Facing (programs : List (List Stmt)) (t : State) (home : Option Home) (e : Expr)
    (scopes : List (Bindings Bool)) : Prop where
  sound : t.heap.Sound programs True
  holds : t.ledger.Holds programs t.heap
  ready : t.heap.scopes.Ready True e scopes t.cursor
  home : Home.Fits t.heap t.ledger home scopes t.cursor

def ExprFollows (programs : List (List Stmt)) (σ : Setting) (eval : Expr → Eval Value)
    (eval' : Option Home → Expr → Action Value) : Prop :=
  ∀ {e r t home}, Visits programs (.expr e r) → Facing programs t home e r.scopes →
    Follows programs σ t (eval e) (eval' home e) fun v t' =>
      Made t'.heap v ∧ Quiet programs True t.toMachine t'.toMachine

def StmtFollows (programs : List (List Stmt)) (σ : Setting) (exec : Stmt → Eval Completion)
    (exec' : Option Home → Stmt → Action Completion) : Prop :=
  ∀ {s r t home}, Visits programs (.stmt s r) → Standing programs t home r.scopes →
    Follows programs σ t (exec s) (exec' home s) fun c t' =>
      Yields t'.heap c ∧ t'.heap.Sound programs True ∧ t'.cursor = t.cursor ∧
        (c = .normal → Standing programs t' home (Resolver.stmt s r).scopes)

variable {programs : List (List Stmt)} {σ : Setting} {t t' : State} {home : Option Home}
  {scopes : List (Bindings Bool)} {exec : Stmt → Eval Completion}
  {exec' : Option Home → Stmt → Action Completion} {h : Heap} {l : Ledger}

theorem Standing.quiet (hs : Standing programs t home scopes) (hl : Later programs t t')
    (hq : Quiet programs True t.toMachine t'.toMachine) : Standing programs t' home scopes := by
  have hhome := hs.home.grows hl.grows
  rw [← show t'.cursor = t.cursor from hq.cursor] at hhome
  exact ⟨hq.sound, hl.holds, hq.control hs.control, hhome⟩

theorem Standing.facing (hs : Standing programs t home scopes) (e : Expr) :
    Facing programs t home e scopes :=
  ⟨hs.sound, hs.holds, .inl hs.control, hs.home⟩

theorem Facing.standing {e : Expr} (hf : Facing programs t home e scopes)
    (he : ∀ node name, e ≠ .variable node name) : Standing programs t home scopes :=
  ⟨hf.sound, hf.holds, hf.ready.control he, hf.home⟩

/-! ### Scopes that do not bind `this` -/

theorem Home.Fits.head {b b' : Bindings Bool} {c : ScopeId}
    (hf : Home.Fits h l home (b :: scopes) c) (hb : b'.contains "this" = b.contains "this") :
    Home.Fits h l home (b' :: scopes) c := by
  intro k hk
  refine hf k ?_
  rw [List.findIdx?_cons] at hk ⊢
  rwa [hb] at hk

/-- In front of an initializer and behind it. -/
theorem Home.Fits.declare {r : Resolver} {name : Token} {c : ScopeId}
    (hf : Home.Fits h l home r.scopes c) (hname : name.lexeme ≠ "this") :
    Home.Fits h l home (r.declare name).scopes c := by
  rcases Resolver.declare_scopes name r with he | ⟨-, he⟩ <;> rw [he]
  · exact hf
  · cases hs : r.scopes with
    | nil => exact nofun
    | cons b outer => exact (hs ▸ hf).head (Bindings.contains_set_of_ne hname false)

theorem Home.Fits.defining {x : String} {c : ScopeId} (hf : Home.Fits h l home scopes c)
    (hx : x ≠ "this") : Home.Fits h l home (Resolver.defining x scopes) c := by
  cases scopes with
  | nil => exact hf
  | cons b outer => exact hf.head (Bindings.contains_set_of_ne hx true)

theorem Home.Fits.enter {b : Bindings Bool} {c : ScopeId} (hf : Home.Fits h l home scopes c)
    (hb : b.contains "this" = false) (hc : c < h.scopes.size) (bindings : Bindings Value) :
    Home.Fits (h.addScope bindings c) l home (b :: scopes) h.scopes.size := by
  intro k hk
  rw [findIdx?_of_not_contains hb] at hk
  obtain ⟨k, hk', rfl⟩ := Option.map_eq_some_iff.1 hk
  obtain ⟨here, j, d, hhome, hj, hrest⟩ := hf.grows (.addScope h l bindings c) k hk'
  refine ⟨here, j, d, hhome, ?_, hrest⟩
  rw [Scopes.up?, Heap.addScope, Scopes.parent?_add_size _ _ hc]
  exact hj

/-! ### Bodies -/

theorem statements_follows (hs : StmtFollows programs σ exec exec') {body : List Stmt}
    {r : Resolver} (hv : Visits programs (.stmts body r))
    (hstand : Standing programs t home r.scopes) :
    Follows programs σ t (Eval.statements exec body) (Eval.statements (exec' home) body)
      fun c t' => Yields t'.heap c := by
  induction body generalizing r t with
  | nil => exact follows_pure hstand.holds nofun
  | cons s rest ih =>
    refine follows_bind (hs (hv.part (by simp [Call.parts])) hstand) ?_
    rintro (_ | v) t' hl ⟨hyields, -, -, hnext⟩
    · exact ih (hv.part (by simp [Call.parts])) (hnext rfl)
    · exact follows_pure hl.holds hyields

section Bodies

variable (hs : StmtFollows programs σ exec exec') (hm : StmtMirrored programs True σ exec exec)
  (hfs : ∀ s, Frames True (exec s))
include hs hm hfs

/-- Statements in a scope of their own. -/
theorem scope_follows {bindings : Bindings Value} {p : ScopeId} {body : List Stmt} {r : Resolver}
    (hv : Visits programs (.stmts body r)) (hl : t.ledger.Holds programs t.heap)
    (hb : ∀ {x v}, bindings.get? x = some v → Made t.heap v)
    (hsound : (t.heap.addScope bindings p).Sound programs True)
    (hc : (t.heap.addScope bindings p).scopes.Control True r.scopes t.heap.scopes.size)
    (hhome : Home.Fits (t.heap.addScope bindings p) t.ledger home r.scopes t.heap.scopes.size) :
    Follows programs σ t
      (Eval.newScope bindings p >>= fun scope => Eval.within scope (Eval.statements exec body))
      (onMachine (Eval.newScope bindings p) >>= fun scope =>
        within scope (Eval.statements (exec' home) body))
      fun c t' => Yields t'.heap c ∧ Quiet programs True t.toMachine t'.toMachine := by
  refine Follows.tracked ?_ (Eval.newScope_tracks hm hfs hv hsound hc)
  refine .after (.addScope t.heap t.ledger bindings p) (Eval.newScope_bind ..)
    (newScope_bind ..) (follows_within ?_)
  exact statements_follows (t := { t with
    heap := t.heap.addScope bindings p
    cursor := t.heap.scopes.size }) hs hv ⟨hsound, hl.addScope hb p, hc, hhome⟩

end Bodies

/-! ### Functions -/

/-- An initializer's closure binds `this` itself. -/
theorem Home.Fits.this_of_head {c : ScopeId} (hf : Home.Fits h l home scopes c)
    (hthis : scopes.head? = some [("this", true)]) : ∃ here, home = some here ∧
      h.scopes.lookup? c "this" = some (.instance here.receiver) := by
  obtain ⟨outer, rfl⟩ := List.head?_eq_some_iff.1 hthis
  obtain ⟨here, j, d, hhome, hj, hlookup, -⟩ := hf 0 (findIdx?_of_contains rfl)
  obtain rfl := Option.some.inj hj
  exact ⟨here, hhome, hlookup⟩

/-- An initializer yields the instance of its home. -/
theorem initializer_follows {here : Home} {closure : ScopeId} {line : Nat}
    (hl : t.ledger.Holds programs t.heap)
    (hthis : t.heap.scopes.lookup? closure "this" = some (.instance here.receiver)) :
    Follows programs σ t
      (Eval.heap >>= fun h => Eval.lift line (h.scopes.getAt closure 0 "this"))
      (receiver (some here) line) fun v t' => Made t'.heap v := by
  have hreceiver : receiver (some here) line σ t =
      (pure (.instance here.receiver) : Action Value) σ t := rfl
  refine .of_eq ?_ hreceiver (follows_pure hl (made_instance _))
  have hread : t.heap.scopes.getAt closure 0 "this" = .ok (.instance here.receiver) := by
    rw [Scopes.getAt_eq_read rfl, Scopes.read_eq_ok hthis]
  rw [Eval.heap_bind, hread]
  rfl

section Functions

variable (hσ : σ.distances.Suits programs True) (hs : StmtFollows programs σ exec exec')
  (hm : StmtMirrored programs True σ exec exec) (hfs : ∀ s, Frames True (exec s))
include hσ hs hm hfs

/-- A body is executed at the home of its function. -/
theorem callFunction_follows {f : Function} {arguments : List Value}
    (hf : Housed programs t.heap t.ledger f home) (ha : f.arity = arguments.length)
    (hargs : ∀ v ∈ arguments, Made t.heap v) (hsound : t.heap.Sound programs True)
    (hl : t.ledger.Holds programs t.heap) :
    Follows programs σ t (Eval.callFunction exec f arguments) (callFunction exec' f home arguments)
      fun v t' => Made t'.heap v := by
  obtain ⟨⟨name, parameters, body⟩, closure, isInitializer⟩ := f
  obtain ⟨context, r, hv, hfit, hhome, hinit⟩ := hf
  obtain ⟨hsound₁, hc⟩ := Eval.enter_body (m := t.toMachine) hσ hv hfit ha hsound
  have hparameters : (Resolver.parameterScope parameters).contains "this" = false := by
    have hformed := Eval.formed_of_visits hσ hv trivial
    simp only [Call.Formed, FunctionDecl.Formed] at hformed
    rw [Bindings.contains, Resolver.get?_parameterScope, if_neg]
    · rfl
    · intro hmem
      obtain ⟨p, hp, he⟩ := List.mem_map.1 hmem
      exact (hformed.2.1 p hp).ne_keyword .this he
  have hentered : Home.Fits
      (t.heap.addScope (Eval.parameterBindings parameters arguments) closure) t.ledger home
      (r.functionBody parameters context).scopes t.heap.scopes.size := by
    rw [Resolver.scopes_functionBody]
    exact hhome.enter hparameters (hfit.lt_size hsound.scopes) _
  have hvisit : Visits programs (.stmts body (r.functionBody parameters context)) :=
    hv.part (by simp [Call.parts])
  have hbody := scope_follows hs hm hfs hvisit hl
    (fun hx => hargs _ (Eval.mem_of_parameterBindings hx)) hsound₁ hc hentered
  unfold Eval.callFunction callFunction
  rw [← bind_assoc, ← bind_assoc]
  refine follows_bind hbody ?_
  rintro c t' hlater ⟨hyields, -⟩
  cases isInitializer with
  | true =>
    -- `this` is still what the closure was given
    obtain ⟨here, rfl, hthis⟩ := hhome.this_of_head (hinit rfl)
    exact initializer_follows hlater.holds (hlater.grows.implicit (.inl rfl) hthis)
  | false =>
    cases c with
    | normal => exact follows_pure hlater.holds made_nil
    | returned v => exact follows_pure hlater.holds (hyields v rfl)

end Functions

end Inheritance
end Treewalk
