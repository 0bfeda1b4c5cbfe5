import Treewalk.Proofs.Inheritance.Methods
/-!
# Nodes with a ledger

Given that the parts of a node are evaluated in the same way with a ledger and without one, so is the
node (`exprRule_follows`, `stmtRule_follows`). All parts of a node are at the home of the node.
-/

namespace Treewalk
namespace Inheritance

open Eval (Quiet StmtMirrored Frames)

variable {programs : List (List Stmt)} {σ : Setting} {t t' : State} {home : Option Home}
  {eval : Expr → Eval Value} {eval' : Option Home → Expr → Action Value}
  {exec : Stmt → Eval Completion} {exec' : Option Home → Stmt → Action Completion} {r : Resolver}

/-! ### Operators -/

theorem made_of_unary {h : Heap} {operator : Token} {v w : Value}
    (hw : Eval.unary (m := Except Stop) operator v = .ok w) : Made h w := by
  unfold Eval.unary at hw
  split at hw
  · cases hw; exact nofun
  · split at hw <;> cases hw
    exact nofun
  · cases hw

theorem made_of_arithmetic {h : Heap} {operator : Token} {x y : Float} {w : Value}
    (hw : Eval.arithmetic (m := Except Stop) operator x y = .ok w) : Made h w := by
  unfold Eval.arithmetic at hw
  split at hw <;> cases hw <;> exact nofun

theorem made_of_binary {h : Heap} {operator : Token} {v v' w : Value}
    (hw : Eval.binary (m := Except Stop) v operator v' = .ok w) : Made h w := by
  unfold Eval.binary at hw
  split at hw
  · cases hw; exact nofun
  · cases hw; exact nofun
  · split at hw <;> cases hw <;> exact nofun
  · split at hw
    · exact made_of_arithmetic hw
    · cases hw

theorem plainly_follows {α : Type} {result : Except RuntimeError α} {Q : α → State → Prop}
    (hl : t.ledger.Holds programs t.heap) (hq : ∀ a, result = .ok a → Q a t) :
    Follows programs σ t (Eval.plainly result) (Eval.plainly result) Q := by
  cases result with
  | ok a => exact follows_pure hl (hq a rfl)
  | error e => exact follows_throw hl

theorem unary_follows (hl : t.ledger.Holds programs t.heap) (operator : Token) (v : Value) :
    Follows programs σ t (Eval.unary operator v) (Eval.unary operator v)
      fun w t' => Made t'.heap w := by
  obtain ⟨result, hr, -⟩ := Eval.unary_plainly operator v
  rw [hr, hr]
  exact plainly_follows hl fun w hw => made_of_unary ((hr (M := Except Stop)).trans (hw ▸ rfl))

theorem binary_follows (hl : t.ledger.Holds programs t.heap) (v : Value) (operator : Token)
    (v' : Value) :
    Follows programs σ t (Eval.binary v operator v') (Eval.binary v operator v')
      fun w t' => Made t'.heap w := by
  obtain ⟨result, hr, -⟩ := Eval.binary_plainly v operator v'
  rw [hr, hr]
  exact plainly_follows hl fun w hw => made_of_binary ((hr (M := Except Stop)).trans (hw ▸ rfl))

/-! ### Names -/

theorem made_of_denotes {h : Heap} (value : Literal) : Made h value.denotes := by
  cases value <;> exact nofun

theorem lookUp_follows (hl : t.ledger.Holds programs t.heap) (node : NodeId) (name : Token) :
    Follows programs σ t (Eval.lookUp node name) (onMachine (Eval.lookUp node name))
      fun v t' => Made t'.heap v := by
  refine follows_settled (Eval.lookUp_run ..) hl fun v hv => ?_
  obtain ⟨j, hj⟩ := Eval.exists_of_found hv
  exact hl.made.scopes hj

theorem assign_follows {node : NodeId} {name : Token} {v : Value}
    (hl : t.ledger.Holds programs t.heap)
    (hname : name.lexeme ≠ "this" ∧ name.lexeme ≠ "super") (hv : Made t.heap v) :
    Follows programs σ t (Eval.assign node name v) (onMachine (Eval.assign node name v))
      fun _ _ => True := by
  cases hj : Eval.located σ t.toMachine node name with
  | ok j =>
    have hrun : Eval.assign node name v σ t.toMachine =
        .ok () { t.toMachine with heap := t.heap.define j name.lexeme v } := by
      rw [Eval.assign, Eval.bind_run, Eval.locate_run, hj]
      rfl
    exact follows_onMachine hrun (hl.define hname j hv) (.define hname ..) trivial
  | error fault =>
    have hrun : Eval.assign node name v σ t.toMachine =
        Eval.settled name.line (.error fault) t.toMachine := by
      rw [Eval.assign, Eval.bind_run, Eval.locate_run, hj]
      rfl
    exact follows_settled hrun hl fun _ _ => trivial

theorem define_follows {x : String} {v : Value} (hl : t.ledger.Holds programs t.heap)
    (hx : x ≠ "this" ∧ x ≠ "super") (hv : Made t.heap v) :
    Follows programs σ t (Eval.define x v) (onMachine (Eval.define x v)) fun _ _ => True :=
  follows_onMachine (Eval.define_run ..) (hl.define hx t.cursor hv) (.define hx ..) trivial

theorem print_follows (hl : t.ledger.Holds programs t.heap) (text : String) :
    Follows programs σ t (Eval.print text) (onMachine (Eval.print text)) fun _ _ => True := by
  have hlater : Later programs t { t with out := t.out.write (text ++ "\n").toUTF8 } :=
    ⟨hl, .refl _ _⟩
  unfold Follows onMachine
  rw [Eval.print_run]
  cases t.out.refusal? (text ++ "\n").toUTF8 with
  | none => exact .ok hlater trivial
  | some reason => exact .error hlater

/-! ### Expressions -/

section Expressions

variable (hσ : σ.distances.Suits programs True) (he : ExprFollows programs σ eval eval')
  (hs : StmtFollows programs σ exec exec') (hm : StmtMirrored programs True σ exec exec)
  (hfs : ∀ s, Frames True (exec s))

include he in
theorem values_follows {es : List Expr} (hv : Visits programs (.exprs es r))
    (hstand : Standing programs t home r.scopes) :
    Follows programs σ t (Eval.values eval es) (Eval.values (eval' home) es) fun vs t' =>
      (∀ v ∈ vs, Made t'.heap v) ∧ Quiet programs True t.toMachine t'.toMachine := by
  induction es generalizing r t with
  | nil => exact follows_pure hstand.holds ⟨nofun, hstand.sound, rfl, .refl _ _⟩
  | cons e rest ih =>
    refine follows_bind (he (hv.part (by simp [Call.parts])) (hstand.facing e)) ?_
    rintro v t' hl ⟨hmade, hq⟩
    have hstand' : Standing programs t' home (Resolver.expr e r).scopes := by
      rw [Resolver.scopes_expr]
      exact hstand.quiet hl hq
    refine follows_bind (ih (hv.part (by simp [Call.parts])) hstand') ?_
    rintro vs t'' hl' ⟨hmades, hq'⟩
    refine follows_pure hl'.holds ⟨fun w hw => ?_, hq.trans hq'⟩
    rcases List.mem_cons.1 hw with rfl | hw
    · exact hmade.grows hl'.grows
    · exact hmades w hw

include hσ he hs hm hfs

theorem exprRule_follows {e : Expr} (hv : Visits programs (.expr e r))
    (hface : Facing programs t home e r.scopes) :
    Follows programs σ t (Eval.exprRule eval exec e) (exprRule (eval' home) exec' home e)
      fun v t' => Made t'.heap v := by
  -- a part that is walked in the same scopes
  have part {p : Expr} {rp : Resolver} {u : State} (hpart : .expr p rp ∈ (Call.expr e r).parts)
      (hscopes : rp.scopes = r.scopes) (hl : Later programs t u)
      (hq : Quiet programs True t.toMachine u.toMachine) :
      Follows programs σ u (eval p) (eval' home p) fun v u' =>
        Made u'.heap v ∧ Quiet programs True t.toMachine u'.toMachine := by
    have hstand : Standing programs t home r.scopes :=
      hface.standing fun node name hvar => by subst hvar; cases hpart
    refine (he (hv.part hpart) ((hscopes ▸ hstand.quiet hl hq).facing p)).mono ?_
    exact fun v u' h => ⟨h.1, hq.trans h.2⟩
  have hl := hface.holds
  have here : Later programs t t := .refl hl
  have start : Quiet programs True t.toMachine t.toMachine := ⟨hface.sound, rfl, .refl _ _⟩
  cases e with
  | literal value => exact follows_pure hl (made_of_denotes value)
  | grouping inner => exact (part (by simp [Call.parts]) rfl here start).mono fun _ _ h => h.1
  | unary operator operand =>
    refine follows_bind (part (by simp [Call.parts]) rfl here start) ?_
    exact fun v t' hl' _ => unary_follows hl'.holds operator v
  | binary left operator right =>
    refine follows_bind (part (by simp [Call.parts]) rfl here start) fun v t' hl' hleft => ?_
    refine follows_bind (part (by simp [Call.parts]) (Resolver.scopes_expr left r) hl' hleft.2) ?_
    exact fun w t'' hl'' _ => binary_follows hl''.holds v operator w
  | logical left operator right =>
    refine follows_bind (part (by simp [Call.parts]) rfl here start) fun v t' hl' hleft => ?_
    split
    · exact follows_pure hl'.holds hleft.1
    · exact (part (by simp [Call.parts]) (Resolver.scopes_expr left r) hl' hleft.2).mono
        fun _ _ h => h.1
  | «variable» node name => exact lookUp_follows hl node name
  | assign node name value =>
    have hname := Eval.formed_of_visits hσ hv trivial
    simp only [Call.Formed, Expr.Formed] at hname
    refine follows_bind (part (by simp [Call.parts]) rfl here start) fun v t' hl' hvalue => ?_
    refine follows_bind (assign_follows hl'.holds
      ⟨hname.1.ne_keyword .this, hname.1.ne_keyword .super⟩ hvalue.1) ?_
    exact fun _ t'' hl'' _ => follows_pure hl''.holds (hvalue.1.grows hl''.grows)
  | call callee closing arguments =>
    have hscopes : (r.checkCallee callee).scopes = r.scopes :=
      (Resolver.checkCallee_notes callee r).scopes
    refine follows_bind (part (by simp [Call.parts]) hscopes here start) fun f t' hl' hcallee => ?_
    have hstand : Standing programs t' home
        (Resolver.expr callee (r.checkCallee callee)).scopes := by
      rw [Resolver.scopes_expr, hscopes]
      exact (hface.standing (by simp)).quiet hl' hcallee.2
    refine follows_bind (values_follows he (hv.part (by simp [Call.parts])) hstand) ?_
    exact fun vs t'' hl'' hvalues =>
      callValue_follows hσ hs hm hfs f closing.line hvalues.1 hvalues.2.sound hl''.holds
  | get object name =>
    refine follows_bind (part (by simp [Call.parts]) rfl here start) ?_
    exact fun v t' hl' hobject => getProperty_follows v name hl'.holds hobject.2.sound.scopes
  | set object name value =>
    refine follows_bind (part (by simp [Call.parts]) (Resolver.scopes_expr value r) here start)
      fun v t' hl' hobject => ?_
    cases v with
    | «instance» i =>
      refine follows_bind (part (by simp [Call.parts]) rfl hl' hobject.2)
        fun w t'' hl'' hvalue => ?_
      refine follows_bind (Q := fun _ _ => True) (follows_onMachine (Eval.modifyHeap_run ..)
        (hl''.holds.setField i name.lexeme hvalue.1) (.setField ..) trivial) ?_
      exact fun _ t₃ hl₃ _ => follows_pure hl₃.holds (hvalue.1.grows hl₃.grows)
    | _ => exact follows_throw hl'.holds
  | this node keyword => exact this_follows hσ hv (hface.standing (by simp))
  | super node keyword method => exact superMethod_follows hσ hv (hface.standing (by simp))

end Expressions

/-! ### Classes -/

/-- A class is made as it is declared. -/
theorem declareClass_follows {name : Token} (superclass : Option ClassId)
    {ms : List FunctionDecl} {rm : Resolver} (hstand : Standing programs t home r.scopes)
    (hname : name.lexeme ≠ "this" ∧ name.lexeme ≠ "super")
    (hmade : ∀ s, superclass = some s → s < t.heap.classes.size)
    (hv : Visits programs (.methods ms rm))
    (hscopes : rm.scopes = [("this", true)] :: match superclass with
      | none => Resolver.defining name.lexeme r.scopes
      | some _ => [("super", true)] :: Resolver.defining name.lexeme r.scopes) :
    Follows programs σ t (Eval.declareClass name superclass ms) (declareClass name superclass ms)
      fun _ _ => True := by
  have hl := hstand.holds
  have hsize := hstand.sound.scopes
  cases superclass with
  | none =>
    have hcontrol := hstand.control.define hsize name.lexeme (.class t.heap.classes.size)
    have hdeclared := hl.declareClass (d := ⟨ms, none, t.cursor⟩) hname t.cursor
      (fun hs => by cases hs) fun hf => by
        obtain ⟨r', hv', hr'⟩ := Eval.visits_method hv hf
        exact ⟨_, r', _, hv', hr'.trans hscopes, hcontrol.fits,
          fun hs => absurd hs (Resolver.head?_defining_ne hname.2 r.scopes)⟩
    exact follows_of_run rfl rfl hdeclared
      ((Grows.define hname t.heap t.ledger ..).trans (.addClass ..)) trivial
  | some s =>
    have hbound : (t.heap.addScope [("super", .class s)] t.cursor).scopes.lookup?
        t.heap.scopes.size "super" = some (.class s) := Scopes.lookup?_add_size ..
    have hl₁ := hl.addSingle (v := .class s) (fun c hc => Value.class.inj hc ▸ hmade s rfl)
      "super" t.cursor
    have hdeclared := hl₁.declareClass (d := ⟨ms, some s, t.heap.scopes.size⟩) hname t.cursor
      (fun hs => Option.some.inj hs ▸ ⟨hmade s rfl, hbound⟩) fun hf => by
        obtain ⟨r', hv', hr'⟩ := Eval.visits_method hv hf
        exact ⟨_, r', _, hv', hr'.trans hscopes,
          hstand.control.fits_single hsize "super" (.class s) name.lexeme _, fun _ => rfl⟩
    exact follows_of_run rfl rfl hdeclared ((Grows.addScope t.heap t.ledger ..).trans
      ((Grows.define hname ..).trans (.addClass ..))) trivial

/-! ### Statements -/

theorem yields_normal {h : Heap} : Yields h .normal :=
  nofun

theorem yields_returned {h : Heap} {v : Value} (hv : Made h v) : Yields h (.returned v) :=
  fun _ he => Completion.returned.inj he ▸ hv

section Statements

variable (hσ : σ.distances.Suits programs True) (he : ExprFollows programs σ eval eval')
  (hs : StmtFollows programs σ exec exec') (hm : StmtMirrored programs True σ exec exec)
  (hfs : ∀ s, Frames True (exec s))

include he hs in
theorem loop_follows {condition : Expr} {body : Stmt} (hσ : σ.distances.Suits programs True)
    (hv : Visits programs (.stmt (.while condition body) r))
    (hstand : Standing programs t home r.scopes) (n : Nat) :
    Follows programs σ t (Eval.loop eval exec condition body n)
      (Eval.loop (eval' home) (exec' home) condition body n) fun c t' => Yields t'.heap c := by
  have hcond := Resolver.scopes_expr condition r
  have hbodyVisit : Visits programs (.stmt body (Resolver.expr condition r)) :=
    hv.part (by simp [Call.parts])
  have hbehind := Eval.scopes_loopBody hσ hv trivial
  induction n generalizing t with
  | zero => exact follows_throw hstand.holds
  | succ n ih =>
    refine follows_bind (he (hv.part (by simp [Call.parts])) (hstand.facing condition)) ?_
    rintro v t' hl ⟨-, hq⟩
    have hstand' := hstand.quiet hl hq
    split
    · refine follows_bind (hs hbodyVisit (hcond ▸ hstand')) ?_
      rintro (_ | w) t'' hl' ⟨hyields, -, -, hnext⟩
      · exact ih (hbehind ▸ hnext rfl)
      · exact follows_pure hl'.holds hyields
    · exact follows_pure hl.holds yields_normal

include hs hm hfs in
theorem block_follows {body : List Stmt} (hv : Visits programs (.stmt (.block body) r))
    (hstand : Standing programs t home r.scopes) (n : Nat) :
    Follows programs σ t (Eval.stmtRule eval exec n (.block body))
      (stmtRule (eval' home) (exec' home) n home (.block body)) fun c t' => Yields t'.heap c := by
  have hsize := hstand.sound.scopes
  have hsound : (t.heap.addScope [] t.cursor).Sound programs True :=
    hstand.sound.addScope (fun _ v hx => by cases hx) (fun _ v hx => by cases hx) t.cursor
  have entered : (t.heap.addScope [] t.cursor).scopes.Control True (r.push []).scopes
      t.heap.scopes.size :=
    .add hstand.control.fits hsize fun _ x => by simp [Bindings.get?]
  have hhome : Home.Fits (t.heap.addScope [] t.cursor) t.ledger home (r.push []).scopes
      t.heap.scopes.size :=
    hstand.home.enter rfl (hstand.control.fits.lt_size hsize) []
  refine .of_eq (Eval.get_bind ..) (get_bind ..) ?_
  exact (scope_follows hs hm hfs (hv.part (p := .stmts body (r.push [])) (by simp [Call.parts]))
    hstand.holds (fun hx => by cases hx) hsound entered hhome).mono fun _ _ h => h.1

/-- A function is at the home of the statement that declares it. -/
theorem function_follows {f : FunctionDecl} (hv : Visits programs (.stmt (.function f) r))
    (hname : f.name.lexeme ≠ "this" ∧ f.name.lexeme ≠ "super")
    (hstand : Standing programs t home r.scopes) (n : Nat) :
    Follows programs σ t (Eval.stmtRule eval exec n (.function f))
      (stmtRule (eval' home) (exec' home) n home (.function f)) fun c t' => Yields t'.heap c := by
  have hcontrol := hstand.control.define hstand.sound.scopes f.name.lexeme
    (.function t.heap.functions.size)
  have g := Grows.define hname t.heap t.ledger t.cursor (.function t.heap.functions.size)
  have hl := hstand.holds.define hname t.cursor (made_function t.heap.functions.size)
  have hhoused : Housed programs
      (t.heap.define t.cursor f.name.lexeme (.function t.heap.functions.size)) t.ledger
      ⟨f, t.cursor, false⟩ home := by
    refine ⟨.function, r.named f.name, hv.part (by simp [Call.parts]), ?_, ?_, nofun⟩
    · rw [Resolver.scopes_named]
      exact hcontrol.fits
    · rw [Resolver.scopes_named]
      exact (hstand.home.grows g).defining hname.1
  exact follows_of_run rfl rfl (hl.addFunction hhoused) (g.trans (.addFunction ..)) yields_normal

include hσ he hs

theorem if_follows {condition : Expr} {consequent : Stmt} {alternative : Option Stmt}
    (hv : Visits programs (.stmt (.if condition consequent alternative) r))
    (hstand : Standing programs t home r.scopes) (n : Nat) :
    Follows programs σ t (Eval.stmtRule eval exec n (.if condition consequent alternative))
      (stmtRule (eval' home) (exec' home) n home (.if condition consequent alternative))
      fun c t' => Yields t'.heap c := by
  obtain ⟨hcond, hcons⟩ := Eval.visits_if hv
  refine follows_bind (he hcond (hstand.facing condition)) ?_
  rintro v t' hl ⟨-, hq⟩
  have hstand' := hstand.quiet hl hq
  split
  · exact (hs hcons ((Resolver.scopes_expr condition r).symm ▸ hstand')).mono fun _ _ h => h.1
  · cases alternative with
    | none => exact follows_pure hl.holds yields_normal
    | some alternative =>
      have halt : Visits programs
          (.stmt alternative (Resolver.stmt consequent (Resolver.expr condition r))) :=
        hv.part (by simp [Call.parts])
      have hleft := Eval.scopes_consequent hσ hv trivial
      exact (hs halt (hleft.symm ▸ hstand')).mono fun _ _ h => h.1

omit hs in
theorem class_follows {name : Token} {superclass : Option Expr} {ms : List FunctionDecl}
    (hv : Visits programs (.stmt (.class name superclass ms) r))
    (hname : name.lexeme ≠ "this" ∧ name.lexeme ≠ "super")
    (hstand : Standing programs t home r.scopes) (n : Nat) :
    Follows programs σ t (Eval.stmtRule eval exec n (.class name superclass ms))
      (stmtRule (eval' home) (exec' home) n home (.class name superclass ms))
      fun c t' => Yields t'.heap c := by
  cases superclass with
  | none =>
    have hms : Visits programs (.methods ms (r.classBody name)) := hv.part (by simp [Call.parts])
    refine follows_bind (declareClass_follows none hstand hname nofun hms
      (Resolver.scopes_classBody ..)) ?_
    exact fun _ t' hl _ => follows_pure hl.holds yields_normal
  | some superclass =>
    obtain ⟨hsuper, hms⟩ := Eval.visits_subclass hv
    have hface : Facing programs t home superclass (r.beforeSuperclass name superclass).scopes := by
      refine ⟨hstand.sound, hstand.holds, Eval.superclass_ready hσ hv hstand.control, ?_⟩
      rw [Resolver.scopes_beforeSuperclass]
      exact hstand.home.defining hname.1
    refine follows_bind (he hsuper hface) ?_
    rintro v t' hl ⟨hmade, hq⟩
    cases v with
    | «class» s =>
      refine follows_bind (declareClass_follows (some s) (hstand.quiet hl hq) hname
        (fun s' hs' => Option.some.inj hs' ▸ hmade s rfl) hms (Resolver.scopes_subclassBody ..)) ?_
      exact fun _ t'' hl' _ => follows_pure hl'.holds yields_normal
    | _ => exact follows_throw hl.holds

include hm hfs

theorem stmtRule_follows {s : Stmt} (hv : Visits programs (.stmt s r))
    (hstand : Standing programs t home r.scopes) (n : Nat) :
    Follows programs σ t (Eval.stmtRule eval exec n s)
      (stmtRule (eval' home) (exec' home) n home s) fun c t' => Yields t'.heap c := by
  have hformed : s.Formed Token.Spelled := Eval.formed_of_visits hσ hv trivial
  have hname {name : Token} (hd : s.declared? = some name) :
      name.lexeme ≠ "this" ∧ name.lexeme ≠ "super" :=
    ⟨(hformed.declared hd).ne_keyword .this, (hformed.declared hd).ne_keyword .super⟩
  -- an expression that is walked in the same scopes
  have part {p : Expr} {rp : Resolver} (hpart : .expr p rp ∈ (Call.stmt s r).parts)
      (hrp : rp.scopes = r.scopes) :
      Follows programs σ t (eval p) (eval' home p) fun v t' => Made t'.heap v :=
    (he (hv.part hpart) ((hrp.symm ▸ hstand).facing p)).mono fun _ _ h => h.1
  cases s with
  | expression e =>
    refine follows_bind (part (by simp [Call.parts]) rfl) ?_
    exact fun v t' hl _ => follows_pure hl.holds yields_normal
  | print e =>
    refine follows_bind (part (by simp [Call.parts]) rfl) fun v t' hl _ => ?_
    refine .of_eq (Eval.heap_bind ..) (get_bind ..) (follows_bind (print_follows hl.holds _) ?_)
    exact fun _ t'' hl' _ => follows_pure hl'.holds yields_normal
  | var name initial =>
    cases initial with
    | none =>
      refine follows_bind (define_follows hstand.holds (hname rfl) made_nil) ?_
      exact fun _ t' hl _ => follows_pure hl.holds yields_normal
    | some e =>
      -- the initializer is walked when the name is declared, but not yet defined
      have hdeclared : Standing programs t home (r.declare name).scopes :=
        ⟨hstand.sound, hstand.holds, hstand.control.declare name,
          hstand.home.declare (hname rfl).1⟩
      refine follows_bind (he (hv.part (by simp [Call.parts])) (hdeclared.facing e)) ?_
      rintro v t' hl ⟨hmade, -⟩
      refine follows_bind (define_follows hl.holds (hname rfl) hmade) ?_
      exact fun _ t'' hl' _ => follows_pure hl'.holds yields_normal
  | block body => exact block_follows hs hm hfs hv hstand n
  | «if» condition consequent alternative => exact if_follows hσ he hs hv hstand n
  | «while» condition body => exact loop_follows he hs hσ hv hstand n
  | function f => exact function_follows hv (hname rfl) hstand n
  | «return» keyword value =>
    cases value with
    | none => exact follows_pure hstand.holds (yields_returned made_nil)
    | some e =>
      refine follows_bind (part (List.mem_singleton_self _)
        (Resolver.checkReturn_notes keyword true r).scopes) ?_
      exact fun v t' hl hmade => follows_pure hl.holds (yields_returned hmade)
  | «class» name superclass ms => exact class_follows hσ he hv (hname rfl) hstand n

end Statements

end Inheritance
end Treewalk
