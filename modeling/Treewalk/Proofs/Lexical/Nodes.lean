import Treewalk.Proofs.Lexical.Calls
/-!
# Nodes in step

Given that the parts of a node are evaluated in step, so is the node: an expression by the scopes and
by the list of local names that it is in (`exprRule_inStep`), a statement moreover so that the list
behind it fits the scopes behind it (`stmtRule_inStep`).
-/

namespace Treewalk
namespace Lexical

open Eval (Quiet StmtMirrored ExprMirrored Frames)

variable {programs : List (List Stmt)} {γ γ' : Plan} {m m' : Machine} {s s' : Store}
  {σ : Treewalk.Setting} {τ : Setting} {escape : Stop → Prop} {eval : Expr → Eval Value}
  {eval' : Place → Expr → Action Value} {exec : Stmt → Eval Completion}
  {exec' : Place → Stmt → Action Finish} {place : Place} {r : Resolver}

/-! ### Operators -/

theorem unary_inStep (hp : Paired programs γ m s) (operator : Token) (v : Value) :
    InStep σ τ escape m s (Eval.unary operator v) (Eval.unary operator v) (Gives programs γ) := by
  obtain ⟨result, hr, -⟩ := Eval.unary_plainly operator v
  rw [hr, hr]
  exact inStep_plainly (fun _ => ⟨rfl, hp.later⟩) hp.out

theorem binary_inStep (hp : Paired programs γ m s) (v : Value) (operator : Token) (w : Value) :
    InStep σ τ escape m s (Eval.binary v operator w) (Eval.binary v operator w)
      (Gives programs γ) := by
  obtain ⟨result, hr, -⟩ := Eval.binary_plainly v operator w
  rw [hr, hr]
  exact inStep_plainly (fun _ => ⟨rfl, hp.later⟩) hp.out

theorem print_inStep (hp : Paired programs γ m s) (text : String) :
    InStep σ τ escape m s (Eval.print text) (print text) fun _ m' _ s' =>
      Paired programs γ m' s' ∧ m'.heap = m.heap ∧ m'.cursor = m.cursor := by
  unfold InStep
  rw [Eval.print_run, print_run, hp.out]
  cases m.out.refusal? (text ++ "\n").toUTF8 with
  | none => exact .ok ⟨⟨{ hp.linked with }, rfl, hp.readings⟩, rfl, rfl⟩
  | some reason => exact .error rfl

/-! ### Expressions -/

theorem Gives.mono {v v' : Value} (h : Gives programs γ' v m v' s) (hγ : γ <+: γ') :
    Gives programs γ v m v' s :=
  ⟨h.1, h.2.mono hγ⟩

section Expressions

variable (hσ : σ.distances.Suits programs True) (hclock : τ.clock = σ.clock)
  (he : ExprInStep programs σ τ eval eval') (hs : StmtInStep programs σ τ exec exec')
  (hm : StmtMirrored programs True σ exec exec) (hfs : ∀ st, Frames True (exec st))

include he in
theorem values_inStep {es : List Expr} (hv : Visits programs (.exprs es r))
    (hsound : m.heap.Sound programs True) (hstand : Standing γ m r.scopes place)
    (hp : Paired programs γ m s) :
    InStep σ τ (Escape programs τ.strict) m s (Eval.values eval es) (Eval.values (eval' place) es)
      fun vs m' vs' s' => vs' = vs ∧ Later programs γ m' s' ∧ Quiet programs True m m' := by
  induction es generalizing r m s γ with
  | nil => exact inStep_pure ⟨rfl, hp.later, hsound, rfl, .refl _ _⟩
  | cons e rest ih =>
    refine inStep_bind (he (hv.part (by simp [Call.parts])) hsound (.inl hstand) hp) ?_
    rintro _ m' v s' ⟨⟨rfl, γ', hγ, hp'⟩, hq⟩
    have hstand' : Standing γ' m' (Resolver.expr e r).scopes place := by
      rw [Resolver.scopes_expr]
      exact hstand.quiet hq hγ
    refine inStep_bind (ih (hv.part (by simp [Call.parts])) hq.sound hstand' hp') ?_
    rintro _ m'' vs s'' ⟨rfl, hlater, hq'⟩
    exact inStep_pure ⟨rfl, hlater.mono hγ, hq.trans hq'⟩

/-- A variable that is no superclass is looked up in the walk's scopes, a superclass in those without
the name of its class. -/
theorem variable_inStep {node : NodeId} {name : Token} (hσ : σ.distances.Suits programs True)
    (hv : Visits programs (.expr (.variable node name) r))
    (hface : Facing γ m (.variable node name) r.scopes place) (hp : Paired programs γ m s) :
    InStep σ τ escape m s (Eval.lookUp node name) (lookUp place.env name.lexeme name.line)
      (Gives programs γ) := by
  obtain ⟨hd, hown⟩ := variable_resolved hσ hv
  have gives {v v' : Value} {m' : Machine} {s' : Store} (h : v' = v ∧ m' = m ∧ s' = s) :
      Gives programs γ v m' v' s' := by
    obtain ⟨rfl, rfl, rfl⟩ := h
    exact ⟨rfl, hp.later⟩
  rcases hface with hstand | ⟨node', name', x, before, hvar, hne, hscopes, hstand⟩
  · exact (lookUp_inStep hp hstand.fits.env hown hd).mono fun _ _ _ _ => gives
  · obtain ⟨-, rfl⟩ := Expr.variable.inj hvar
    have hpast : Past r.scopes name.lexeme := hown
    have hd' : σ.distances[node]? = r.scopes.findIdx? (·.contains name.lexeme) := hd
    rw [hscopes] at hd' hpast
    have hboth : σ.distances[node]? = before.findIdx? (·.contains name.lexeme) ∧
        Past before name.lexeme := by
      cases before with
      | nil => exact ⟨hd', hpast⟩
      | cons b outer =>
        exact ⟨hd'.trans (findIdx?_set_of_ne (Ne.symm hne) true),
          (past_set_of_ne (Ne.symm hne) true).1 hpast⟩
    exact (lookUp_inStep hp hstand.fits.env hboth.2 hboth.1).mono fun _ _ _ _ => gives

theorem this_inStep_of_visits {node : NodeId} {keyword : Token}
    (hσ : σ.distances.Suits programs True) (hv : Visits programs (.expr (.this node keyword) r))
    (hstand : Standing γ m r.scopes place) (hp : Paired programs γ m s) :
    InStep σ τ escape m s (Eval.lookUp node keyword) (lookUp place.env keyword.lexeme keyword.line)
      (Gives programs γ) := by
  obtain ⟨hthis, k, hd, hk, hb⟩ := this_resolved hσ hv
  have hpast : Past r.scopes keyword.lexeme := by
    rw [hthis]
    exact past_of_implicit hk hb
  refine (lookUp_inStep hp hstand.fits.env hpast ?_).mono ?_
  · rw [hd, hthis]
    exact hk.symm
  · rintro _ _ _ _ ⟨rfl, rfl, rfl⟩
    exact ⟨rfl, hp.later⟩

include hσ hclock he hs hm hfs

theorem exprRule_inStep {e : Expr} (hv : Visits programs (.expr e r))
    (hsound : m.heap.Sound programs True) (hface : Facing γ m e r.scopes place)
    (hp : Paired programs γ m s) :
    InStep σ τ (Escape programs τ.strict) m s (Eval.exprRule eval exec e)
      (exprRule (eval' place) exec' place e) (Gives programs γ) := by
  -- a part that is walked in the same scopes
  have part {p : Expr} {rp : Resolver} {m' : Machine} {s' : Store} {γ' : Plan}
      (hpart : .expr p rp ∈ (Call.expr e r).parts) (hscopes : rp.scopes = r.scopes)
      (hq : Quiet programs True m m') (hγ : γ <+: γ') (hp' : Paired programs γ' m' s') :
      InStep σ τ (Escape programs τ.strict) m' s' (eval p) (eval' place p)
        fun v m'' v' s'' => v' = v ∧ Quiet programs True m m'' ∧
          ∃ γ'', γ <+: γ'' ∧ Paired programs γ'' m'' s'' := by
    have hstand : Standing γ m r.scopes place :=
      hface.standing fun node name hvar => by subst hvar; cases hpart
    refine (he (hv.part hpart) hq.sound (.inl (hscopes ▸ hstand.quiet hq hγ)) hp').mono ?_
    rintro v m'' _ s'' ⟨⟨rfl, γ'', hγ', hp''⟩, hq'⟩
    exact ⟨rfl, hq.trans hq', γ'', hγ.trans hγ', hp''⟩
  have start : Quiet programs True m m := ⟨hsound, rfl, .refl _ _⟩
  have here := List.prefix_refl γ
  cases e with
  | literal value => exact inStep_pure ⟨rfl, hp.later⟩
  | grouping inner =>
    refine (part (by simp [Call.parts]) rfl start here hp).mono ?_
    rintro _ m' v s' ⟨rfl, -, γ', hγ, hp'⟩
    exact ⟨rfl, γ', hγ, hp'⟩
  | unary operator operand =>
    refine inStep_bind (part (by simp [Call.parts]) rfl start here hp) ?_
    rintro _ m' v s' ⟨rfl, -, γ', hγ, hp'⟩
    exact (unary_inStep hp' operator v).mono fun _ _ _ _ h => h.mono hγ
  | binary left operator right =>
    refine inStep_bind (part (by simp [Call.parts]) rfl start here hp) ?_
    rintro _ m' v s' ⟨rfl, hq, γ', hγ, hp'⟩
    refine inStep_bind (part (by simp [Call.parts]) (Resolver.scopes_expr left r) hq hγ hp') ?_
    rintro _ m'' w s'' ⟨rfl, -, γ'', hγ', hp''⟩
    exact (binary_inStep hp'' v operator w).mono fun _ _ _ _ h => h.mono hγ'
  | logical left operator right =>
    refine inStep_bind (part (by simp [Call.parts]) rfl start here hp) ?_
    rintro _ m' v s' ⟨rfl, hq, γ', hγ, hp'⟩
    split
    · exact inStep_pure ⟨rfl, γ', hγ, hp'⟩
    · refine (part (by simp [Call.parts]) (Resolver.scopes_expr left r) hq hγ hp').mono ?_
      rintro _ m'' w s'' ⟨rfl, -, γ'', hγ', hp''⟩
      exact ⟨rfl, γ'', hγ', hp''⟩
  | «variable» node name => exact variable_inStep hσ hv hface hp
  | assign node name value =>
    refine inStep_bind (part (by simp [Call.parts]) rfl start here hp) ?_
    rintro _ m' v s' ⟨rfl, hq, γ', hγ, hp'⟩
    have hstand := (hface.standing nofun).quiet hq hγ
    refine inStep_bind (assign_inStep hp' hstand hq.sound.scopes
      (hσ.agrees hv List.mem_cons_self) fun hpast hstrict => ?_) ?_
    · exact ⟨hstrict, node, name, value, ⟨node, name, value, r, rfl, hv, not_not.1 hpast⟩, rfl⟩
    · rintro _ m'' _ s'' hlater
      exact inStep_pure ⟨rfl, hlater.mono hγ⟩
  | call callee closing arguments =>
    have hscopes : (r.checkCallee callee).scopes = r.scopes :=
      (Resolver.checkCallee_notes callee r).scopes
    refine inStep_bind (part (by simp [Call.parts]) hscopes start here hp) ?_
    rintro _ m' f s' ⟨rfl, hq, γ', hγ, hp'⟩
    have hstand : Standing γ' m' (Resolver.expr callee (r.checkCallee callee)).scopes place := by
      rw [Resolver.scopes_expr, hscopes]
      exact (hface.standing nofun).quiet hq hγ
    refine inStep_bind (values_inStep he (hv.part (by simp [Call.parts])) hq.sound hstand hp') ?_
    rintro _ m'' vs s'' ⟨rfl, ⟨γ'', hγ', hp''⟩, hq'⟩
    exact (callValue_inStep hσ hs hm hfs hclock f vs closing.line hq'.sound hp'').mono
      fun _ _ _ _ h => h.mono (hγ.trans hγ')
  | get object name =>
    refine inStep_bind (part (by simp [Call.parts]) rfl start here hp) ?_
    rintro _ m' v s' ⟨rfl, hq, γ', hγ, hp'⟩
    exact (getProperty_inStep hq.sound hp' v name).mono fun _ _ _ _ h => h.mono hγ
  | set object name value =>
    refine inStep_bind (part (by simp [Call.parts]) (Resolver.scopes_expr value r) start here hp) ?_
    rintro _ m' v s' ⟨rfl, hq, γ', hγ, hp'⟩
    cases v with
    | «instance» i =>
      refine inStep_bind (part (by simp [Call.parts]) rfl hq hγ hp') ?_
      rintro _ m'' w s'' ⟨rfl, -, γ'', hγ', hp''⟩
      exact .ok ⟨rfl, γ'', hγ', hp''.linked.setField i name.lexeme w, hp''.out, hp''.readings⟩
    | _ => exact inStep_throw hp'.out
  | this node keyword => exact this_inStep_of_visits hσ hv (hface.standing nofun) hp
  | super node keyword method =>
    exact superMethod_inStep hσ hv hsound (hface.standing nofun) hp

end Expressions

/-! ### Statements -/

/-- How a statement has ended: where it has finished normally, the list of local names fits the
scopes of the walk behind it. -/
def Ended (programs : List (List Stmt)) (γ : Plan) (scopes : List (Bindings Bool)) (c : Completion)
    (m : Machine) (f : Finish) (s : Store) : Prop :=
  ∃ γ', γ <+: γ' ∧ Paired programs γ' m s ∧
    Finishes (fun place => place.Fits γ' m.heap.scopes scopes m.cursor) c f

theorem Ended.mono {scopes : List (Bindings Bool)} {c : Completion} {f : Finish}
    (h : Ended programs γ' scopes c m f s) (hγ : γ <+: γ') : Ended programs γ scopes c m f s := by
  obtain ⟨γ'', hγ', hrest⟩ := h
  exact ⟨γ'', hγ.trans hγ', hrest⟩

theorem StmtGives.ended {r' : Resolver} {c : Completion} {f : Finish}
    (h : StmtGives programs γ m r' c m' f s') : Ended programs γ r'.scopes c m' f s' := by
  obtain ⟨-, γ', hγ, hp, hf⟩ := h
  exact ⟨γ', hγ, hp, hf.mono fun _ hstand => hstand.fits⟩

theorem ended_normal {scopes : List (Bindings Bool)} (hp : Paired programs γ' m s) (hγ : γ <+: γ')
    (hf : place.Fits γ' m.heap.scopes scopes m.cursor) :
    Ended programs γ scopes .normal m (.normal place) s :=
  ⟨γ', hγ, hp, .normal hf⟩

/-- In front of an initializer its variable is declared but not listed. -/
theorem Standing.initializer {name : Token} (h : Standing γ m r.scopes place)
    (hall : AllDefined r.scopes) (hnone : r.innermost? name.lexeme = none) :
    Standing γ m (r.declare name).scopes (place.initializer name.lexeme) := by
  refine ⟨h.control.declare name, ?_⟩
  have hscopes : (r.declare name).scopes = r.scopes.modifyHead (·.set name.lexeme false) := by
    unfold Resolver.declare
    rw [hnone, if_neg (by simp)]
    exact Resolver.scopes_bind ..
  rw [hscopes]
  have hfits := h.fits
  unfold Place.initializer
  cases hs : r.scopes with
  | nil =>
    rw [hs] at hfits
    rw [if_neg (by simp [hfits.isLocal])]
    exact hfits
  | cons b outer =>
    rw [hs] at hfits hall
    rw [if_pos (by simp [hfits.isLocal])]
    refine ⟨hfits.env.declare name.lexeme, hfits.isLocal, fun x => ?_⟩
    by_cases hx : name.lexeme = x
    · subst hx
      refine ⟨fun _ hpast => hpast ?_, fun _ => rfl⟩
      show (b.set name.lexeme false).get? name.lexeme = some false
      rw [Bindings.get?_set, if_pos rfl]
    · refine ⟨fun he => absurd (Option.some.inj he) hx, fun hpast => absurd ?_ hpast⟩
      exact (past_set_of_ne hx false).2 (past_of_allDefined hall x)

/-- A name that the walk has not yet declared in its innermost scope. -/
theorem Standing.define_inStep {name : Token} (h : Standing γ m r.scopes place)
    (hsound : m.heap.Sound programs True) (hall : AllDefined r.scopes)
    (hnone : r.innermost? name.lexeme = none) (hp : Paired programs γ m s) (v : Value) :
    InStep σ τ escape m s (Eval.define name.lexeme v) (declare place name.lexeme v)
      fun _ m' place' s' => m' = { m with heap := m.heap.define m.cursor name.lexeme v } ∧
        ∃ γ', γ <+: γ' ∧ Paired programs γ' m' s' ∧
          place'.Fits γ' m'.heap.scopes (Resolver.defining name.lexeme r.scopes) m'.cursor := by
  refine declare_inStep hp hsound.scopes h.control.fits h.fits hall fun hne =>
    lookup?_eq_none_of_control h.control hne ?_
  rw [show r.scopes.head?.bind (·.get? name.lexeme) = none from hnone]
  simp

/-! ### Classes -/

theorem methodTable_follows {ms : List FunctionDecl} {scopes : Scopes} {closure : ScopeId}
    {env : Env}
    (h : ∀ f ∈ ms, Function.FollowsUnbound programs γ scopes ⟨f, closure, f.isInitializer⟩
      ⟨f, env, f.isInitializer⟩) (x : String) :
    Option.Rel (Function.FollowsUnbound programs γ scopes) ((Eval.methodTable ms closure).get? x)
      ((methodTable ms env).get? x) := by
  have general (b : Bindings Function) (b' : Bindings Closure)
      (hb : ∀ x, Option.Rel (Function.FollowsUnbound programs γ scopes) (b.get? x) (b'.get? x)) :
      Option.Rel (Function.FollowsUnbound programs γ scopes)
        ((ms.foldl (fun b f => b.set f.name.lexeme ⟨f, closure, f.isInitializer⟩) b).get? x)
        ((ms.foldl (fun b f => b.set f.name.lexeme ⟨f, env, f.isInitializer⟩) b').get? x) := by
    induction ms generalizing b b' with
    | nil => exact hb x
    | cons f rest ih =>
      refine ih (fun f hf => h f (List.mem_cons_of_mem _ hf)) _ _ fun y => ?_
      rw [Bindings.get?_set, Bindings.get?_set]
      split
      · exact .some (h f List.mem_cons_self)
      · exact hb y
  exact general [] [] fun _ => .none

/-- The methods of a class are walked in the scopes of the class. -/
theorem class_follows {ms : List FunctionDecl} {rm : Resolver} {outer : List (Bindings Bool)}
    {scopes : Scopes} {closure : ScopeId} {env : Env} (hv : Visits programs (.methods ms rm))
    (hscopes : rm.scopes = [("this", true)] :: outer) (hfit : scopes.Fits True outer closure)
    (henv : Env.Fits γ scopes outer closure env) (x : String) (superclass : Option ClassId) :
    Class.Follows programs γ scopes ⟨x, superclass, Eval.methodTable ms closure⟩
      ⟨x, superclass, methodTable ms env⟩ := by
  refine ⟨rfl, rfl, methodTable_follows fun f hf => ⟨rfl, rfl, ?_⟩⟩
  obtain ⟨r', hv', hr'⟩ := Eval.visits_method hv hf
  exact ⟨_, r', outer, hv', hr'.trans hscopes, hfit, henv⟩

/-- A class is declared, and its methods see the names of its scope and perhaps `super`. -/
theorem declareClass_inStep {name : Token} (superclass : Option ClassId) {ms : List FunctionDecl}
    {rm : Resolver} (hsound : m.heap.Sound programs True) (hstand : Standing γ m r.scopes place)
    (hall : AllDefined r.scopes) (hnone : r.innermost? name.lexeme = none)
    (hp : Paired programs γ m s) (hv : Visits programs (.methods ms rm))
    (hscopes : rm.scopes = [("this", true)] :: match superclass with
      | none => Resolver.defining name.lexeme r.scopes
      | some _ => [("super", true)] :: Resolver.defining name.lexeme r.scopes) :
    InStep σ τ escape m s (Eval.declareClass name superclass ms)
      (declareClass place name superclass ms) fun _ m' place' s' =>
        ∃ γ', γ <+: γ' ∧ Paired programs γ' m' s' ∧
          place'.Fits γ' m'.heap.scopes (Resolver.defining name.lexeme r.scopes) m'.cursor := by
  have hlt := hstand.control.fits.lt_size hsound.scopes
  have hcontrol := hstand.control.define hsound.scopes name.lexeme (.class m.heap.classes.size)
  -- the machine makes the class first, which makes no difference
  have hrun : Eval.declareClass name superclass ms σ m =
      (Eval.define name.lexeme (.class m.heap.classes.size) >>= fun _ =>
        Eval.methodClosure superclass >>= fun closure =>
          Eval.newClass ⟨name.lexeme, superclass, Eval.methodTable ms closure⟩ >>= fun _ =>
            pure ()) σ m := by
    cases superclass with
    | none => rfl
    | some d =>
      show EStateM.Result.ok () { m with heap :=
        ((m.heap.addScope [("super", .class d)] m.cursor).define m.cursor name.lexeme
          (.class m.heap.classes.size)).addClass _ } = _
      rw [Heap.addScope_define hlt]
      show _ = EStateM.Result.ok () { m with heap := (((m.heap.define m.cursor name.lexeme
        (.class m.heap.classes.size)).addScope [("super", .class d)] m.cursor).addClass _) }
      rw [show (m.heap.define m.cursor name.lexeme (.class m.heap.classes.size)).scopes.size =
        m.heap.scopes.size from Scopes.size_define ..]
  have hrun' : declareClass place name superclass ms τ s =
      (declare place name.lexeme (.class m.heap.classes.size) >>= fun place' =>
        methodEnv superclass place'.env >>= fun env =>
          newClass ⟨name.lexeme, superclass, methodTable ms env⟩ >>= fun _ => pure place') τ s := by
    rw [← hp.linked.classes.size]
    rfl
  refine .of_eq hrun hrun' (inStep_bind (hstand.define_inStep hsound hall hnone hp _) ?_)
  rintro _ _ place' s' ⟨rfl, γ', hγ, hp', hplace⟩
  have hsize : 0 < (m.heap.define m.cursor name.lexeme (.class m.heap.classes.size)).scopes.size :=
    (Scopes.size_define ..).symm ▸ hsound.scopes
  have hall' := hall.defining name.lexeme
  cases superclass with
  | none =>
    exact .ok ⟨γ', hγ, ⟨hp'.linked.addClass (class_follows hv hscopes hcontrol.fits hplace.env ..),
      hp'.out, hp'.readings⟩, hplace⟩
  | some d =>
    have hp'' := hp'.single hsize "super" (.class d) m.cursor
    have hfit := hcontrol.fits.add hsize fun _ => Bindings.isSome_single "super" (.class d)
    have henv := hplace.env.single hall' (hcontrol.fits.lt_size hsize) "super" (.class d)
    rw [← hp'.linked.size] at henv
    exact .ok ⟨_, hγ.trans (List.prefix_append ..),
      ⟨hp''.linked.addClass (class_follows hv hscopes hfit henv ..), hp''.out, hp''.readings⟩,
      hplace.extends (.add (fun _ => False) ..) (List.prefix_append ..)⟩

/-! ### Loops and blocks -/

section Statements

variable (hσ : σ.distances.Suits programs True) (hclock : τ.clock = σ.clock)
  (he : ExprInStep programs σ τ eval eval') (hs : StmtInStep programs σ τ exec exec')
  (hm : StmtMirrored programs True σ exec exec) (hfs : ∀ st, Frames True (exec st))

include he hs in
theorem loop_inStep {condition : Expr} {body : Stmt} (hσ : σ.distances.Suits programs True)
    (hv : Visits programs (.stmt (.while condition body) r))
    (hsound : m.heap.Sound programs True) (hstand : Standing γ m r.scopes place)
    (hp : Paired programs γ m s) (n : Nat) :
    InStep σ τ (Escape programs τ.strict) m s (Eval.loop eval exec condition body n)
      (loop (eval' place) (exec' place) place condition body n) (Ended programs γ r.scopes) := by
  have hcond := Resolver.scopes_expr condition r
  have hbodyVisit : Visits programs (.stmt body (Resolver.expr condition r)) :=
    hv.part (by simp [Call.parts])
  have hbehind := Eval.scopes_loopBody hσ hv trivial
  induction n generalizing m s γ with
  | zero => exact inStep_throw hp.out
  | succ n ih =>
    refine inStep_bind (he (hv.part (by simp [Call.parts])) hsound (.inl hstand) hp) ?_
    rintro _ m' v s' ⟨⟨rfl, γ', hγ, hp'⟩, hq⟩
    have hstand' := hstand.quiet hq hγ
    split
    · refine inStep_bind (hs hbodyVisit hq.sound (hcond ▸ hstand') hp') ?_
      rintro c m'' f s'' ⟨⟨hsound'', hcursor, hextends⟩, γ'', hγ', hp'', hfin⟩
      cases hfin with
      | normal hafter =>
        -- the loop goes on with the names in front of it
        have hagain : Standing γ'' m'' r.scopes place := by
          refine ⟨hbehind ▸ hafter.control, ?_⟩
          rw [hcursor]
          exact hstand'.fits.extends hextends.scopes hγ'
        exact (ih hsound'' hagain hp'').mono fun _ _ _ _ h => h.mono (hγ.trans hγ')
      | returned v => exact inStep_pure ⟨γ'', hγ.trans hγ', hp'', .returned v⟩
    · exact inStep_pure (ended_normal hp' hγ hstand'.fits)

include hs hm hfs in
theorem block_inStep {body : List Stmt} (hv : Visits programs (.stmt (.block body) r))
    (hsound : m.heap.Sound programs True) (hstand : Standing γ m r.scopes place)
    (hp : Paired programs γ m s) (n : Nat) :
    InStep σ τ (Escape programs τ.strict) m s (Eval.stmtRule eval exec n (.block body))
      (stmtRule eval' exec' n place (.block body)) (Ended programs γ r.scopes) := by
  have hall : AllDefined r.scopes := hv.settled
  have hsound' : (m.heap.addScope [] m.cursor).Sound programs True :=
    hsound.addScope (fun _ v hx => by cases hx) (fun _ v hx => by cases hx) m.cursor
  have entered : (m.heap.addScope [] m.cursor).scopes.Control True (r.push []).scopes
      m.heap.scopes.size :=
    .add hstand.control.fits hsound.scopes fun _ x => by simp [Bindings.get?]
  have hp' : Paired programs γ { m with heap := m.heap.addScope [] m.cursor } s := by
    have : Linked programs (γ ++ [].map (m.heap.scopes.size, ·)) (m.heap.addScope [] m.cursor)
        { s with cells := s.cells ++ [].toArray } :=
      hp.linked.addScope [] hsound.scopes List.nodup_nil rfl (fun hx => by cases hx) m.cursor
    refine ⟨?_, hp.out, hp.readings⟩
    simpa using this
  have henv : Env.Fits γ (m.heap.addScope [] m.cursor).scopes (r.push []).scopes
      m.heap.scopes.size place.env :=
    (hstand.fits.env.extends (.add (fun _ => False) ..) (List.prefix_refl γ)).cons hall
      (Scopes.parent?_add_size _ _ (hstand.control.fits.lt_size hsound.scopes))
      (fun _ hx => by cases hx) fun _ _ => rfl
  have hbody := scope_inStep hs hm hfs (hv.part (p := .stmts body (r.push [])) (by simp [Call.parts]))
    (by simp [Resolver.push]) hsound' entered henv (List.prefix_refl γ) hp'
  refine .of_eq (Eval.get_bind ..) rfl ?_
  rw [← bind_pure (Eval.newScope [] m.cursor >>= _)]
  refine inStep_bind hbody ?_
  rintro c m' f s' ⟨⟨⟨γ', hγ, hp'⟩, hfin⟩, hq⟩
  cases hfin with
  | normal => exact inStep_pure (ended_normal hp' hγ (hstand.quiet hq hγ).fits)
  | returned v => exact inStep_pure ⟨γ', hγ, hp', .returned v⟩

/-- A function is made and declared, and sees its own name. -/
theorem function_inStep {f : FunctionDecl} (hv : Visits programs (.stmt (.function f) r))
    (hsound : m.heap.Sound programs True) (hstand : Standing γ m r.scopes place)
    (hnone : r.innermost? f.name.lexeme = none) (hp : Paired programs γ m s) (n : Nat) :
    InStep σ τ escape m s (Eval.stmtRule eval exec n (.function f))
      (stmtRule eval' exec' n place (.function f))
      (Ended programs γ (Resolver.stmt (.function f) r).scopes) := by
  have hscopes : (Resolver.stmt (.function f) r).scopes =
      Resolver.defining f.name.lexeme r.scopes :=
    (Resolver.scopes_functionDecl ..).trans (Resolver.scopes_named ..)
  have hcontrol := hstand.control.define hsound.scopes f.name.lexeme
    (.function m.heap.functions.size)
  have hrun : Eval.stmtRule eval exec n (.function f) σ m =
      (Eval.define f.name.lexeme (.function m.heap.functions.size) >>= fun _ =>
        Eval.newFunction ⟨f, m.cursor, false⟩ >>= fun _ => pure .normal) σ m := rfl
  have hrun' : stmtRule eval' exec' n place (.function f) τ s =
      (declare place f.name.lexeme (.function m.heap.functions.size) >>= fun place' =>
        newFunction ⟨f, place'.env, false⟩ >>= fun _ => pure (.normal place')) τ s := by
    show ((declareFunction place f) >>= fun place' => pure (Finish.normal place')) τ s = _
    rw [← hp.linked.functions.size]
    unfold declareFunction
    simp only [bind_assoc, pure_bind]
    rfl
  refine .of_eq hrun hrun' (inStep_bind (hstand.define_inStep hsound hv.settled hnone hp _) ?_)
  rintro _ _ place' s' ⟨rfl, γ', hγ, hp', hplace⟩
  refine .ok (hscopes ▸ ended_normal ⟨hp'.linked.addFunction ⟨rfl, rfl, .function,
    r.named f.name, hv.part (by simp [Call.parts]), ?_, nofun, ?_⟩, hp'.out, hp'.readings⟩ hγ hplace)
  · rw [Resolver.scopes_named]
    exact hcontrol.fits
  · rw [Resolver.scopes_named]
    exact hplace.env

include hσ he hs

theorem if_inStep {condition : Expr} {consequent : Stmt} {alternative : Option Stmt}
    (hv : Visits programs (.stmt (.if condition consequent alternative) r))
    (hsound : m.heap.Sound programs True) (hstand : Standing γ m r.scopes place)
    (hp : Paired programs γ m s) (n : Nat) :
    InStep σ τ (Escape programs τ.strict) m s
      (Eval.stmtRule eval exec n (.if condition consequent alternative))
      (stmtRule eval' exec' n place (.if condition consequent alternative))
      (Ended programs γ r.scopes) := by
  obtain ⟨hcond, hcons⟩ := Eval.visits_if hv
  have hleft := Eval.scopes_consequent hσ hv trivial
  refine inStep_bind (he hcond hsound (.inl hstand) hp) ?_
  rintro _ m' v s' ⟨⟨rfl, γ', hγ, hp'⟩, hq⟩
  have hstand' := hstand.quiet hq hγ
  split
  · refine (hs hcons hq.sound ((Resolver.scopes_expr condition r).symm ▸ hstand') hp').mono ?_
    exact fun _ _ _ _ h => hleft ▸ h.ended.mono hγ
  · cases alternative with
    | none => exact inStep_pure (ended_normal hp' hγ hstand'.fits)
    | some alternative =>
      have halt : Visits programs
          (.stmt alternative (Resolver.stmt consequent (Resolver.expr condition r))) :=
        hv.part (by simp [Call.parts])
      have hright := Eval.scopes_alternative hσ hv trivial
      refine (hs halt hq.sound (hleft.symm ▸ hstand') hp').mono ?_
      exact fun _ _ _ _ h => hright ▸ h.ended.mono hγ

omit hs in
theorem class_inStep {name : Token} {superclass : Option Expr} {ms : List FunctionDecl}
    (hv : Visits programs (.stmt (.class name superclass ms) r))
    (hsound : m.heap.Sound programs True) (hstand : Standing γ m r.scopes place)
    (hnone : r.innermost? name.lexeme = none) (hp : Paired programs γ m s) (n : Nat) :
    InStep σ τ (Escape programs τ.strict) m s
      (Eval.stmtRule eval exec n (.class name superclass ms))
      (stmtRule eval' exec' n place (.class name superclass ms))
      (Ended programs γ (Resolver.defining name.lexeme r.scopes)) := by
  cases superclass with
  | none =>
    have hms : Visits programs (.methods ms (r.classBody name)) := hv.part (by simp [Call.parts])
    refine inStep_bind (declareClass_inStep none hsound hstand hv.settled hnone hp hms
      (Resolver.scopes_classBody ..)) ?_
    rintro _ m' place' s' ⟨γ', hγ, hp', hplace⟩
    exact inStep_pure (ended_normal hp' hγ hplace)
  | some superclass =>
    obtain ⟨hsuper, hms⟩ := Eval.visits_subclass hv
    -- the class's own name is in the walk's scope already, but not in that of the run
    have hface : Facing γ m superclass (r.beforeSuperclass name superclass).scopes place := by
      obtain ⟨node, superName, rfl, hne⟩ := Eval.exists_superclass hσ hv trivial
      exact .inr ⟨node, superName, name.lexeme, r.scopes, rfl, hne,
        Resolver.scopes_beforeSuperclass .., hstand⟩
    refine inStep_bind (he hsuper hsound hface hp) ?_
    rintro _ m' v s' ⟨⟨rfl, γ', hγ, hp'⟩, hq⟩
    cases v with
    | «class» d =>
      refine inStep_bind (declareClass_inStep (some d) hq.sound (hstand.quiet hq hγ) hv.settled
        hnone hp' hms (Resolver.scopes_subclassBody ..)) ?_
      rintro _ m'' place' s'' ⟨γ'', hγ', hp'', hplace⟩
      exact inStep_pure (ended_normal hp'' (hγ.trans hγ') hplace)
    | _ => exact inStep_throw hp'.out

include hm hfs

theorem stmtRule_inStep {st : Stmt} (hv : Visits programs (.stmt st r))
    (hsound : m.heap.Sound programs True) (hstand : Standing γ m r.scopes place)
    (hp : Paired programs γ m s) (n : Nat) :
    InStep σ τ (Escape programs τ.strict) m s (Eval.stmtRule eval exec n st)
      (stmtRule eval' exec' n place st) (Ended programs γ (Resolver.stmt st r).scopes) := by
  have hformed : st.Formed Token.Spelled := Eval.formed_of_visits hσ hv trivial
  have hall : AllDefined r.scopes := hv.settled
  have hscopes := Resolver.scopes_stmt hformed r
  have hnone {name : Token} (hd : st.declared? = some name) : r.innermost? name.lexeme = none :=
    Resolver.undeclared hd (hv.errors_eq_nil (hσ.accepted trivial))
  rw [hscopes]
  -- an expression that is walked in the same scopes
  have part {p : Expr} {rp : Resolver} (hpart : .expr p rp ∈ (Call.stmt st r).parts)
      (hrp : rp.scopes = r.scopes) :
      InStep σ τ (Escape programs τ.strict) m s (eval p) (eval' place p) fun v m' v' s' =>
        v' = v ∧ ∃ γ', γ <+: γ' ∧ Paired programs γ' m' s' ∧ Standing γ' m' r.scopes place := by
    refine (he (hv.part hpart) hsound (.inl (hrp ▸ hstand)) hp).mono ?_
    rintro _ m' v s' ⟨⟨rfl, γ', hγ, hp'⟩, hq⟩
    exact ⟨rfl, γ', hγ, hp', hstand.quiet hq hγ⟩
  cases st with
  | expression e =>
    refine inStep_bind (part (by simp [Call.parts]) rfl) ?_
    rintro _ m' v s' ⟨rfl, γ', hγ, hp', hstand'⟩
    exact inStep_pure (ended_normal hp' hγ hstand'.fits)
  | print e =>
    refine inStep_bind (part (by simp [Call.parts]) rfl) ?_
    rintro _ m' v s' ⟨rfl, γ', hγ, hp', hstand'⟩
    refine .of_eq (Eval.heap_bind ..) (get_bind ..) ?_
    rw [hp'.linked.text_eq]
    refine inStep_bind (print_inStep hp' _) ?_
    rintro _ m'' _ s'' ⟨hp'', hheap, hcursor⟩
    refine inStep_pure (ended_normal hp'' hγ ?_)
    rw [hheap, hcursor]
    exact hstand'.fits
  | var name initial =>
    cases initial with
    | none =>
      refine inStep_bind (hstand.define_inStep hsound hall (hnone rfl) hp .nil) ?_
      rintro _ m' place' s' ⟨-, γ', hγ, hp', hplace⟩
      exact inStep_pure (ended_normal hp' hγ hplace)
    | some e =>
      refine inStep_bind (he (hv.part (by simp [Call.parts])) hsound
        (.inl (hstand.initializer hall (hnone rfl))) hp) ?_
      rintro _ m' v s' ⟨⟨rfl, γ', hγ, hp'⟩, hq⟩
      refine inStep_bind ((hstand.quiet hq hγ).define_inStep hq.sound hall (hnone rfl) hp' v) ?_
      rintro _ m'' place' s'' ⟨-, γ'', hγ', hp'', hplace⟩
      exact inStep_pure (ended_normal hp'' (hγ.trans hγ') hplace)
  | block body => exact block_inStep hs hm hfs hv hsound hstand hp n
  | «if» condition consequent alternative => exact if_inStep hσ he hs hv hsound hstand hp n
  | «while» condition body => exact loop_inStep he hs hσ hv hsound hstand hp n
  | function f =>
    rw [← hscopes]
    exact function_inStep hv hsound hstand (hnone rfl) hp n
  | «return» keyword value =>
    cases value with
    | none => exact inStep_pure ⟨γ, List.prefix_refl γ, hp, .returned .nil⟩
    | some e =>
      refine inStep_bind (part (List.mem_singleton_self _)
        (Resolver.checkReturn_notes keyword true r).scopes) ?_
      rintro _ m' v s' ⟨rfl, γ', hγ, hp', -⟩
      exact inStep_pure ⟨γ', hγ, hp', .returned v⟩
  | «class» name superclass ms => exact class_inStep hσ he hv hsound hstand (hnone rfl) hp n

end Statements

end Lexical
end Treewalk
