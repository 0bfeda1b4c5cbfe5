import Treewalk.Proofs.Lexical.Names
/-!
# Calls in step

Given that statements are executed in step, so are calls of functions, classes and methods: the scope
of a call and the locations of its parameters are linked, and the body sees the closure's names
behind them.
-/

namespace Treewalk
namespace Lexical

open Eval (Quiet StmtMirrored Frames)

/-- The only error of which nothing is said: a variable is assigned to in its own initializer, where
a setting that is not strict lets it pass. -/
def Escape (programs : List (List Stmt)) (strict : Bool) (e : Stop) : Prop :=
  strict = false ∧ ∃ node name value, (Expr.assign node name value).InOwnInitializer programs ∧
    e = .runtime ⟨name.line, .undefinedVariable name.lexeme⟩

inductive Finishes (fits : Place → Prop) : Completion → Finish → Prop where
  | normal {place : Place} : fits place → Finishes fits .normal (.normal place)
  | returned (v : Value) : Finishes fits (.returned v) (.returned v)

theorem Finishes.mono {fits fits' : Place → Prop} {c : Completion} {f : Finish}
    (h : Finishes fits c f) (hf : ∀ place, fits place → fits' place) : Finishes fits' c f := by
  cases h with
  | normal h => exact .normal (hf _ h)
  | returned v => exact .returned v

/-- The same value, behind which machine and store are linked. -/
def Gives (programs : List (List Stmt)) (γ : Plan) (v : Value) (m : Machine) (v' : Value)
    (s : Store) : Prop :=
  v' = v ∧ Later programs γ m s

/-- Behind a statement. -/
def StmtGives (programs : List (List Stmt)) (γ : Plan) (m : Machine) (r' : Resolver)
    (c : Completion) (m' : Machine) (f : Finish) (s' : Store) : Prop :=
  (m'.heap.Sound programs True ∧ m'.cursor = m.cursor ∧
      m.heap.Extends (fun j => True ∧ j = m.cursor) m'.heap) ∧
    ∃ γ', γ <+: γ' ∧ Paired programs γ' m' s' ∧ Finishes (Standing γ' m' r'.scopes) c f

def StmtInStep (programs : List (List Stmt)) (σ : Treewalk.Setting) (τ : Setting)
    (exec : Stmt → Eval Completion) (exec' : Place → Stmt → Action Finish) : Prop :=
  ∀ {st r m s γ place}, Visits programs (.stmt st r) → m.heap.Sound programs True →
    Standing γ m r.scopes place → Paired programs γ m s →
    InStep σ τ (Escape programs τ.strict) m s (exec st) (exec' place st)
      (StmtGives programs γ m (Resolver.stmt st r))

def ExprInStep (programs : List (List Stmt)) (σ : Treewalk.Setting) (τ : Setting)
    (eval : Expr → Eval Value) (eval' : Place → Expr → Action Value) : Prop :=
  ∀ {e r m s γ place}, Visits programs (.expr e r) → m.heap.Sound programs True →
    Facing γ m e r.scopes place → Paired programs γ m s →
    InStep σ τ (Escape programs τ.strict) m s (eval e) (eval' place e)
      fun v m' v' s' => Gives programs γ v m' v' s' ∧ Quiet programs True m m'

variable {programs : List (List Stmt)} {γ γ' : Plan} {m m' : Machine} {s s' : Store}
  {σ : Treewalk.Setting} {τ : Setting} {escape : Stop → Prop} {exec : Stmt → Eval Completion}
  {exec' : Place → Stmt → Action Finish}

/-! ### Bodies -/

theorem statements_inStep (hs : StmtInStep programs σ τ exec exec') {body : List Stmt}
    {r : Resolver} {place : Place} (hv : Visits programs (.stmts body r))
    (hsound : m.heap.Sound programs True) (hstand : Standing γ m r.scopes place)
    (hp : Paired programs γ m s) :
    InStep σ τ (Escape programs τ.strict) m s (Eval.statements exec body)
      (statements exec' place body)
      fun c m' f s' => Later programs γ m' s' ∧ Finishes (fun _ => True) c f := by
  induction body generalizing r m s γ place with
  | nil => exact inStep_pure ⟨hp.later, .normal trivial⟩
  | cons st rest ih =>
    refine inStep_bind (hs (hv.part (by simp [Call.parts])) hsound hstand hp) ?_
    rintro c m' f s' ⟨⟨hsound', -, -⟩, γ', hγ, hp', hfin⟩
    cases hfin with
    | normal hstand' =>
      have hrest := ih (hv.part (by simp [Call.parts])) hsound' hstand' hp'
      exact hrest.mono fun c m'' f s'' h => ⟨h.1.mono hγ, h.2⟩
    | returned v => exact inStep_pure ⟨⟨γ', hγ, hp'⟩, .returned v⟩

section Bodies

variable (hs : StmtInStep programs σ τ exec exec') (hm : StmtMirrored programs True σ exec exec)
  (hfs : ∀ st, Frames True (exec st))
include hs hm hfs

/-- Statements in a scope of their own. -/
theorem scope_inStep {bindings : Bindings Value} {p : ScopeId} {body : List Stmt} {r : Resolver}
    {env : Env} (hv : Visits programs (.stmts body r)) (hne : r.scopes ≠ [])
    (hsound : (m.heap.addScope bindings p).Sound programs True)
    (hc : (m.heap.addScope bindings p).scopes.Control True r.scopes m.heap.scopes.size)
    (henv : Env.Fits γ' (m.heap.addScope bindings p).scopes r.scopes m.heap.scopes.size env)
    (hγ : γ <+: γ') (hp : Paired programs γ' { m with heap := m.heap.addScope bindings p } s) :
    InStep σ τ (Escape programs τ.strict) m s
      (Eval.newScope bindings p >>= fun scope => Eval.within scope (Eval.statements exec body))
      (statements exec' (.body env) body) fun c m' f s' =>
        (Later programs γ m' s' ∧ Finishes (fun _ => True) c f) ∧ Quiet programs True m m' := by
  have hquiet := Eval.newScope_tracks hm hfs hv hsound hc
  refine InStep.tracked (.of_eq (Eval.newScope_bind ..) rfl (inStep_within ?_)) hquiet
  have hplace : (Place.body env).Fits γ' (m.heap.addScope bindings p).scopes r.scopes
      m.heap.scopes.size := by
    refine .of_allDefined hv.settled henv ?_ rfl
    cases hscopes : r.scopes with
    | nil => exact absurd hscopes hne
    | cons b outer => rfl
  have hbody := statements_inStep
    (m := ⟨m.heap.addScope bindings p, m.heap.scopes.size, m.out, m.readings⟩) hs hv hsound
    ⟨hc, hplace⟩ ⟨hp.linked, hp.out, hp.readings⟩
  refine hbody.mono fun c m' f s' h => ⟨?_, h.2⟩
  obtain ⟨⟨γ'', hγ', hp'⟩, -⟩ := h
  exact ⟨γ'', hγ.trans hγ', hp'.linked, hp'.out, hp'.readings⟩

end Bodies

/-! ### Parameters -/

theorem lookup_bindAll_of_notMem {parameters : List Token} {l : Location} {env : Env} {x : String}
    (hx : x ∉ parameters.map (·.lexeme)) :
    (Env.bindAll l parameters env).lookup x = env.lookup x := by
  induction parameters generalizing l env with
  | nil => rfl
  | cons p rest ih =>
    rw [List.map_cons, List.mem_cons, not_or] at hx
    rw [Env.bindAll, ih hx.2, List.lookup_cons, show (x == p.lexeme) = false by simpa using hx.1]

theorem lookup_bindAll {parameters : List Token} {l : Location} {env : Env} {i : Nat} {p : Token}
    (hn : (parameters.map (·.lexeme)).Nodup) (hp : parameters[i]? = some p) :
    (Env.bindAll l parameters env).lookup p.lexeme = some (l + i) := by
  induction parameters generalizing l env i with
  | nil => cases hp
  | cons q rest ih =>
    rw [List.map_cons, List.nodup_cons] at hn
    cases i with
    | zero =>
      obtain rfl := Option.some.inj hp
      rw [Env.bindAll, lookup_bindAll_of_notMem hn.1, List.lookup_cons, beq_self_eq_true]
      rfl
    | succ i =>
      rw [Env.bindAll, ih hn.2 hp]
      exact congrArg some (Nat.add_right_comm l 1 i)

/-! ### Functions -/

section Functions

variable (hσ : σ.distances.Suits programs True) (hs : StmtInStep programs σ τ exec exec')
  (hm : StmtMirrored programs True σ exec exec) (hfs : ∀ st, Frames True (exec st))

/-- The parameters of a call are in front of the names that the function has kept. -/
theorem enter_fits {name : Token} {parameters : List Token} {body : List Stmt}
    {context : FunctionContext} {r : Resolver} {closure : ScopeId} {arguments : List Value}
    {env : Env} (hv : Visits programs (.function ⟨name, parameters, body⟩ context r))
    (hn : (parameters.map (·.lexeme)).Nodup) (hfit : m.heap.scopes.Fits True r.scopes closure)
    (henv : Env.Fits γ m.heap.scopes r.scopes closure env) (hsize : 0 < m.heap.scopes.size) :
    Env.Fits (γ ++ (parameters.map (·.lexeme)).map (m.heap.scopes.size, ·))
      (m.heap.addScope (Eval.parameterBindings parameters arguments) closure).scopes
      (r.functionBody parameters context).scopes m.heap.scopes.size
      (Env.bindAll γ.length parameters env) := by
  rw [Resolver.scopes_functionBody]
  have hcontains (x : String) : (Resolver.parameterScope parameters).contains x =
      decide (x ∈ parameters.map (·.lexeme)) := by
    rw [Bindings.contains, Resolver.get?_parameterScope]
    split <;> simp [*]
  have kept := henv.extends (.add (fun _ => False) _
    (Eval.parameterBindings parameters arguments) (some closure))
    (List.prefix_append γ ((parameters.map (·.lexeme)).map (m.heap.scopes.size, ·)))
  refine kept.cons hv.settled (Scopes.parent?_add_size _ _ (hfit.lt_size hsize)) (fun x hx => ?_)
    fun x hx => ?_
  · rw [hcontains, decide_eq_true_iff] at hx
    obtain ⟨p, hp, rfl⟩ := List.mem_map.1 hx
    obtain ⟨i, hi⟩ := List.mem_iff_getElem?.1 hp
    refine ⟨γ.length + i, lookup_bindAll hn hi, ?_⟩
    rw [List.getElem?_append_right (Nat.le_add_right ..), Nat.add_sub_cancel_left]
    simp [hi]
  · rw [hcontains, decide_eq_false_iff_not] at hx
    exact lookup_bindAll_of_notMem hx

/-- An initializer yields the `this` of its closure. -/
theorem this_inStep {env : Env} {closure : ScopeId} {scopes : List (Bindings Bool)} {line : Nat}
    (hp : Paired programs γ m s) (hthis : scopes.head? = some [("this", true)])
    (henv : Env.Fits γ m.heap.scopes scopes closure env) :
    InStep σ τ escape m s
      (Eval.heap >>= fun h => Eval.lift line (h.scopes.getAt closure 0 "this"))
      (lookUp env "this" line) (Gives programs γ) := by
  obtain ⟨outer, rfl⟩ := List.head?_eq_some_iff.1 hthis
  have hpast : Past ([("this", true)] :: outer) "this" := fun h => by cases h
  obtain ⟨j, hj, hread⟩ := henv.read?_local hp.linked hpast (findIdx?_of_contains rfl)
  obtain rfl : closure = j := Option.some.inj hj
  unfold InStep
  rw [Eval.heap_bind, Eval.lift_run, Scopes.getAt_eq_read rfl, lookUp_run, hread, Scopes.read]
  cases m.heap.scopes.lookup? closure "this" with
  | some v => exact .ok ⟨rfl, hp.later⟩
  | none => exact .error hp.out

include hσ hs hm hfs

theorem callFunction_inStep {f : Function} {g : Closure} {arguments : List Value}
    (hf : Function.Follows programs γ m.heap.scopes f g) (ha : f.arity = arguments.length)
    (hsound : m.heap.Sound programs True) (hp : Paired programs γ m s) :
    InStep σ τ (Escape programs τ.strict) m s (Eval.callFunction exec f arguments)
      (callFunction exec' g arguments) (Gives programs γ) := by
  obtain ⟨⟨name, parameters, body⟩, closure, isInitializer⟩ := f
  obtain ⟨declaration, env, isInitializer'⟩ := g
  obtain ⟨hd, hi, context, r, hv, hfit, hthis, henv⟩ := hf
  obtain rfl : declaration = ⟨name, parameters, body⟩ := hd
  obtain rfl : isInitializer = isInitializer' := hi.symm
  have hn : (parameters.map (·.lexeme)).Nodup :=
    Resolver.parameters_nodup (hv.errors_eq_nil (hσ.accepted trivial))
  obtain ⟨hsound₁, hc⟩ := Eval.enter_body hσ hv hfit ha hsound
  have hne : (r.functionBody parameters context).scopes ≠ [] := by
    rw [Resolver.scopes_functionBody]; simp
  have hp₁ : Paired programs (γ ++ (parameters.map (·.lexeme)).map (m.heap.scopes.size, ·))
      { m with heap := m.heap.addScope (Eval.parameterBindings parameters arguments) closure }
      { s with cells := s.cells ++ arguments.toArray } := by
    refine ⟨hp.linked.addScope (parameters.map (·.lexeme)) hsound.scopes hn ?_ (fun {i x} hx => ?_) closure, hp.out,
      hp.readings⟩
    · rw [List.length_map]; exact ha.symm
    · rw [List.getElem?_map] at hx
      obtain ⟨p, hi, rfl⟩ := Option.map_eq_some_iff.1 hx
      exact Eval.get?_parameter hn ha hi
  unfold Eval.callFunction callFunction
  rw [← bind_assoc]
  refine .of_eq rfl (newCells_bind ..) (inStep_bind (scope_inStep hs hm hfs
    (hv.part (by simp [Call.parts])) hne hsound₁ hc ?_ (List.prefix_append γ _) hp₁) ?_)
  · rw [hp.linked.size]
    exact enter_fits hv hn hfit henv hsound.scopes
  · rintro c m' f s' ⟨⟨⟨γ', hγ, hp'⟩, hfin⟩, hq⟩
    cases isInitializer with
    | true =>
      have henv' := henv.extends hq.extended.scopes hγ
      exact (this_inStep hp' (hthis rfl) henv').mono fun _ _ _ _ h => ⟨h.1, h.2.mono hγ⟩
    | false =>
      cases hfin with
      | normal => exact inStep_pure ⟨rfl, γ', hγ, hp'⟩
      | returned v => exact inStep_pure ⟨rfl, γ', hγ, hp'⟩

end Functions

/-! ### Methods -/

/-- A scope of one name, which is put in front. -/
theorem Env.Fits.single {s : Scopes} {outer : List (Bindings Bool)} {c : ScopeId} {env : Env}
    (h : Env.Fits γ s outer c env) (ho : AllDefined outer) (hc : c < s.size) (x : String)
    (v : Value) :
    Env.Fits (γ ++ [(s.size, x)]) (s.add [(x, v)] (some c)) ([(x, true)] :: outer) s.size
      ((x, γ.length) :: env) := by
  have kept := h.extends (.add (fun _ => False) s [(x, v)] (some c))
    (List.prefix_append γ [(s.size, x)])
  have hcontains (y : String) : Bindings.contains [(x, true)] y = decide (x = y) := by
    by_cases hy : x = y <;> simp [Bindings.contains, Bindings.get?, hy]
  refine kept.cons ho (Scopes.parent?_add_size s _ hc) (fun y hy => ?_) fun y hy => ?_
  · rw [hcontains, decide_eq_true_iff] at hy
    subst hy
    exact ⟨γ.length, by simp, by simp⟩
  · rw [hcontains, decide_eq_false_iff_not] at hy
    rw [List.lookup_cons, show (y == x) = false by simpa using Ne.symm hy]

theorem Paired.single (hp : Paired programs γ m s) (hsize : 0 < m.heap.scopes.size) (x : String)
    (v : Value) (p : ScopeId) :
    Paired programs (γ ++ [(m.heap.scopes.size, x)])
      { m with heap := m.heap.addScope [(x, v)] p } { s with cells := s.cells ++ [v].toArray } := by
  refine ⟨hp.linked.addScope [x] hsize (List.nodup_singleton x) rfl ?_ p, hp.out,
    hp.readings⟩
  intro i y hy
  obtain ⟨rfl, rfl⟩ : i = 0 ∧ x = y := by simpa [List.getElem?_singleton] using hy
  simp [Bindings.get?]

section Methods

variable {f : Function} {g : Closure}

theorem bind_inStep (hf : Function.FollowsUnbound programs γ m.heap.scopes f g)
    (hsound : m.heap.Sound programs True) (hp : Paired programs γ m s) (i : InstanceId) :
    InStep σ τ escape m s (Eval.bind f i) (bind g i) fun f' m' g' s' =>
      f' = { f with closure := m.heap.scopes.size } ∧ m'.heap.Sound programs True ∧
        ∃ γ', γ <+: γ' ∧ Paired programs γ' m' s' ∧
          Function.Follows programs γ' m'.heap.scopes f' g' := by
  obtain ⟨hd, hi, context, r, outer, hv, hr, hfit, henv⟩ := hf
  obtain ⟨hsound', -⟩ := Eval.bind_fits ⟨context, r, outer, hv, hr, hfit⟩ hsound i
  have ho : AllDefined outer := by
    have := hv.settled.tail
    rwa [hr] at this
  unfold Eval.bind bind
  refine .of_eq (Eval.newScope_bind ..) (newCells_bind ..) (inStep_pure ⟨rfl, hsound', _,
    List.prefix_append .., hp.single hsound.scopes "this" (.instance i) f.closure, hd, hi, context,
    r, hv, ?_, fun _ => by rw [hr]; rfl, ?_⟩)
  · rw [hr]
    exact hfit.add hsound.scopes fun _ => Bindings.isSome_single "this" (.instance i)
  · rw [hr, hp.linked.size]
    exact henv.single ho (hfit.lt_size hsound.scopes) "this" (.instance i)

theorem boundMethod_inStep (hf : Function.FollowsUnbound programs γ m.heap.scopes f g)
    (hsound : m.heap.Sound programs True) (hp : Paired programs γ m s) (i : InstanceId) :
    InStep σ τ escape m s (Eval.boundMethod f i) (boundMethod g i) (Gives programs γ) := by
  refine inStep_bind (bind_inStep hf hsound hp i) ?_
  rintro f' m' g' s' ⟨-, -, γ', hγ, hp', hf'⟩
  refine .of_eq (Eval.newFunction_bind ..) (newFunction_bind ..) (inStep_pure ⟨?_, γ', hγ,
    hp'.linked.addFunction hf', hp'.out, hp'.readings⟩)
  rw [hp'.linked.functions.size]

end Methods

/-! ### Calls -/

section Calls

variable (hσ : σ.distances.Suits programs True) (hs : StmtInStep programs σ τ exec exec')
  (hm : StmtMirrored programs True σ exec exec) (hfs : ∀ st, Frames True (exec st))

theorem checkArity_inStep (hp : Paired programs γ m s) (expected got line : Nat) :
    InStep σ τ escape m s (Eval.checkArity expected got line) (Eval.checkArity expected got line)
      fun _ m' _ s' => m' = m ∧ s' = s ∧ expected = got := by
  unfold Eval.checkArity
  split
  · next h => exact inStep_pure ⟨rfl, rfl, h⟩
  · exact inStep_throw hp.out

theorem callNative_inStep (hp : Paired programs γ m s) (hclock : τ.clock = σ.clock) (f : Native) :
    InStep σ τ escape m s (Eval.callNative f) (callNative f) (Gives programs γ) := by
  cases f
  refine .ok ⟨?_, γ, List.prefix_refl γ, { hp.linked with }, hp.out,
    congrArg (· + 1) hp.readings⟩
  rw [hclock, hp.readings]

include hσ hs hm hfs

theorem instantiate_inStep {c : ClassId} {arguments : List Value}
    (ha : m.heap.classArity c = arguments.length) (hsound : m.heap.Sound programs True)
    (hp : Paired programs γ m s) :
    InStep σ τ (Escape programs τ.strict) m s (Eval.instantiate exec c arguments)
      (instantiate exec' c arguments) (Gives programs γ) := by
  have hp₁ : Paired programs γ { m with heap := m.heap.addInstance c }
      { s with instances := s.instances.push ⟨c, []⟩ } :=
    ⟨hp.linked.addInstance c, hp.out, hp.readings⟩
  have hsize : s.instances.size = m.heap.instances.size := by rw [hp.linked.instances]
  unfold Eval.instantiate instantiate
  refine .of_eq (Eval.newInstance_bind ..) (newInstance_bind ..) (.of_eq (Eval.heap_bind ..)
    (get_bind ..) ?_)
  rw [hsize]
  rcases rel_cases (hp₁.linked.findMethod? c initializerName) with ⟨hf, hf'⟩ | ⟨f, g, hf, hg, hfg⟩
  · rw [hf, hf']
    exact inStep_pure ⟨rfl, hp₁.later⟩
  · rw [hf, hg]
    rw [Heap.classArity, ← Heap.findMethod?_addInstance, hf] at ha
    refine inStep_bind (bind_inStep hfg (hsound.addInstance c) hp₁ m.heap.instances.size) ?_
    rintro f' m' g' s' ⟨rfl, hsound', γ', hγ, hp', hfg'⟩
    refine inStep_bind (callFunction_inStep hσ hs hm hfs hfg' ha hsound' hp') ?_
    rintro _ m'' _ s'' ⟨-, hlater⟩
    exact inStep_pure ⟨rfl, hlater.mono hγ⟩

theorem callValue_inStep (hclock : τ.clock = σ.clock) (callee : Value) (arguments : List Value)
    (line : Nat) (hsound : m.heap.Sound programs True) (hp : Paired programs γ m s) :
    InStep σ τ (Escape programs τ.strict) m s (Eval.callValue exec callee arguments line)
      (callValue exec' callee arguments line) (Gives programs γ) := by
  unfold Eval.callValue callValue
  cases callee with
  | native f =>
    refine inStep_bind (checkArity_inStep hp _ _ _) ?_
    rintro _ _ _ _ ⟨rfl, rfl, -⟩
    exact callNative_inStep hp hclock f
  | function f =>
    refine .of_eq (Eval.heap_bind ..) (get_bind ..) ?_
    rcases rel_cases (hp.linked.functions.rel f) with ⟨hf, hf'⟩ | ⟨f', g, hf, hg, hfg⟩
    · rw [hf, hf']
      exact inStep_throw hp.out
    · rw [hf, hg]
      have harity : g.declaration.parameters.length = f'.arity := by rw [hfg.1, Function.arity]
      dsimp only
      rw [harity]
      refine inStep_bind (checkArity_inStep hp _ _ _) ?_
      rintro _ _ _ _ ⟨rfl, rfl, ha⟩
      exact callFunction_inStep hσ hs hm hfs hfg ha hsound hp
  | «class» c =>
    refine .of_eq (Eval.heap_bind ..) (get_bind ..) ?_
    rw [hp.linked.classArity_eq]
    refine inStep_bind (checkArity_inStep hp _ _ _) ?_
    rintro _ _ _ _ ⟨rfl, rfl, ha⟩
    exact instantiate_inStep hσ hs hm hfs ha hsound hp
  | _ => exact inStep_throw hp.out

end Calls

/-! ### Properties -/

theorem getProperty_inStep (hsound : m.heap.Sound programs True) (hp : Paired programs γ m s)
    (v : Value) (name : Token) :
    InStep σ τ escape m s (Eval.getProperty v name) (getProperty v name) (Gives programs γ) := by
  unfold Eval.getProperty getProperty
  cases v with
  | «instance» i =>
    refine .of_eq (Eval.heap_bind ..) (get_bind ..) ?_
    rw [hp.linked.instances]
    cases m.heap.instances[i]? with
    | none => exact inStep_throw hp.out
    | some o =>
      dsimp only
      cases o.fields.get? name.lexeme with
      | some field => exact inStep_pure ⟨rfl, hp.later⟩
      | none =>
        dsimp only
        rcases rel_cases (hp.linked.findMethod? o.ofClass name.lexeme) with
          ⟨hf, hf'⟩ | ⟨f, g, hf, hg, hfg⟩
        · rw [hf, hf']
          exact inStep_throw hp.out
        · rw [hf, hg]
          exact boundMethod_inStep hfg hsound hp i
  | _ => exact inStep_throw hp.out

/-- The names of a scope of one name are defined. -/
theorem past_of_implicit {r : Resolver} {x : String} {k : Nat} (hk : r.distance? x = some k)
    (hb : r.scopes[k]? = some [(x, true)]) : Past r.scopes x := by
  intro hfalse
  obtain rfl : 0 = k := Option.some.inj ((Resolver.distance?_of_innermost hfalse).symm.trans hk)
  rw [List.head?_eq_getElem?, hb] at hfalse
  simp [Bindings.get?] at hfalse

/-- `super` and `this` are in the scopes of the class. -/
theorem superMethod_inStep (hσ : σ.distances.Suits programs True) {node : NodeId}
    {keyword method : Token} {r : Resolver} {place : Place}
    (hv : Visits programs (.expr (.super node keyword method) r))
    (hsound : m.heap.Sound programs True) (hstand : Standing γ m r.scopes place)
    (hp : Paired programs γ m s) :
    InStep σ τ escape m s (Eval.superMethod node keyword method)
      (superMethod place.env keyword method) (Gives programs γ) := by
  obtain ⟨hsuper, k, hd, hk, hb, hkthis, hbthis⟩ := super_resolved hσ hv
  obtain ⟨j, hj, hread⟩ := hstand.fits.env.read?_local hp.linked (past_of_implicit hk hb) hk
  obtain ⟨j', hj', hread'⟩ :=
    hstand.fits.env.read?_local hp.linked (past_of_implicit hkthis hbthis) hkthis
  obtain ⟨_, c, i, hd', hget, hget'⟩ := super_found hσ hsound hv hstand.control
  obtain rfl : k = _ := Nat.succ.inj (Option.some.inj (hd.symm.trans hd'))
  have value {k : Nat} {j : ScopeId} {x : String} {v : Value}
      (hj : m.heap.scopes.up? k m.cursor = some j)
      (hg : m.heap.scopes.getAt m.cursor k x = .ok v) : m.heap.scopes.lookup? j x = some v := by
    rw [Scopes.getAt_eq_read hj, Scopes.read] at hg
    split at hg
    · next h => rw [h, Except.ok.inj hg]
    · cases hg
  have hc := value hj (hsuper ▸ hget)
  have hi := value hj' hget'
  have hrun := Eval.superMethod_run hd hget hget' method
  have hrun' : superMethod place.env keyword method τ s =
      (s.findMethod? c method.lexeme).elim
        (.error (.runtime ⟨method.line, .undefinedProperty method.lexeme⟩) s)
        fun g => boundMethod g i τ s := by
    unfold superMethod
    rw [get_bind, hsuper, hread, hread', hc, hi]
    dsimp only
    cases s.findMethod? c method.lexeme <;> rfl
  unfold InStep
  rw [hrun, hrun']
  rcases rel_cases (hp.linked.findMethod? c method.lexeme) with ⟨hf, hf'⟩ | ⟨f, g, hf, hg, hfg⟩
  · rw [hf, hf']
    exact .error hp.out
  · rw [hf, hg]
    exact boundMethod_inStep hfg hsound hp i

end Lexical
end Treewalk
