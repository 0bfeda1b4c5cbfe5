import Treewalk.Proofs.Construction.Calls
import Treewalk.Proofs.Session.Reached
/-!
# Instances of a session

While a session runs sources without static errors, a class that is called fails or yields a new
instance of its own, on which the nearest initializer has run; a function that is flagged as an
initializer fails or yields the instance that it is bound to, and its body, which the walk took for an
initializer's, returns no value (`Machine.Constructs`). What a function is bound to, and of which class
an instance is, stays so from then on (`Heap.Lasts`). Both hold at each node that control is at
(`Reached.instances_constructed`).
-/

namespace Treewalk

/-! ### What lasts -/

/-- What has been made is as it was, and `this` is bound as it was. -/
structure Heap.Lasts (h h' : Heap) : Prop where
  extended : h.Extends (fun _ => True) h'
  this : ∀ j < h.scopes.size, h'.scopes.lookup? j "this" = h.scopes.lookup? j "this"

namespace Heap

variable {h h' h'' : Heap}

theorem Lasts.refl (h : Heap) : h.Lasts h :=
  ⟨.refl _ _, fun _ _ => rfl⟩

theorem Lasts.trans (a : h.Lasts h') (b : h'.Lasts h'') : h.Lasts h'' where
  extended := a.extended.trans b.extended fun _ _ _ => trivial
  this j hj := (b.this j (Nat.lt_of_lt_of_le hj a.extended.scopes.size)).trans (a.this j hj)

end Heap

theorem Machine.Spares.lasts {S : Prop} {m m' : Machine} (h : m.Spares Eval.thisOnly S m') :
    m.heap.Lasts m'.heap :=
  ⟨h.extended.mono fun _ _ => trivial, fun _ hj => h.same hj rfl⟩

/-! ### What calls construct -/

/-- The walk took the function's body for that of an initializer, and the body finishes normally or
with nil. -/
structure Function.Initializes (programs : List (List Stmt)) (f : Function) : Prop where
  walked : ∃ r, Visits programs (.function f.declaration .initializer r)
  returns : ∀ n σ m, Eval.ReturnsNil (Eval.statements (Eval.stmt n) f.declaration.body σ m)

/-- On the machine, classes and initializers construct their instances. -/
structure Machine.Constructs (programs : List (List Stmt)) (σ : Setting) (m : Machine) : Prop where
  /-- A class that is called. -/
  classes : ∀ n c arguments line v m',
    Eval.callValue (Eval.stmt n) (.class c) arguments line σ m = .ok v m' →
    ∃ i, v = .instance i ∧ Eval.Constructed σ n c arguments m i m'
  /-- A function that is flagged and may be called. -/
  initializers : ∀ (k : FunctionId) f, m.heap.functions[k]? = some f → f.isInitializer = true →
    f.Initializes programs ∧ ∃ i, m.heap.BoundTo k i ∧ ∀ n arguments line v m',
      Eval.callValue (Eval.stmt n) (.function k) arguments line σ m = .ok v m' → v = .instance i
  /-- A method of a class is flagged exactly if it is of the name, and walked as what its flag
  says. -/
  methods : ∀ c x f, m.heap.findMethod? c x = some f →
    (f.isInitializer = true ↔ x = initializerName) ∧
      (f.isInitializer = true ↔ f.declaration.methodContext = .initializer) ∧
      (∃ r, Visits programs (.function f.declaration f.declaration.methodContext r)) ∧
      (f.isInitializer = true → f.Initializes programs)
  /-- A method that is read from an instance. -/
  properties : ∀ (i : InstanceId) o name k m', m.heap.instances[i]? = some o →
    o.fields.get? name.lexeme = none →
    Eval.getProperty (.instance i) name σ m = .ok (.function k) m' → m'.heap.BoundTo k i
  /-- A method that is read from `super`. -/
  supers : ∀ node keyword method distance i k m', σ.distances[node]? = some distance →
    m.heap.scopes.getAt m.cursor (distance - 1) "this" = .ok (.instance i) →
    Eval.superMethod node keyword method σ m = .ok (.function k) m' → m'.heap.BoundTo k i

namespace Eval

variable {programs : List (List Stmt)} {σ : Setting} {m : Machine}

theorem initializes_of_flagged (ha : ∀ p ∈ programs, Accepted p) {f : Function}
    {context : FunctionContext} {r : Resolver}
    (hv : Visits programs (.function f.declaration context r))
    (hr : r.scopes.head? = some [("this", true)]) (hf : f.declaration.isInitializer = true) :
    f.Initializes programs := by
  obtain ⟨walked, returns⟩ := bare_of_flagged ha hv hr hf
  exact ⟨⟨r, walked⟩, returns⟩

variable (hσ : σ.distances.Suits programs True)

include hσ

theorem constructs (hs : m.heap.Sound programs True) (hg : m.heap.Flagged) :
    m.Constructs programs σ where
  classes _ _ _ _ _ _ h := callValue_class hσ hs hg h
  initializers k f hk hflag := by
    obtain ⟨context, r, hv, -, hhead⟩ := hs.functions hk
    refine ⟨?_, callValue_initializer hσ hs hk hflag⟩
    exact initializes_of_flagged (hσ.accepted trivial) hv (hhead hflag) (hg.functions hk hflag)
  methods c x f hf := by
    have ha := hσ.accepted trivial
    obtain ⟨context, r, outer, hv, hr, -⟩ := hs.findMethod? hf
    obtain ⟨hname, hflag⟩ := hg.findMethod? hf
    have head : r.scopes.head? = some [("this", true)] := by rw [hr]; rfl
    obtain rfl := hv.context_eq (fun p hp => (ha p hp).formed) head
    have named : f.isInitializer = true ↔ x = initializerName := by
      rw [hflag, FunctionDecl.isInitializer, hname]
      simp
    have walked : f.isInitializer = true ↔ f.declaration.methodContext = .initializer := by
      rw [hflag, FunctionDecl.methodContext]
      split <;> simp [*]
    refine ⟨named, walked, ⟨r, hv⟩, fun h => ?_⟩
    exact initializes_of_flagged ha hv head (hflag ▸ h)
  properties _ _ _ _ _ ho hfield h := getProperty_boundTo ho hfield h
  supers _ _ _ _ _ _ _ hd hthis h := superMethod_boundTo hd hthis h

variable {fuel : Nat} {p : List Stmt} (hp : p ∈ programs) (hs : m.heap.Sound programs True)
  (hc : m.cursor = Heap.globals) (hg : m.heap.Flagged)

/-- Control is at the node, and the flags are right. -/
def AtFlagged (programs : List (List Stmt)) (ν : Node) (m : Machine) : Prop :=
  AtNode programs True ν m ∧ m.heap.Flagged

omit hσ in
/-- There is a stop that the evaluation does not end with. -/
theorem exists_unlike {α : Type} (r : Result α) : ∃ e, Unlike e r := by
  cases r with
  | ok a m => exact ⟨.outOfFuel, unlike_ok a m⟩
  | error e m =>
    by_cases he : e = .outOfFuel
    · exact ⟨.output "", unlike_error.2 (he ▸ nofun)⟩
    · exact ⟨.outOfFuel, unlike_error.2 he⟩

include hp hs hc

/-- A run is at no node where the scopes do not mirror the walk's. -/
theorem programWatched_atNode (e : Stop) :
    programWatched (.unless (AtNode programs True) e) fuel p σ m = program fuel p σ m :=
  (program_tracks hσ (fun _ _ => Watch.unless_eq_none.2) fuel hp hs hc).1

/-- At the nodes of a run the flags are right, if they are right at the beginning. -/
theorem programWatched_flagged (hg : m.heap.Flagged) {e : Stop}
    (unlike : Unlike e (program fuel p σ m)) :
    programWatched (.unless (AtFlagged programs) e) fuel p σ m = program fuel p σ m := by
  refine programWatched_between (R := fun h h' => h.Flagged → h'.Flagged)
    (compositional_flagged.under (fun v _ => flagged_assign _ _ v)
      (fun _ _ v _ => flagged_define _ v) _) id (fun a b => b ∘ a)
    (programWatched_atNode hσ hp hs hc e) unlike fun ν m' hat hbefore _ => ?_
  exact Watch.unless_eq_none.2 ⟨hat, hbefore hg⟩

/-- A watch that is silent where classes and initializers construct their instances, and what lasts
from the beginning lasts to the end, makes no difference to a program. -/
theorem programWatched_constructs (hg : m.heap.Flagged) {w : Watch}
    (hw : ∀ ν m', m'.Constructs programs σ → m.heap.Lasts m'.heap →
      m'.heap.Lasts (ending (program fuel p σ m)).heap → w ν m' = none) :
    programWatched w fuel p σ m = program fuel p σ m := by
  obtain ⟨e, unlike⟩ := exists_unlike (program fuel p σ m)
  have same := programWatched_flagged hσ hp hs hc hg unlike
  have watched : thisOnly.Watched (.unless (AtFlagged programs) e) σ :=
    thisOnly_watched hσ (fun _ _ h => h.1) e
  refine programWatched_between (compositional_spares watched w) (fun h => h.lasts)
    (fun a b => a.trans b) same unlike fun ν m' hat hbefore hbehind => ?_
  obtain ⟨atNode, flagged⟩ := hat
  have sound : m'.heap.Sound programs True := by
    cases ν with
    | expr e => obtain ⟨r, -, sound, -⟩ := atNode; exact sound
    | stmt s => obtain ⟨r, -, sound, -⟩ := atNode; exact sound
  exact hw ν m' (constructs hσ sound flagged) hbefore hbehind

theorem program_lasts : m.heap.Lasts (ending (program fuel p σ m)).heap := by
  have spares := compositional_spares (thisOnly_watched hσ (fun _ _ h => h) .outOfFuel)
    fun _ _ => none
  rw [← programWatched_atNode hσ hp hs hc .outOfFuel]
  exact (spares.program fuel p m).lasts

end Eval

/-! ### Sessions -/

namespace Session

variable {programs : List (List Stmt)} {s : Session}

theorem Reached.flagged (h : s.Reached programs) : s.machine.heap.Flagged := by
  induction h with
  | initial out => exact Heap.Flagged.initial
  | @run programs s clock fuel source _ ih =>
    have unread := machine_accept s source
    unfold Session.run
    generalize s.accept source = a at unread
    obtain ⟨_ | p, s'⟩ := a
    · rw [unread]; exact ih
    · dsimp only
      rw [interpret_snd]
      exact Eval.program_flagged fuel p (unread ▸ ih)

/-- While a session runs a source, classes and initializers construct their instances at every node
that control is at, so also where a call is evaluated and its callee and arguments have their values.
What has been made lasts, from the beginning of the run to the node and from the node to the end. -/
theorem Reached.instances_constructed (h : s.Reached programs) (clock : Nat → Float) (fuel : Nat)
    (source : String) {w : Watch}
    (hw : ∀ ν m, m.Constructs (s.accepted source ++ programs)
      ⟨(s.accept source).2.distances, clock⟩ → s.machine.heap.Lasts m.heap →
      m.heap.Lasts (s.run clock fuel source).2.machine.heap → w ν m = none) :
    s.runWatched w clock fuel source = s.run clock fuel source ∧
      s.machine.heap.Lasts (s.run clock fuel source).2.machine.heap := by
  have unread := machine_accept s source
  have hs := h.checked.accept source
  have hflagged := h.flagged
  unfold accepted at hs hw
  unfold runWatched
  unfold Session.run at hw ⊢
  generalize s.accept source = a at hs hw unread ⊢
  obtain ⟨_ | p, s'⟩ := a
  · dsimp only at unread
    rw [unread]
    exact ⟨rfl, .refl _⟩
  dsimp only at hs hw unread ⊢
  rw [← unread] at hflagged hw ⊢
  have hp : p ∈ (Except.ok p : Except (List Diagnostic) (List Stmt)).toOption.toList ++ programs :=
    List.mem_cons_self
  have same : s'.interpretWatched w clock fuel p = s'.interpret clock fuel p := by
    rw [interpret_snd] at hw
    rw [interpretWatched, Session.interpret, perform_run, perform_run,
      Eval.programWatched_constructs hs.sound.suits hp hs.sound.heap hs.sound.cursor hflagged hw]
  refine ⟨by rw [same], ?_⟩
  rw [interpret_snd]
  exact Eval.program_lasts (σ := ⟨s'.distances, clock⟩) hs.sound.suits hp hs.sound.heap
    hs.sound.cursor

open Classical in
/-- A watch that stops wherever an instance is not constructed never stops the second of these
sources, where an initializer returns from within a loop, is called by that of a subclass, and is
called again as a function. -/
theorem Reached.instances_constructed_inherited :
    let declared := "class A \x7b init(x) \x7b while (true) \x7b this.x = x; return; \x7d \x7d \x7d " ++
      "class B < A \x7b init(x) \x7b super.init(x); \x7d \x7d"
    let source := "var b = B(1); var again = b.init; print again(2) == b;"
    let s := ((Session.initial .unlimited).run (fun _ => 0) 12 declared).2
    let ended := s.run (fun _ => 0) 12 source
    let programs := s.accepted source ++ ((Session.initial .unlimited).accepted declared ++ [])
    let w : Watch := fun _ m =>
      if m.Constructs programs ⟨(s.accept source).2.distances, fun _ => 0⟩ ∧
          s.machine.heap.Lasts m.heap ∧ m.heap.Lasts ended.2.machine.heap then none
      else some .outOfFuel
    (s.runWatched w (fun _ => 0) 12 source = ended ∧
      s.machine.heap.Lasts ended.2.machine.heap) ∧
      ended.1 = .ok ∧ ended.2.drain.1 = "true\n" := by
  refine ⟨?_, by decide +kernel⟩
  exact Reached.instances_constructed (.run (fun _ => 0) 12 _ (.initial .unlimited)) (fun _ => 0)
    12 _ fun _ _ constructs before behind => if_pos ⟨constructs, before, behind⟩

end Session

end Treewalk
