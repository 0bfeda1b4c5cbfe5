import Treewalk.Proofs.Inheritance.Nodes
import Treewalk.Proofs.Session.Rejected
/-!
# Classes inherit from what was declared

Sources that are run one after another end, print and leave behind what they do when methods, `this`
and `super` are taken from a ledger of what has been declared (`Session.run_eq_recorded`). Whatever
is assigned to the names of classes, or declared under them, the ledger only grows.
-/

namespace Treewalk
namespace Inheritance

open Eval (StmtMirrored)

variable {programs : List (List Stmt)} {σ : Setting} {t t' : State} {home : Option Home}

/-! ### Whole evaluations -/

/-- A statement leaves `this` where it was in the walk's scopes. -/
theorem Home.Fits.stmt {h : Heap} {l : Ledger} {s : Stmt} {r : Resolver} {c : ScopeId}
    (hf : Home.Fits h l home r.scopes c) (hs : s.Formed Token.Spelled) :
    Home.Fits h l home (Resolver.stmt s r).scopes c := by
  rw [Resolver.scopes_stmt hs r]
  cases hd : s.declared? with
  | none => exact hf
  | some name => exact hf.defining ((hs.declared hd).ne_keyword .this)

section Whole

variable (hσ : σ.distances.Suits programs True)
include hσ

theorem evaluations_follow (n : Nat) :
    ExprFollows programs σ (Eval.expr n) (expr n) ∧
      StmtFollows programs σ (Eval.stmt n) (stmt n) := by
  induction n with
  | zero =>
    exact ⟨fun _ hface => follows_throw hface.holds, fun _ hstand => follows_throw hstand.holds⟩
  | succ n ih =>
    obtain ⟨ihe, ihs⟩ := ih
    have hm : StmtMirrored programs True σ (Eval.stmt n) (Eval.stmt n) := Eval.stmt_mirrored hσ n
    refine ⟨fun {e r t home} hv hface => ?_, fun {s r t home} hv hstand => ?_⟩
    · have hquiet := Eval.expr_mirrored hσ (n + 1) hv trivial hface.sound hface.ready
      exact (exprRule_follows hσ ihe ihs hm (Eval.stmt_frames n) hv hface).tracked hquiet
    · have hends := Eval.stmt_mirrored hσ (n + 1) hv hstand.sound hstand.control
      have hrule := stmtRule_follows hσ ihe ihs hm (Eval.stmt_frames n) hv hstand n
      refine (hrule.tracked hends).later.mono ?_
      rintro c t' ⟨hl, hyields, hsound, hcursor, hcontrol⟩
      refine ⟨hyields, hsound, hcursor, fun hn => ⟨hsound, hl.holds, hcontrol hn, ?_⟩⟩
      rw [hcursor]
      exact (hstand.home.grows hl.grows).stmt (Eval.formed_of_visits hσ hv trivial)

/-- At the outermost level there is no home. -/
theorem program_follows (fuel : Nat) {ss : List Stmt} {r : Resolver}
    (hv : Visits programs (.stmts ss r)) (hr : r.scopes = [])
    (hsound : t.heap.Sound programs True) (hl : t.ledger.Holds programs t.heap)
    (hc : t.cursor = Heap.globals) :
    Follows programs σ t (Eval.program fuel ss) (program fuel ss) fun _ _ => True := by
  induction ss generalizing r t with
  | nil => exact follows_pure hl trivial
  | cons s rest ih =>
    have hstand : Standing programs t none r.scopes := by
      rw [hr]
      exact ⟨hsound, hl, hc ▸ Scopes.control_globals True _, nofun⟩
    refine follows_bind ((evaluations_follow hσ fuel).2 (hv.part (by simp [Call.parts])) hstand) ?_
    rintro c t' hl' ⟨-, hsound', hcursor, -⟩
    exact ih (hv.part (p := .stmts rest (Resolver.stmt s r)) (by simp [Call.parts]))
      (Resolver.scopes_stmt_outermost hr s) hsound' hl'.holds (hcursor.trans hc)

end Whole

/-! ### Runs -/

namespace Recorded

/-- The session's programs are checked, and the ledger is that of its heap. -/
structure Holds (programs : List (List Stmt)) (s : Recorded) : Prop where
  checked : s.session.Checked programs
  ledger : s.ledger.Holds programs s.session.machine.heap

theorem holds_initial (out : Sink) : (initial out).Holds [] :=
  ⟨(Session.Reached.initial out).checked, .initial []⟩

variable {s : Recorded}

/-- A run is the same with the ledger, which goes on to hold and has what was in it. -/
theorem Holds.run (h : s.Holds programs) (clock : Nat → Float) (fuel : Nat) (source : String) :
    let ended := s.run clock fuel source
    s.session.run clock fuel source = (ended.1, ended.2.session) ∧
      ended.2.Holds (s.session.accepted source ++ programs) ∧
      ∀ {c : ClassId} {d}, s.ledger.classes[c]? = some d → ended.2.ledger.classes[c]? = some d := by
  have hs := h.checked.accept source
  have hl : s.ledger.Holds programs (s.session.accept source).2.machine.heap := by
    rw [Session.accept_eq_rejections]
    exact h.ledger
  unfold Session.accepted at hs ⊢
  unfold Recorded.run Session.run
  generalize s.session.accept source = a at hs hl ⊢
  obtain ⟨errors | p, s'⟩ := a
  · exact ⟨rfl, ⟨hs, hl⟩, fun hd => hd⟩
  · obtain hs : s'.Checked (p :: programs) := hs
    have hfollows := program_follows (σ := ⟨s'.distances, clock⟩) (t := ⟨s'.machine, s.ledger⟩)
      hs.sound.suits fuel (.program List.mem_cons_self) rfl hs.sound.heap
      (hl.mono (List.subset_cons_self p programs)) hs.sound.cursor
    have hchecked := hs.interpret clock fuel List.mem_cons_self
    unfold Follows at hfollows
    unfold Session.interpret at hchecked ⊢
    dsimp only at hfollows ⊢
    rw [Session.perform_run] at hchecked ⊢
    generalize Eval.program fuel p ⟨s'.distances, clock⟩ s'.machine = result at *
    generalize program fuel p ⟨s'.distances, clock⟩ ⟨s'.machine, s.ledger⟩ = result' at *
    cases hfollows with
    | ok hl' => exact ⟨rfl, ⟨hchecked, hl'.holds⟩, hl'.grows.classes⟩
    | error hl' => exact ⟨rfl, ⟨hchecked, hl'.holds⟩, hl'.grows.classes⟩

/-- What the ledger finds is what the heap finds. -/
theorem Holds.findMethod?_eq (h : s.Holds programs) (c : ClassId) (x : String) :
    s.session.machine.heap.findMethod? c x = (s.ledger.nearest? c x).map (·.2) :=
  h.ledger.findMethod?_eq c x

theorem Holds.findMethod?_declared (h : s.Holds programs) {c : ClassId}
    (hc : c < s.session.machine.heap.classes.size) : ∃ d, s.ledger.classes[c]? = some d ∧
      ∀ x, s.session.machine.heap.findMethod? c x =
        (d.own? x).or (d.superclass.bind (s.session.machine.heap.findMethod? · x)) := by
  have hd := Array.getElem?_eq_getElem (h.ledger.classes_size.symm ▸ hc)
  exact ⟨_, hd, h.ledger.findMethod?_declared hd⟩

def after (s : Recorded) (runs : List Session.Run) : Recorded :=
  runs.foldl (fun s r => (s.run r.clock r.fuel r.source).2) s

end Recorded
end Inheritance

namespace Session

open Inheritance (Recorded)

def after (s : Session) (runs : List Run) : Session :=
  runs.foldl (fun s r => (s.run r.clock r.fuel r.source).2) s

theorem after_recorded {programs : List (List Stmt)} {s : Recorded} (h : s.Holds programs)
    (runs : List Run) : (s.after runs).session = s.session.after runs ∧
      ∃ programs', (s.after runs).Holds programs' := by
  induction runs generalizing programs s with
  | nil => exact ⟨rfl, programs, h⟩
  | cons r rest ih =>
    obtain ⟨hrun, hholds, -⟩ := h.run r.clock r.fuel r.source
    have hafter : s.session.after (r :: rest) =
        (s.run r.clock r.fuel r.source).2.session.after rest :=
      congrArg (Session.after ·.2 rest) hrun
    rw [hafter]
    exact ih hholds

/-- Whatever has been run before, a source ends as it does with the ledger, and prints and leaves
behind the same. No method is then without its `this` or `super`. What the ledger has of a class never
changes, and what is found in the class is the last method of its own declaration, or else what is
found in the superclass that it was declared with. -/
theorem run_eq_recorded (out : Sink) (earlier : List Run) (r : Run) :
    let recorded := (Recorded.initial out).after earlier
    let ended := recorded.run r.clock r.fuel r.source
    let heap := ended.2.session.machine.heap
    recorded.session = (Session.initial out).after earlier ∧
      ((Session.initial out).after earlier).run r.clock r.fuel r.source =
        (ended.1, ended.2.session) ∧
      (∀ line fault, ended.1 = .failed (.runtime ⟨line, fault⟩) →
        fault ≠ .superOutsideClass ∧ fault ≠ .undefinedVariable "this") ∧
      (∀ (c : ClassId) d, recorded.ledger.classes[c]? = some d →
        ended.2.ledger.classes[c]? = some d) ∧
      (∀ c x, heap.findMethod? c x = (ended.2.ledger.nearest? c x).map (·.2)) ∧
      ∀ c < heap.classes.size, ∃ d, ended.2.ledger.classes[c]? = some d ∧
        ∀ x, heap.findMethod? c x = (d.own? x).or (d.superclass.bind (heap.findMethod? · x)) := by
  obtain ⟨hsession, programs, hrecorded⟩ := after_recorded (Recorded.holds_initial out) earlier
  obtain ⟨hrun, hended, hkept⟩ := hrecorded.run r.clock r.fuel r.source
  refine ⟨hsession, hsession ▸ hrun, fun line fault hfailed => ?_, fun _ _ hd => hkept hd,
    hended.findMethod?_eq, fun _ hc => hended.findMethod?_declared hc⟩
  have hfault : fault.Tolerable True :=
    hrecorded.checked.tolerable r.clock r.fuel r.source ((congrArg Prod.fst hrun).trans hfailed)
  constructor <;> rintro rfl <;> simp [RuntimeFault.Tolerable] at hfault

/-- The names of the superclasses are other classes by then, and the instance is of a class that has
another such method. -/
example : (((Recorded.initial .unlimited).run (fun _ => 0) 20
    "class A \x7b m() \x7b return 1; \x7d \x7d
     class B < A \x7b g() \x7b fun f() \x7b return super.m(); \x7d return f(); \x7d \x7d
     class C < B \x7b m() \x7b \x7d \x7d
     class A \x7b \x7d class B \x7b \x7d
     print C().g();").2.session.drain).1 = "1\n" := by decide +kernel

end Session
end Treewalk
