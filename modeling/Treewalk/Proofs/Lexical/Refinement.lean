import Treewalk.Proofs.Lexical.Nodes
import Treewalk.Proofs.Session.Reached
/-!
# Distances implement lexical scoping

A source that is not rejected runs on scopes, at the distances that the walk has found, just as it
does on a list of local names that is handed on (`Session.run_eq_lexical`). The one difference is an
assignment to a variable in the variable's own initializer, which the walk resolves to the variable
that is not there yet.
-/

namespace Treewalk
namespace Lexical

open Eval (Quiet StmtMirrored Frames)

variable {programs : List (List Stmt)} {γ : Plan} {m : Machine} {s : Store}
  {σ : Treewalk.Setting} {τ : Setting}

/-! ### Whole evaluations -/

section Whole

variable (hσ : σ.distances.Suits programs True) (hclock : τ.clock = σ.clock)
include hσ

include hclock

theorem evaluations_inStep (n : Nat) :
    ExprInStep programs σ τ (Eval.expr n) (expr n) ∧
      StmtInStep programs σ τ (Eval.stmt n) (stmt n) := by
  induction n with
  | zero => exact ⟨fun _ _ _ hp => inStep_throw hp.out, fun _ _ _ hp => inStep_throw hp.out⟩
  | succ n ih =>
    obtain ⟨ihe, ihs⟩ := ih
    have hm : StmtMirrored programs True σ (Eval.stmt n) (Eval.stmt n) := Eval.stmt_mirrored hσ n
    refine ⟨fun {e r m s γ place} hv hsound hface hp => ?_,
      fun {st r m s γ place} hv hsound hstand hp => ?_⟩
    · have hquiet := Eval.expr_mirrored hσ (n + 1) hv trivial hsound hface.ready
      exact (exprRule_inStep hσ hclock ihe ihs hm (Eval.stmt_frames n) hv hsound hface hp).tracked
        hquiet
    · have hends := (Eval.stmt_mirrored hσ (n + 1) hv hsound hstand.control).framed
        (Eval.stmt_frames (n + 1) st)
      refine ((stmtRule_inStep hσ ihe ihs hm (Eval.stmt_frames n) hv hsound hstand hp n).tracked
        hends).mono ?_
      rintro c m' f s' ⟨⟨γ', hγ, hp', hfin⟩, ⟨hsound', hcursor, hcontrol⟩, -, hextends⟩
      refine ⟨⟨hsound', hcursor, hextends⟩, γ', hγ, hp', ?_⟩
      cases hfin with
      | normal hfits => exact .normal ⟨hcontrol rfl, hfits⟩
      | returned v => exact .returned v

/-- At the outermost level there are no local names. -/
theorem program_inStep (fuel : Nat) {ss : List Stmt} {r : Resolver}
    (hv : Visits programs (.stmts ss r)) (hr : r.scopes = [])
    (hsound : m.heap.Sound programs True) (hc : m.cursor = Heap.globals)
    (hp : Paired programs γ m s) :
    InStep σ τ (Escape programs τ.strict) m s (Eval.program fuel ss) (program fuel ss)
      fun _ m' _ s' => s'.out = m'.out := by
  induction ss generalizing r m s γ with
  | nil => exact inStep_pure hp.out
  | cons st rest ih =>
    have hstand : Standing γ m r.scopes .outermost := by
      rw [hr]
      refine ⟨hc ▸ Scopes.control_globals True _, ?_⟩
      rw [hc]
      exact .of_allDefined (fun _ hb => by cases hb) (Env.fits_nil ..) rfl rfl
    refine inStep_bind ((evaluations_inStep hσ hclock fuel).2
      (hv.part (by simp [Call.parts])) hsound hstand hp) ?_
    rintro c m' f s' ⟨⟨hsound', hcursor, -⟩, γ', -, hp', -⟩
    exact ih (hv.part (p := .stmts rest (Resolver.stmt st r)) (by simp [Call.parts]))
      (Resolver.scopes_stmt_outermost hr st) hsound' (hcursor.trans hc) hp'

end Whole

end Lexical

namespace Session

/-- A run on scopes, at the distances that the walk has found, and one on lists of local names end
alike and print the same. The only exception needs a setting that is not strict. -/
theorem run_inStep {out : Sink} {source : String} {statements : List Stmt}
    (h : ((Session.initial out).accept source).1 = .ok statements) (clock : Nat → Float)
    (strict : Bool) (fuel : Nat) :
    let ended := (Session.initial out).run clock fuel source
    (ended.1, ended.2.machine.out) = Lexical.run ⟨clock, strict⟩ fuel out statements ∨
      ∃ e, Lexical.Escape [statements] strict e ∧ ended.1 = .ofResult (.error e) := by
  have hs := (Reached.initial out).checked.accept source
  have hmachine : ((Session.initial out).accept source).2.machine = .initial out := by
    rw [accept_eq]
    dsimp only
    split <;> rfl
  unfold accepted at hs
  unfold Session.run
  generalize (Session.initial out).accept source = a at h hs hmachine ⊢
  obtain ⟨_, machine, distances, next⟩ := a
  obtain rfl : _ = Except.ok statements := h
  obtain rfl : machine = .initial out := hmachine
  have alike := Lexical.program_inStep (σ := ⟨distances, clock⟩) (τ := ⟨clock, strict⟩)
    hs.sound.suits rfl fuel (.program List.mem_cons_self) rfl hs.sound.heap hs.sound.cursor
    ⟨.initial [statements] out, rfl, rfl⟩
  dsimp only [interpret, perform, Lexical.run]
  unfold Lexical.InStep at alike
  generalize Eval.program fuel statements ⟨distances, clock⟩ (.initial out) = result at *
  generalize Lexical.program fuel statements ⟨clock, strict⟩ (.initial out) = result' at *
  cases alike with
  | ok hout => exact .inl (congrArg _ hout.symm)
  | error hout => exact .inl (congrArg _ hout.symm)
  | escape hescape => exact .inr ⟨_, hescape, rfl⟩

/-- In a strict setting there is no exception. -/
theorem run_eq_strict {out : Sink} {source : String} {statements : List Stmt}
    (h : ((Session.initial out).accept source).1 = .ok statements) (clock : Nat → Float)
    (fuel : Nat) :
    let ended := (Session.initial out).run clock fuel source
    (ended.1, ended.2.machine.out) = Lexical.run ⟨clock, true⟩ fuel out statements := by
  rcases run_inStep h clock true fuel with heq | ⟨e, ⟨hstrict, -⟩, -⟩
  · exact heq
  · cases hstrict

/-- A source that is not rejected prints what it prints, and ends as it ends, on lists of local names.
If an assignment in a variable's own initializer does not see that variable there, this holds unless
the run stops at such an assignment, for a variable that is undefined. -/
theorem run_eq_lexical {out : Sink} {source : String} {statements : List Stmt}
    (h : ((Session.initial out).accept source).1 = .ok statements) (clock : Nat → Float)
    (fuel : Nat) :
    let ended := (Session.initial out).run clock fuel source
    (ended.1, ended.2.machine.out) = Lexical.run ⟨clock, true⟩ fuel out statements ∧
      ((ended.1, ended.2.machine.out) = Lexical.run ⟨clock, false⟩ fuel out statements ∨
        ∃ node name value, (Expr.assign node name value).InOwnInitializer [statements] ∧
          ended.1 = .failed (.runtime ⟨name.line, .undefinedVariable name.lexeme⟩)) := by
  intro ended
  refine ⟨run_eq_strict h clock fuel, ?_⟩
  rcases run_inStep h clock false fuel with heq | ⟨e, ⟨-, node, name, value, hown, rfl⟩, hended⟩
  · exact .inl heq
  · exact .inr ⟨node, name, value, hown, hended⟩

theorem exists_ok_of_any {ε α : Type} {x : Except ε α} {p : α → Bool}
    (h : x.toOption.any p = true) : ∃ a, x = .ok a ∧ p a = true := by
  cases x with
  | ok a => exact ⟨a, rfl, h⟩
  | error e => cases h

/-- A function sees the variable that was there when it was declared, not the later one of its
caller. -/
def shadowedLater : String :=
  "var x = \"a\"; \x7b fun f() \x7b x = x + \"b\"; \x7d var x; f(); print x; \x7d print x;"

theorem run_eq_lexical_shadowedLater :
    ∃ statements, ((Session.initial .unlimited).accept shadowedLater).1 = .ok statements ∧
      let ended := (Session.initial .unlimited).run (fun _ => 0) 20 shadowedLater
      (ended.1, ended.2.machine.out) =
          Lexical.run ⟨fun _ => 0, true⟩ 20 .unlimited statements ∧
        ((ended.1, ended.2.machine.out) =
            Lexical.run ⟨fun _ => 0, false⟩ 20 .unlimited statements ∨
          ∃ node name value, (Expr.assign node name value).InOwnInitializer [statements] ∧
            ended.1 = .failed (.runtime ⟨name.line, .undefinedVariable name.lexeme⟩)) := by
  obtain ⟨statements, h, -⟩ := exists_ok_of_any (p := fun _ => true)
    (x := ((Session.initial .unlimited).accept shadowedLater).1) (by decide +kernel)
  exact ⟨statements, h, run_eq_lexical h (fun _ => 0) 20⟩

def ownInitializer : String :=
  "var x = 0; \x7b var x = x = 1; print x; \x7d"

/-- On lists of local names an assignment in a variable's own initializer is to the outer variable;
with distances it finds none. -/
theorem run_ne_lexical_ownInitializer :
    ((Session.initial .unlimited).run (fun _ => 0) 9 ownInitializer).1 =
        .failed (.runtime ⟨1, .undefinedVariable "x"⟩) ∧
      ∃ statements, ((Session.initial .unlimited).accept ownInitializer).1 = .ok statements ∧
        (Lexical.run ⟨fun _ => 0, false⟩ 9 .unlimited statements).1 = .ok := by
  refine ⟨by decide +kernel, ?_⟩
  obtain ⟨statements, h, hok⟩ := exists_ok_of_any
    (p := fun p => decide ((Lexical.run ⟨fun _ => 0, false⟩ 9 .unlimited p).1 = .ok))
    (x := ((Session.initial .unlimited).accept ownInitializer).1) (by decide +kernel)
  exact ⟨statements, h, of_decide_eq_true hok⟩

end Session
end Treewalk
