import Treewalk.Proofs.Lexical.Refinement
import Treewalk.Proofs.Surface.Nodes
import Treewalk.Proofs.Surface.Syntax
/-!
# Lowering a `for` keeps its meaning

A source that is not rejected is read as the lowering of the program with `for` that is written there,
and runs as that program does where a `for` is a loop of its own (`Session.run_eq_surface`).
-/

namespace Treewalk
namespace Surface

variable {early late : Prop} {n m : Nat}

/-- A program and its lowering end alike and print the same, as far as the fuel goes. -/
theorem run_lowers (hm : Suffices early late 1 n m) (τ : Lexical.Setting) (out : Sink)
    (P : Program) :
    Lexical.run τ m out (Declaration.loweredAll P) = run τ n out P ∨
      (early ∧ (run τ n out P).1 = .outOfFuel) ∨
      (late ∧ (Lexical.run τ m out (Declaration.loweredAll P)).1 = .outOfFuel) := by
  have h := (program_lowers hm P).run τ (.initial out)
  have hinitial : (Store.initial out).lowered = .initial out := by
    simp [Store.lowered, Store.initial, Lexical.Store.initial]
  rw [hinitial] at h
  unfold run Lexical.run
  generalize program n P τ (.initial out) = r at h ⊢
  generalize Lexical.program m _ τ (.initial out) = r' at h ⊢
  cases h with
  | ok => exact .inl rfl
  | error => exact .inl rfl
  | early he => exact .inr (.inl ⟨he, rfl⟩)
  | late hl => exact .inr (.inr ⟨hl, rfl⟩)

end Surface

/-- The tokens of a source in front of the one that ends it. -/
def Source.tokens (source : String) : List Token :=
  beforeFinish ((scan source).filterMap Item.token?)

namespace Session

/-- The statements of a source that is not rejected are the lowering of the program that is written
there. -/
theorem accept_written {out : Sink} {source : String} {statements : List Stmt}
    (h : ((Session.initial out).accept source).1 = .ok statements) :
    ∃ P, Surface.Syntax.Program (Source.tokens source) P ∧
      Surface.Declaration.loweredAll P = statements := by
  rw [accept_eq] at h
  dsimp only at h
  split at h
  · next hread =>
    split at h
    · obtain rfl := Except.ok.inj h
      have herrors := (List.append_eq_nil_iff.1 (List.isEmpty_iff.1 hread)).2
      exact Surface.parseTokens_written (List.map_eq_nil_iff.1 herrors)
    · cases h
  · cases h

/-- A source that is not rejected prints and ends as the program with `for` that is written there,
whatever the sink takes: with more than four times the fuel if that program ends, and if the source
itself ends, already with the same. So one of the two goes on for ever if the other does, and as
a sink may be full after any number of bytes, they have printed the same by then. -/
theorem run_eq_surface {out : Sink} {source : String} {statements : List Stmt}
    (h : ((Session.initial out).accept source).1 = .ok statements) :
    (∃ P, Surface.Syntax.Program (Source.tokens source) P ∧
      Surface.Declaration.loweredAll P = statements) ∧
    ∀ P, Surface.Declaration.loweredAll P = statements → ∀ (clock : Nat → Float) (fuel : Nat),
      let ended (m : Nat) := (Session.initial out).run clock m source
      let native (n : Nat) := Surface.run ⟨clock, true⟩ n out P
      ((native fuel).1 ≠ .outOfFuel → ∀ m, 4 * fuel < m →
        ((ended m).1, (ended m).2.machine.out) = native fuel) ∧
      ((ended fuel).1 ≠ .outOfFuel → ∀ n, fuel ≤ n →
        ((ended fuel).1, (ended fuel).2.machine.out) = native n) := by
  refine ⟨accept_written h, ?_⟩
  rintro P rfl clock fuel ended native
  have hlexical (m : Nat) := run_eq_strict h clock m
  constructor
  · intro hn m hm
    have hsuffices : Surface.Suffices True False 1 fuel m := ⟨fun _ => hm, fun he => absurd trivial he⟩
    rw [hlexical m]
    rcases Surface.run_lowers hsuffices ⟨clock, true⟩ out P with heq | ⟨-, hfuel⟩ | ⟨hl, -⟩
    · exact heq
    · exact absurd hfuel hn
    · exact hl.elim
  · intro hended n hn
    have hsuffices : Surface.Suffices False True 1 n fuel := ⟨fun hl => absurd trivial hl, fun _ => hn⟩
    rw [hlexical fuel]
    rcases Surface.run_lowers hsuffices ⟨clock, true⟩ out P with heq | ⟨he, -⟩ | ⟨-, hfuel⟩
    · exact heq
    · exact he.elim
    · exact absurd ((congrArg Prod.fst (hlexical fuel)).trans hfuel) hended

/-- Two functions of different iterations see the same variable, which the `return` has left as it
was. -/
def sharedVariable : String :=
  "var h; fun f() \x7b for (var s = \"\"; ; s = s + \"a\") \x7b fun g() \x7b return s; \x7d " ++
  "if (s == \"\") h = g; if (s == \"aa\") return g; \x7d \x7d print f()(); print h();"

theorem run_eq_surface_sharedVariable :
    ∃ P, Surface.Syntax.Program (Source.tokens sharedVariable) P ∧ ∀ n, 30 ≤ n →
      let native := Surface.run ⟨fun _ => 0, true⟩ n .unlimited P
      native.1 = .ok ∧ native.2.written = "aa\naa\n".toUTF8 := by
  obtain ⟨statements, h, -⟩ := exists_ok_of_any (p := fun _ => true)
    (x := ((Session.initial .unlimited).accept sharedVariable).1) (by decide +kernel)
  obtain ⟨⟨P, hP, hlowered⟩, hrun⟩ := run_eq_surface h
  have hended : ((Session.initial .unlimited).run (fun _ => 0) 30 sharedVariable).1 = .ok ∧
      ((Session.initial .unlimited).run (fun _ => 0) 30 sharedVariable).2.machine.out.written =
        "aa\naa\n".toUTF8 := by
    decide +kernel
  refine ⟨P, hP, fun n hn => ?_⟩
  intro native
  have heq : _ = native := (hrun P hlowered (fun _ => 0) 30).2 (by rw [hended.1]; decide) n hn
  rw [← heq]
  exact hended

end Session
end Treewalk
