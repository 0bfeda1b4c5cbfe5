import Treewalk.Proofs.Evaluation.Watch
/-!
# Between the beginning and the end of a run

If evaluations under a watch that stops wherever `N` fails go from heaps to heaps that are related by
a transitive relation, then the heap at each node that control is at stands between the heap at the
beginning and the one at the end: a watch that is silent at the nodes where `N` holds on such heaps
makes no difference (`programWatched_between`).
-/

namespace Treewalk

open Classical in
/-- Stops with `e` wherever `N` does not hold. -/
noncomputable def Watch.unless (N : Node → Machine → Prop) (e : Stop) : Watch :=
  fun ν m => if N ν m then none else some e

theorem Watch.unless_eq_none {N : Node → Machine → Prop} {e : Stop} {ν : Node} {m : Machine} :
    Watch.unless N e ν m = none ↔ N ν m := by
  unfold Watch.unless
  split <;> simp_all

namespace Eval

variable {N : Node → Machine → Prop} {e : Stop} {w : Watch} {σ : Setting} {α : Type}
  {P : Prop → Machine → Machine → Prop} {R : Heap → Heap → Prop}

/-- The evaluation did not stop with `e`. -/
def Unlike (e : Stop) (r : Result α) : Prop :=
  ∀ m, r ≠ .error e m

theorem unlike_ok (a : α) (m : Machine) : Unlike e (.ok a m : Result α) :=
  nofun

theorem unlike_error {e' : Stop} {m : Machine} :
    Unlike e (.error e' m : Result α) ↔ e' ≠ e := by
  constructor
  · rintro h rfl; exact h m rfl
  · rintro h m' ⟨⟩; exact h rfl

/-- Unless the first result is the stop `e`, the second one is the same, given that the watch is
silent at the nodes where `N` holds and whose heaps are between those of the beginning and the end. -/
def SameBetween (R : Heap → Heap → Prop) (N : Node → Machine → Prop) (w : Watch) (e : Stop)
    (m : Machine) (r r' : Result α) : Prop :=
  Unlike e r → ∀ before behind, R before m.heap → R (ending r).heap behind →
    (∀ ν m', N ν m' → R before m'.heap → R m'.heap behind → w ν m' = none) → r' = r

theorem SameBetween.of_eq {m : Machine} {r : Result α} : SameBetween R N w e m r r :=
  fun _ _ _ _ _ _ => rfl

theorem CompositionalUnder.of_step {w' : Watch} {S : Prop} {m m' : Machine}
    (hP : CompositionalUnder w w' σ fun S m {_} r _ => P S m (ending r)) (hs : m.Step m') :
    P S m m' :=
  @Compositional.step _ hP.toCompositional S m m' Unit (.ok () m') (.ok () m') hs (hP.ok ())

/-- The watch `w` may be told from the one that stops unless `N` holds only by what it says at nodes
in between. -/
theorem compositional_between
    (hP : CompositionalUnder (.unless N e) w σ fun S m {_} r _ => P S m (ending r))
    (hR : ∀ {S m m'}, P S m m' → R m.heap m'.heap)
    (trans : ∀ {a b c}, R a b → R b c → R a c) :
    CompositionalUnder (.unless N e) w σ fun S m {_} r r' =>
      P S m (ending r) ∧ SameBetween R N w e m r r' where
  ok a := ⟨hP.ok a, .of_eq⟩
  error e := ⟨hP.error e, .of_eq⟩
  step {S m m' α r r'} hs h := by
    refine ⟨@Compositional.step _ hP.toCompositional S m m' α r r' hs h.1,
      fun hne before behind hb he hw => ?_⟩
    have stepped : P S m m' := hP.of_step hs
    exact h.2 hne before behind (trans hb (hR stepped)) he hw
  bind {S τ m α β x y f g} hx hf := by
    refine ⟨hP.bind (y := y) (g := g) hx.1 fun a m' ha => (hf a m' ha).1, ?_⟩
    intro hne before behind hb he hw
    obtain ⟨first, same⟩ := hx
    cases hr : x τ m with
    | error e' m' =>
      rw [bind_error hr] at hne he ⊢
      rw [hr] at same
      have unlike : Unlike e (.error e' m' : Result α) := unlike_error.2 (unlike_error.1 hne)
      exact bind_error (same unlike before behind hb he hw) g
    | ok a m' =>
      rw [bind_ok hr] at hne he ⊢
      rw [hr] at first same
      have rest := hf a m' hr
      have reached : R before m'.heap := trans hb (hR first)
      have left : R m'.heap behind := trans (hR rest.1) he
      rw [bind_ok (same (unlike_ok a m') before behind hb left hw)]
      exact rest.2 hne before behind reached he hw
  opened {S τ m α b p x y} := by
    intro inside h
    refine ⟨hP.opened (y := y) h.1, fun hne before behind hb he hw => ?_⟩
    have opened : P S m { m with heap := m.heap.addScope b p } := hP.of_step (.scope b p)
    have entered : R m.heap (m.heap.addScope b p) := hR opened
    have same := h.2
    rw [newScope_bind, within_run] at hne he ⊢
    rw [newScope_bind, within_run]
    cases hr : x τ inside with
    | error e' m' =>
      rw [hr] at hne he same
      have unlike : Unlike e (.error e' m' : Result α) := unlike_error.2 (unlike_error.1 hne)
      rw [same unlike before behind (trans hb entered) he hw]
    | ok a m' =>
      rw [hr] at he same
      rw [same (unlike_ok a m') before behind (trans hb entered) he hw]
  check {S m α ν x y} h := by
    refine ⟨hP.check (y := y) fun hN => (h hN).1, fun hne before behind hb he hw => ?_⟩
    by_cases hN : N ν m
    · have silent : Watch.unless N e ν m = none := Watch.unless_eq_none.2 hN
      obtain ⟨hp, same⟩ := h silent
      rw [check_bind silent] at hne he ⊢
      rw [check_bind (hw ν m hN hb (trans (hR hp) he))]
      exact same hne before behind hb he hw
    · have spoken : Watch.unless N e ν m = some e := if_neg hN
      exact absurd (check_bind_error spoken x) (hne m)
  assign v hw := ⟨hP.assign v hw, .of_eq⟩
  declare hw hd v m := ⟨hP.declare hw hd v m, .of_eq⟩

/-- If stopping unless `N` holds makes no difference to a program, then neither does a watch that is
silent at nodes where `N` holds on heaps between the first and the last. -/
theorem programWatched_between
    (hP : CompositionalUnder (.unless N e) w σ fun S m {_} r _ => P S m (ending r))
    (hR : ∀ {S m m'}, P S m m' → R m.heap m'.heap) (trans : ∀ {a b c}, R a b → R b c → R a c)
    {fuel : Nat} {p : List Stmt} {m : Machine}
    (same : programWatched (.unless N e) fuel p σ m = program fuel p σ m)
    (unlike : Unlike e (program fuel p σ m))
    (hw : ∀ ν m', N ν m' → R m.heap m'.heap →
      R m'.heap (ending (program fuel p σ m)).heap → w ν m' = none) :
    programWatched w fuel p σ m = program fuel p σ m := by
  have refl (m : Machine) : R m.heap m.heap := hR (S := True) (hP.ok () : P True m m)
  have between := ((compositional_between hP hR trans).program fuel p m).2
  rw [same] at between
  exact between unlike m.heap (ending (program fuel p σ m)).heap (refl m) (refl _) hw

end Eval

end Treewalk
