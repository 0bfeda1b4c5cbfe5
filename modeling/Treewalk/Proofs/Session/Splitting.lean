import Treewalk.Proofs.Renaming.Evaluating
import Treewalk.Proofs.Renaming.Sources
import Treewalk.Proofs.Session.Reached
/-!
# Splitting a source

A source may be given to a session in pieces of whole statements. If the first piece runs to its end,
then the second one ends as the whole does, but for the line of an error, and as much is printed; and
if it does not, the whole ends like it (`Reached.run_append`).

The whole is resolved before any of it runs. That the distances of the second piece are known already
makes no difference to the first (`Checked.program_later`), and the lines of the second piece make
none but to its errors (`Eval.renames_program`).
-/

namespace Treewalk

theorem Eval.program_append (fuel : Nat) (p q : List Stmt) (σ : Setting) (m : Machine) :
    program fuel (p ++ q) σ m = (program fuel p >>= fun _ => program fuel q) σ m := by
  induction p generalizing m with
  | nil => rfl
  | cons s rest ih =>
    rw [bind_run, List.cons_append, program, program, bind_run, bind_run]
    cases stmt fuel s σ m with
    | ok _ m' =>
      dsimp only
      rw [ih m', bind_run]
    | error e m' => rfl

/-- The outcomes are the same, but for the line of a runtime error. -/
inductive Outcome.SameButLine : Outcome → Outcome → Prop where
  | same (o : Outcome) : SameButLine o o
  | failed (line line' : Nat) (fault : RuntimeFault) :
    SameButLine (.failed (.runtime ⟨line, fault⟩)) (.failed (.runtime ⟨line', fault⟩))

namespace Session

/-- The source has no error that shows without running it. -/
def Acceptable (source : String) : Prop :=
  (Source.read source 0).errors = [] ∧
    (Treewalk.resolve (Source.read source 0).statements).errors = []

variable {programs : List (List Stmt)} {s : Session}

/-- Whether a source is acceptable does not depend on what has been read before. -/
theorem acceptable_iff {source : String} (next : NodeId) : Acceptable source ↔
    (Source.read source next).errors = [] ∧
      (Treewalk.resolve (Source.read source next).statements).errors = [] := by
  rw [Acceptable, Source.read_eq_shift source next, resolve_rename, List.map_eq_nil_iff]

/-- What a session is after it has read and resolved a source. -/
theorem accept_of_acceptable {source : String} (h : Acceptable source) (s : Session) :
    s.accept source = (.ok (Source.read source s.next).statements,
      { s with
        next := (Source.read source s.next).next
        distances := s.distances.record
          (Treewalk.resolve (Source.read source s.next).statements).references }) := by
  obtain ⟨herrors, hresolved⟩ := (acceptable_iff s.next).1 h
  rw [accept_eq]
  simp only [herrors, hresolved, List.isEmpty_nil, if_true]

theorem acceptable_of_accept {source : String} {p : List Stmt} (h : (s.accept source).1 = .ok p) :
    Acceptable source := by
  rw [accept_eq] at h
  dsimp only at h
  split at h
  · next hread =>
    split at h
    · next hresolved =>
      exact (acceptable_iff s.next).2 ⟨List.isEmpty_iff.1 hread, List.isEmpty_iff.1 hresolved⟩
    · cases h
  · cases h

theorem Acceptable.references_within {source : String} (h : Acceptable source) (next : NodeId) :
    ∀ n ∈ (Treewalk.resolve (Source.read source next).statements).references.map (·.node),
      next ≤ n ∧ n < (Source.read source next).next := by
  intro n hn
  have hfresh := ((Source.read_sound source next).2 ((acceptable_iff next).1 h).1).2
  exact hfresh.within n ((resolve_nodes _).subset hn)

/-! ### The first piece -/

/-- Stops at an expression with an identity that is not below the bound. -/
def stopBeyond (bound : NodeId) : Watch
  | .expr e, _ => if ∀ n ∈ e.nodes, n < bound then none else some .outOfFuel
  | .stmt _, _ => none

theorem nodes_lt_of_stopBeyond {bound : NodeId} {e : Expr} {m : Machine}
    (h : stopBeyond bound (.expr e) m = none) : ∀ n ∈ e.nodes, n < bound := by
  by_contra hne
  rw [stopBeyond, if_neg hne] at h
  cases h

theorem Checked.stopBeyond_eq_none (h : s.Checked programs) {ν : Node} {m : Machine}
    (hat : Eval.AtNode programs True ν m) : stopBeyond s.next ν m = none := by
  cases ν with
  | stmt => rfl
  | expr e =>
    obtain ⟨r, hvisits, -⟩ := hat
    obtain ⟨p, hp, hwithin⟩ := hvisits.exists_program
    refine if_pos fun n hn => h.below n ?_
    exact List.mem_flatMap.2 ⟨p, hp, hwithin.nodes_subset hn⟩

/-- It makes no difference to a program what distances later references have. -/
theorem Checked.program_later (h : s.Checked programs) {p : List Stmt} (hp : p ∈ programs)
    {next : NodeId} (hn : s.next ≤ next) {l : List Reference}
    (hl : ∀ n ∈ l.map (·.node), s.next ≤ n ∧ n < next) (clock : Nat → Float) (fuel : Nat) :
    Eval.program fuel p ⟨s.distances.record l, clock⟩ s.machine =
      Eval.program fuel p ⟨s.distances, clock⟩ s.machine := by
  have hlater := (h.reject hn hl).sound
  have hsilent : ∀ ν m, Eval.AtNode programs True ν m → stopBeyond s.next ν m = none :=
    fun ν m => h.stopBeyond_eq_none
  have hwatched := (Eval.program_tracks (σ := ⟨s.distances, clock⟩) h.sound.suits hsilent fuel hp
    h.sound.heap h.sound.cursor).1
  have hwatchedLater := (Eval.program_tracks (σ := ⟨s.distances.record l, clock⟩) hlater.suits hsilent
    fuel hp h.sound.heap h.sound.cursor).1
  rw [← hwatched, ← hwatchedLater]
  have hclock : (Setting.mk (s.distances.record l) clock).clock = (Setting.mk s.distances clock).clock :=
    rfl
  refine Eval.programWatched_congr hclock (fun e m hw n hmem => ?_) fuel p s.machine
  have hlt := nodes_lt_of_stopBeyond hw n hmem
  exact Distances.record_of_notMem fun hnode => absurd (hl n hnode).1 (Nat.not_le.2 hlt)

/-! ### The second piece -/

theorem sameButLine_of_unlined {e e' : Stop} (h : e'.rename .unlined = e.rename .unlined) :
    Outcome.SameButLine (.ofResult (.error e')) (.ofResult (.error e)) := by
  cases e with
  | runtime e =>
    cases e' with
    | runtime e' =>
      obtain ⟨line, fault⟩ := e
      obtain ⟨line', fault'⟩ := e'
      obtain rfl : fault' = fault := congrArg RuntimeError.fault (Stop.runtime.inj h)
      exact .failed line' line fault'
    | output reason => cases h
    | outOfFuel => cases h
  | output reason =>
    cases e' with
    | output reason' =>
      obtain rfl : reason' = reason := Stop.output.inj h
      exact .same _
    | runtime e' => cases h
    | outOfFuel => cases h
  | outOfFuel =>
    cases e' with
    | outOfFuel => exact .same _
    | runtime e' => cases h
    | output reason => cases h

/-- The lines of a program make no difference but to its errors. -/
theorem interpret_unlined {q q' : List Stmt}
    (hq : q'.map (Stmt.rename .unlined) = q.map (Stmt.rename .unlined)) (s : Session)
    (clock : Nat → Float) (fuel : Nat) :
    (s.interpret clock fuel q').2.machine.out = (s.interpret clock fuel q).2.machine.out ∧
      Outcome.SameButLine (.ofResult (s.interpret clock fuel q').1)
        (.ofResult (s.interpret clock fuel q).1) := by
  have hrun (q : List Stmt) : Eval.Renames .unlined ⟨s.distances, clock⟩ ⟨s.distances, clock⟩ id
      s.machine (Eval.program fuel q) (Eval.program fuel (q.map (Stmt.rename .unlined))) :=
    Eval.renames_program rfl (fun _ => rfl) fuel q
  have hq₁ := hrun q
  have hq₂ := hrun q'
  unfold Eval.Renames at hq₁ hq₂
  rw [hq, hq₁] at hq₂
  unfold interpret
  rw [perform_run, perform_run]
  generalize Eval.program fuel q ⟨s.distances, clock⟩ s.machine = r at hq₂ ⊢
  generalize Eval.program fuel q' ⟨s.distances, clock⟩ s.machine = r' at hq₂ ⊢
  cases r with
  | ok _ m =>
    cases r' with
    | ok _ m' =>
      injection hq₂ with _ hm
      exact ⟨(congrArg Machine.out hm).symm, .same _⟩
    | error e' m' => cases hq₂
  | error e m =>
    cases r' with
    | ok _ m' => cases hq₂
    | error e' m' =>
      injection hq₂ with he hm
      refine ⟨(congrArg Machine.out hm).symm, ?_⟩
      exact sameButLine_of_unlined he.symm

/-! ### The whole -/

/-- The statements of the second piece follow those of the first, and the references of each have the
distances that they have alone. -/
theorem accept_append {a b : String} (ha : Acceptable a) (hb : Acceptable b) (s : Session) :
    let r := Source.read a s.next
    let t := Source.read b r.next
    ∃ q, q.map (Stmt.rename .unlined) = t.statements.map (Stmt.rename .unlined) ∧
      s.accept (a ++ "\n" ++ b) = (.ok (r.statements ++ q), { s with
        next := t.next
        distances := (s.distances.record (Treewalk.resolve r.statements).references).record
          (Treewalk.resolve t.statements).references }) := by
  intro r t
  obtain ⟨hreadA, hresolvedA⟩ := (acceptable_iff s.next).1 ha
  obtain ⟨hreadB, hresolvedB⟩ := (acceptable_iff r.next).1 hb
  have hread := Source.read_append_newline hreadA hreadB
  generalize a.toList.count '\n' + 1 = k at hread
  have hresolve := resolve_append_rename (.shift 0 k) r.statements t.statements
  rw [hresolvedA, hresolvedB] at hresolve
  refine ⟨t.statements.map (Stmt.rename (.shift 0 k)), ?_, ?_⟩
  · rw [List.map_map]
    refine List.map_congr_left fun x _ => ?_
    rw [Function.comp_apply, Stmt.rename_rename, Renaming.shift_comp_unlined]
  · have hsame : (Treewalk.resolve t.statements).references.map (Reference.rename (.shift 0 k)) =
        (Treewalk.resolve t.statements).references := List.map_id _
    rw [hsame] at hresolve
    rw [accept_eq, hread]
    dsimp only
    rw [hresolve, Distances.record_append]
    rfl

/-- A source in two pieces of which each is free of static errors is so as a whole. If the first piece
runs to its end, the second then ends as the whole does and as much is printed; if not, the whole ends
like it. -/
theorem Reached.run_append (h : s.Reached programs) (clock : Nat → Float) (fuel : Nat) {a b : String}
    (ha : Acceptable a) (hb : Acceptable b) :
    Acceptable (a ++ "\n" ++ b) ∧
      let first := s.run clock fuel a
      let second := first.2.run clock fuel b
      let whole := s.run clock fuel (a ++ "\n" ++ b)
      (first.1 = .ok → whole.2.machine.out = second.2.machine.out ∧ whole.1.SameButLine second.1) ∧
        (first.1 ≠ .ok → whole.2.machine.out = first.2.machine.out ∧ whole.1 = first.1) := by
  have hchecked := h.checked.accept a
  have hfirst := accept_of_acceptable ha s
  obtain ⟨q, hunlined, hwhole⟩ := accept_append ha hb s
  refine ⟨acceptable_of_accept (congrArg Prod.fst hwhole), ?_⟩
  rw [accepted, hfirst] at hchecked
  generalize Source.read a s.next = r at *
  obtain ⟨hle, -⟩ := Source.read_sound b r.next
  have hlater := hb.references_within r.next
  generalize s.distances.record (Treewalk.resolve r.statements).references = d at *
  have hsecond (m : Machine) := accept_of_acceptable hb ⟨m, d, r.next⟩
  dsimp only at hwhole hsecond
  generalize Source.read b r.next = t at *
  have hprogram := Eval.program_append fuel r.statements q
    ⟨d.record (Treewalk.resolve t.statements).references, clock⟩ s.machine
  rw [Eval.bind_run, hchecked.program_later List.mem_cons_self hle hlater] at hprogram
  unfold Session.run
  rw [hfirst, hwhole]
  unfold interpret
  dsimp only at hprogram ⊢
  rw [perform_run, perform_run, hprogram]
  -- by how the first piece ends, on the machine that it leaves
  cases Eval.program fuel r.statements ⟨d, clock⟩ s.machine with
  | ok _ m =>
    dsimp only
    rw [hsecond]
    exact ⟨fun _ => interpret_unlined hunlined ⟨m, _, t.next⟩ clock fuel,
      fun hne => absurd rfl hne⟩
  | error e m =>
    dsimp only
    refine ⟨fun hok => ?_, fun _ => ⟨rfl, rfl⟩⟩
    cases e <;> cases hok

/-- A function of the first piece is called in the second one, which ends at an error. -/
theorem Reached.run_append_called :
    let s := Session.initial .unlimited
    let a := "fun f(x) \x7b return x; \x7d"
    let b := "print f(nil);\nf();"
    let first := s.run (fun _ => 0) 9 a
    let second := first.2.run (fun _ => 0) 9 b
    let whole := s.run (fun _ => 0) 9 (a ++ "\n" ++ b)
    Acceptable (a ++ "\n" ++ b) ∧
      (first.1 = .ok → whole.2.machine.out = second.2.machine.out ∧ whole.1.SameButLine second.1) ∧
        (first.1 ≠ .ok → whole.2.machine.out = first.2.machine.out ∧ whole.1 = first.1) :=
  Reached.run_append (.initial .unlimited) (fun _ => 0) 9 (by unfold Acceptable; decide +kernel)
    (by unfold Acceptable; decide +kernel)

/-- A second piece is run even if the first one stopped at an error, where the whole stops. -/
theorem Reached.run_append_stopped :
    let s := Session.initial .unlimited
    let first := s.run (fun _ => 0) 9 "nil();"
    let second := first.2.run (fun _ => 0) 9 "print nil;"
    let whole := s.run (fun _ => 0) 9 ("nil();" ++ "\n" ++ "print nil;")
    s.Reached [] ∧ Acceptable "nil();" ∧ Acceptable "print nil;" ∧
      second.2.drain.1 = "nil\n" ∧ whole.2.drain.1 = "" := by
  refine ⟨.initial .unlimited, ?_⟩
  unfold Acceptable
  decide +kernel

end Session
end Treewalk
