import Treewalk.Proofs.Evaluation.Nodes
import Treewalk.Session
/-!
# Programs with or without static errors

Statements that have been resolved once, with identities of their own, may be run whatever errors
were found in them. At every node that control comes to the number of links from the scope that is
executing to the global one is the number of scopes that the walk had there, so no reference ever
leads out of the chain (`Prepared.depth_mirrors_scopes`).
-/

namespace Treewalk

/-! ### The number of links to the global scope -/

namespace Scopes

/-- How many links there are from a scope to the global one. -/
def depth? (s : Scopes) (c : ScopeId) : Option Nat :=
  if c = Heap.globals then some 0
  else
    match _h : s.parent? c with
    | some p => (depth? s p).map (· + 1)
    | none => none
termination_by c
decreasing_by exact parent?_lt _h

theorem depth?_of_up? {s : Scopes} {k : Nat} {c : ScopeId} (h : s.up? k c = some Heap.globals) :
    s.depth? c = some k := by
  induction k generalizing c with
  | zero => rw [depth?, if_pos (Option.some.inj h)]
  | succ k ih =>
    obtain ⟨p, hp, hk⟩ := Option.bind_eq_some_iff.1 h
    have hc : c ≠ Heap.globals := Nat.ne_of_gt (Nat.lt_of_le_of_lt (Nat.zero_le p) (parent?_lt hp))
    rw [depth?, if_neg hc]
    split
    · next q hq =>
      obtain rfl : p = q := Option.some.inj (hp.symm.trans hq)
      rw [ih hk]; rfl
    · next hq => rw [hp] at hq; cases hq

end Scopes

/-! ### Nodes -/

namespace Node

/-- A walk in front of the node. -/
def call : Node → Resolver → Call
  | .expr e, r => .expr e r
  | .stmt s, r => .stmt s r

/-- The identities in the node. -/
def nodes : Node → List NodeId
  | .expr e => e.nodes
  | .stmt s => s.nodes

/-- There are as many links to the global scope as a walk that visits the node has scopes there. Nodes
are trees, so of one that holds no identity and stands in several places this says that there are as
many as at one of them. -/
def Mirrored (programs : List (List Stmt)) (ν : Node) (m : Machine) : Prop :=
  ∃ r, Visits programs (ν.call r) ∧ m.heap.scopes.depth? m.cursor = some r.scopes.length

theorem mirrored_of_atNode {programs : List (List Stmt)} {checked : Prop} {ν : Node} {m : Machine}
    (h : Eval.AtNode programs checked ν m) : ν.Mirrored programs m := by
  cases ν with
  | expr e =>
    obtain ⟨r, hv, -, hr⟩ := h
    exact ⟨r, hv, Scopes.depth?_of_up? hr.up?_length⟩
  | stmt s =>
    obtain ⟨r, hv, -, hc⟩ := h
    exact ⟨r, hv, Scopes.depth?_of_up? hc.fits.up?_length⟩

theorem eq_of_visits {programs : List (List Stmt)}
    (hn : (programs.flatMap Stmt.nodesOfAll).Nodup) {ν : Node} {n : NodeId} (h : n ∈ ν.nodes)
    {r r' : Resolver} (hr : Visits programs (ν.call r)) (hr' : Visits programs (ν.call r')) :
    r = r' := by
  cases ν with
  | expr e => exact (Call.expr.inj (hr.unique hn hr' h h rfl)).2
  | stmt s => exact (Call.stmt.inj (hr.unique hn hr' h h rfl)).2

end Node

/-! ### Sessions -/

namespace Session

/-- Runs statements under a watch. -/
def interpretWatched (w : Watch) (s : Session) (clock : Nat → Float) (fuel : Nat)
    (statements : List Stmt) : Except Stop Unit × Session :=
  s.perform clock (Eval.programWatched w fuel statements)

/-- In the session the programs, latest first, have been resolved, each once and with identities of
its own, and have been run any number of times. -/
inductive Prepared : List (List Stmt) → Session → Prop where
  | initial (out : Sink) : Prepared [] (.initial out)
  | resolve {programs : List (List Stmt)} {s : Session} (p : List Stmt) : Prepared programs s →
    ((p :: programs).flatMap Stmt.nodesOfAll).Nodup → Prepared (p :: programs) (s.resolve p).2
  | interpret {programs : List (List Stmt)} {s : Session} {p : List Stmt} (clock : Nat → Float)
    (fuel : Nat) : Prepared programs s → p ∈ programs →
    Prepared programs (s.interpret clock fuel p).2

/-- What holds of a session between runs. -/
structure Sound (programs : List (List Stmt)) (checked : Prop) (s : Session) : Prop where
  heap : s.machine.heap.Sound programs checked
  cursor : s.machine.cursor = Heap.globals
  suits : s.distances.Suits programs checked

theorem perform_run {α : Type} (s : Session) (clock : Nat → Float) (x : Eval α) :
    s.perform clock x = match x ⟨s.distances, clock⟩ s.machine with
      | .ok a m => (.ok a, { s with machine := m })
      | .error e m => (.error e, { s with machine := m }) := by
  obtain ⟨machine, distances, next⟩ := s
  rfl

/-- A run changes nothing but the machine. -/
theorem interpret_snd (s : Session) (clock : Nat → Float) (fuel : Nat) (p : List Stmt) :
    (s.interpret clock fuel p).2 =
      { s with machine := Eval.after (Eval.program fuel p) ⟨s.distances, clock⟩ s.machine } := by
  rw [interpret, perform_run, Eval.after]
  cases Eval.program fuel p ⟨s.distances, clock⟩ s.machine <;> rfl

variable {programs : List (List Stmt)} {checked : Prop} {s : Session}

/-- A run keeps the session sound, a watch that is silent at the nodes makes no difference to it, and
it does not stop at what is not tolerable. -/
theorem Sound.interpret (h : s.Sound programs checked) (clock : Nat → Float) (fuel : Nat)
    {p : List Stmt} (hp : p ∈ programs) {w : Watch}
    (hw : ∀ ν m, Eval.AtNode programs checked ν m → w ν m = none) :
    s.interpretWatched w clock fuel p = s.interpret clock fuel p ∧
      (s.interpret clock fuel p).2.Sound programs checked ∧
      ∀ e, (s.interpret clock fuel p).1 = .error e → e.Tolerable checked := by
  obtain ⟨hsame, hend⟩ := Eval.program_tracks (σ := ⟨s.distances, clock⟩) h.suits hw fuel hp
    h.heap h.cursor
  have hframe := (Eval.program_frames fuel p).run ⟨s.distances, clock⟩ s.machine
  refine ⟨?_, ?_, fun e he => ?_⟩
  · rw [interpretWatched, Session.interpret, perform_run, perform_run, hsame]
  · rw [interpret_snd]
    refine ⟨?_, hframe.1.trans h.cursor, h.suits⟩
    show (Eval.after _ _ _).heap.Sound programs checked
    unfold Eval.after
    cases hx : Eval.program fuel p ⟨s.distances, clock⟩ s.machine <;> rw [hx] at hend
    · exact hend
    · exact hend.1
  · rw [Session.interpret, perform_run] at he
    cases hx : Eval.program fuel p ⟨s.distances, clock⟩ s.machine <;> rw [hx] at he hend
    · cases he
    · cases he; exact hend.2

namespace Prepared

/-- The table knows identities of the programs only. -/
theorem mem_nodes (h : s.Prepared programs) {n : NodeId} (hn : s.distances[n]? ≠ none) :
    n ∈ programs.flatMap Stmt.nodesOfAll := by
  induction h with
  | initial out => exact absurd Std.TreeMap.getElem?_emptyc hn
  | @resolve programs s p h hd ih =>
    rw [List.flatMap_cons, List.mem_append]
    by_cases hp : n ∈ (Treewalk.resolve p).references.map (·.node)
    · exact .inl ((resolve_nodes p).subset hp)
    · exact .inr (ih fun he => hn ((Distances.record_of_notMem hp).trans he))
  | interpret clock fuel h hp ih => rw [interpret_snd] at hn; exact ih hn

theorem nodup (h : s.Prepared programs) : (programs.flatMap Stmt.nodesOfAll).Nodup := by
  induction h with
  | initial => exact List.nodup_nil
  | resolve p _ hd => exact hd
  | interpret _ _ _ _ ih => exact ih

theorem sound (h : s.Prepared programs) : s.Sound programs False := by
  induction h with
  | initial out => exact ⟨.initial [] False, rfl, Distances.agrees_nil ∅, nofun⟩
  | @resolve programs s p h hd ih =>
    refine ⟨ih.heap.mono (List.subset_cons_self p programs), ih.cursor, ?_, nofun⟩
    refine Distances.Agrees.record ih.suits.agrees hd fun n hn => ?_
    by_contra hne
    have hdis := (List.nodup_append.1 (List.flatMap_cons .. ▸ hd)).2.2
    exact hdis n hn n (h.mem_nodes hne) rfl
  | interpret clock fuel h hp ih =>
    exact (ih.interpret clock fuel hp (w := fun _ _ => none) fun _ _ _ => rfl).2.1

/-- While statements that have been resolved once are run, whatever errors they have: at every node
that control comes to, there are as many links to the global scope as the walk had scopes when it
visited the node. A node that holds an identity was visited in one state only. So no reference ever
leads out of the chain. -/
theorem depth_mirrors_scopes (h : s.Prepared programs) (clock : Nat → Float) (fuel : Nat) {p : List Stmt}
    (hp : p ∈ programs) {w : Watch} (hw : ∀ ν m, ν.Mirrored programs m → w ν m = none) :
    s.interpretWatched w clock fuel p = s.interpret clock fuel p ∧
      (∀ (ν : Node) (n : NodeId) (r r' : Resolver), n ∈ ν.nodes → Visits programs (ν.call r) →
        Visits programs (ν.call r') → r = r') ∧
      ∀ line k x, (s.interpret clock fuel p).1 ≠ .error (.runtime ⟨line, .noScope k x⟩) := by
  obtain ⟨hsame, -, htolerable⟩ := h.sound.interpret clock fuel hp
    fun ν m hat => hw ν m (Node.mirrored_of_atNode hat)
  refine ⟨hsame, fun ν n r r' hn => Node.eq_of_visits h.nodup hn, fun line k x he => ?_⟩
  exact htolerable _ he

/-- The statements of `{ fun f() { return f; } f(); }`. -/
def selfReturning : List Stmt :=
  let f : Token := ⟨.identifier, "f", 1⟩
  let closing : Token := ⟨.mark .rightParen, ")", 1⟩
  let keyword : Token := ⟨.keyword .return, "return", 1⟩
  [.block [.function ⟨f, [], [.return keyword (some (.variable 0 f))]⟩,
    .expression (.call (.variable 1 f) closing [])]]

open Classical in
/-- A watch that stops where the scopes do not mirror those of the walk never stops these. -/
theorem depth_mirrors_scopes_selfReturning :
    let s := ((Session.initial .unlimited).resolve selfReturning).2
    let w : Watch := fun ν m => if ν.Mirrored [selfReturning] m then none else some .outOfFuel
    s.interpretWatched w (fun _ => 0) 9 selfReturning =
        s.interpret (fun _ => 0) 9 selfReturning ∧
      (∀ (ν : Node) (n : NodeId) (r r' : Resolver), n ∈ ν.nodes →
        Visits [selfReturning] (ν.call r) → Visits [selfReturning] (ν.call r') → r = r') ∧
      ∀ line k x, (s.interpret (fun _ => 0) 9 selfReturning).1 ≠
        .error (.runtime ⟨line, .noScope k x⟩) :=
  depth_mirrors_scopes (.resolve selfReturning (.initial .unlimited) (by decide)) (fun _ => 0) 9
    List.mem_cons_self fun _ _ h => if_pos h

end Prepared
end Session
end Treewalk
