import Treewalk.Proofs.Session.Prepared
import Treewalk.Proofs.Tree.Scanned
/-!
# Sessions of sources

However many sources a session has run, of which some may have been rejected and others may have
stopped at an error: every reference with a distance finds its name in the scope that far up, except
an assignment in the initializer of the very variable that it assigns to, and `this` and `super` are
always there (`Reached.references_found`).
-/

namespace Treewalk

namespace Node

/-- If the node is a reference with a distance, its name is found there, unless the reference assigns
to a variable in the variable's own initializer, where it is not. Moreover `this` has a distance and
is an instance, and `super` has one and is a class, with such an instance in the scope below. -/
def Found (programs : List (List Stmt)) (d : Distances) (ν : Node) (m : Machine) : Prop :=
  match ν with
  | .expr (.variable node name) =>
    ∀ k, d[node]? = some k → ∃ v, m.heap.scopes.getAt m.cursor k name.lexeme = .ok v
  | .expr (.assign node name value) =>
    ∀ k, d[node]? = some k → ((∃ j, m.heap.scopes.findAt m.cursor k name.lexeme = .ok j) ↔
      ¬ (Expr.assign node name value).InOwnInitializer programs)
  | .expr (.this node keyword) =>
    ∃ k i, d[node]? = some k ∧ m.heap.scopes.getAt m.cursor k keyword.lexeme = .ok (.instance i)
  | .expr (.super node keyword _) =>
    ∃ k c i, d[node]? = some (k + 1) ∧
      m.heap.scopes.getAt m.cursor (k + 1) keyword.lexeme = .ok (.class c) ∧
      m.heap.scopes.getAt m.cursor k "this" = .ok (.instance i)
  | _ => True

theorem found_of_atNode {programs : List (List Stmt)} {d : Distances} {ν : Node} {m : Machine}
    (hd : d.Suits programs True) (hn : (programs.flatMap Stmt.nodesOfAll).Nodup)
    (h : Eval.AtNode programs True ν m) : ν.Found programs d m := by
  match ν with
  | .expr (.variable node name) =>
    obtain ⟨r, hv, -, hr⟩ := h
    exact fun k hk => variable_found hd hv hr hk
  | .expr (.assign node name value) =>
    obtain ⟨r, hv, -, hr⟩ := h
    intro k hk
    rw [assign_found_iff hd hv (hr.control nofun) hk]
    refine not_congr ⟨fun h => ⟨_, _, _, r, rfl, hv, h⟩, ?_⟩
    rintro ⟨_, _, _, r', he, hv', hfalse⟩
    obtain ⟨rfl, rfl, rfl⟩ := Expr.assign.inj he
    obtain rfl := (Call.expr.inj
      (hv.unique_own hn hv' List.mem_cons_self List.mem_cons_self)).2
    exact hfalse
  | .expr (.this node keyword) =>
    obtain ⟨r, hv, hs, hr⟩ := h
    exact this_found hd hs hv (hr.control nofun)
  | .expr (.super node keyword method) =>
    obtain ⟨r, hv, hs, hr⟩ := h
    exact super_found hd hs hv (hr.control nofun)
  | .expr (.literal _) | .expr (.grouping _) | .expr (.unary _ _) | .expr (.binary _ _ _)
  | .expr (.logical _ _ _) | .expr (.call _ _ _) | .expr (.get _ _) | .expr (.set _ _ _)
  | .stmt _ => trivial

end Node

namespace Session

/-- The statements of a source, if it is not rejected. -/
def accepted (s : Session) (source : String) : List (List Stmt) :=
  (s.accept source).1.toOption.toList

/-- The session has run any number of sources. Those that were not rejected are the programs, latest
first. -/
inductive Reached : List (List Stmt) → Session → Prop where
  | initial (out : Sink) : Reached [] (.initial out)
  | run {programs : List (List Stmt)} {s : Session} (clock : Nat → Float) (fuel : Nat)
    (source : String) : Reached programs s →
    Reached (s.accepted source ++ programs) (s.run clock fuel source).2

/-- Runs a source under a watch. -/
def runWatched (w : Watch) (s : Session) (clock : Nat → Float) (fuel : Nat) (source : String) :
    Outcome × Session :=
  match s.accept source with
  | (.ok statements, s) =>
    let (result, s) := s.interpretWatched w clock fuel statements
    (.ofResult result, s)
  | (.error errors, s) => (.rejected errors, s)

/-- What holds of a session of accepted programs, whose identities are all behind it. -/
structure Checked (programs : List (List Stmt)) (s : Session) : Prop where
  sound : s.Sound programs True
  nodup : (programs.flatMap Stmt.nodesOfAll).Nodup
  below : ∀ n ∈ programs.flatMap Stmt.nodesOfAll, n < s.next
  known : ∀ n : NodeId, s.distances[n]? ≠ none → n < s.next

variable {programs : List (List Stmt)} {s : Session}

/-- A source whose identities are new changes no distance that is in use. -/
theorem Checked.reject (h : s.Checked programs) {next : NodeId} (hn : s.next ≤ next)
    {l : List Reference} (hr : ∀ n ∈ l.map (·.node), s.next ≤ n ∧ n < next) :
    Checked programs { s with next := next, distances := s.distances.record l } where
  sound := by
    refine ⟨h.sound.heap, h.sound.cursor, ?_, h.sound.suits.accepted⟩
    refine Distances.Agrees.congr h.sound.suits.agrees fun n hnode =>
      Distances.record_of_notMem fun hmem => ?_
    exact absurd (h.below n hnode) (Nat.not_lt.2 (hr n hmem).1)
  nodup := h.nodup
  below n hnode := Nat.lt_of_lt_of_le (h.below n hnode) hn
  known n hnode := by
    by_cases hmem : n ∈ l.map (·.node)
    · exact (hr n hmem).2
    · rw [Distances.record_of_notMem hmem] at hnode
      exact Nat.lt_of_lt_of_le (h.known n hnode) hn

/-- An accepted program with identities of its own joins the programs. -/
theorem Checked.resolve (h : s.Checked programs) {next : NodeId} {p : List Stmt}
    (hp : Fresh s.next next (Stmt.nodesOfAll p)) (ha : Accepted p) :
    Checked (p :: programs)
      { s with next := next, distances := s.distances.record (Treewalk.resolve p).references } := by
  have hnodup : ((p :: programs).flatMap Stmt.nodesOfAll).Nodup := by
    rw [List.flatMap_cons, List.nodup_append]
    refine ⟨hp.nodup, h.nodup, ?_⟩
    rintro n hn _ hn' rfl
    exact absurd (h.below n hn') (Nat.not_lt.2 (hp.within n hn).1)
  refine ⟨⟨h.sound.heap.mono (List.subset_cons_self p programs), h.sound.cursor, ?_, ?_⟩, hnodup,
    fun n hn => ?_, fun n hn => ?_⟩
  · refine Distances.Agrees.record h.sound.suits.agrees hnodup fun n hn => ?_
    by_contra hne
    exact absurd (h.known n hne) (Nat.not_lt.2 (hp.within n hn).1)
  · intro _ q hq
    rcases List.mem_cons.1 hq with rfl | hq
    · exact ha
    · exact h.sound.suits.accepted trivial q hq
  · rw [List.flatMap_cons, List.mem_append] at hn
    rcases hn with hn | hn
    · exact (hp.within n hn).2
    · exact Nat.lt_of_lt_of_le (h.below n hn) hp.le
  · by_cases hmem : n ∈ (Treewalk.resolve p).references.map (·.node)
    · exact (hp.within n ((resolve_nodes p).subset hmem)).2
    · rw [Distances.record_of_notMem hmem] at hn
      exact Nat.lt_of_lt_of_le (h.known n hn) hp.le

theorem Checked.interpret (h : s.Checked programs) (clock : Nat → Float) (fuel : Nat)
    {p : List Stmt} (hp : p ∈ programs) : (s.interpret clock fuel p).2.Checked programs := by
  have hsound := (h.sound.interpret clock fuel hp (w := fun _ _ => none) fun _ _ _ => rfl).2.1
  rw [interpret_snd] at hsound ⊢
  exact ⟨hsound, h.nodup, h.below, h.known⟩

theorem accept_eq (s : Session) (source : String) : s.accept source =
    let r := Source.read source s.next
    if r.errors.isEmpty then
      (if (Treewalk.resolve r.statements).errors.isEmpty then .ok r.statements
        else .error ((Treewalk.resolve r.statements).errors.map .static),
        { s with next := r.next
                 distances := s.distances.record (Treewalk.resolve r.statements).references })
    else (.error r.errors, { s with next := r.next }) := by
  obtain ⟨machine, distances, next⟩ := s
  unfold accept read resolve
  dsimp only
  split
  · split <;> rfl
  · rfl

/-- A source that is read and resolved has not been run. -/
theorem machine_accept (s : Session) (source : String) :
    (s.accept source).2.machine = s.machine := by
  rw [accept_eq]
  dsimp only
  split <;> rfl

theorem Checked.accept (h : s.Checked programs) (source : String) :
    (s.accept source).2.Checked (s.accepted source ++ programs) := by
  obtain ⟨hnext, hread⟩ := Source.read_sound source s.next
  unfold accepted
  rw [accept_eq]
  dsimp only
  split
  · next hempty =>
    obtain ⟨hformed, hfresh⟩ := hread (List.isEmpty_iff.1 hempty)
    have hnodes := (resolve_nodes (Source.read source s.next).statements).subset
    split
    · next hresolved => exact h.resolve hfresh ⟨hformed, List.isEmpty_iff.1 hresolved⟩
    · exact h.reject hnext fun n hn => hfresh.within n (hnodes hn)
  · exact h.reject (l := []) hnext (by simp)

/-- Of the programs of a session each reference has the distance that the walk found. -/
theorem Reached.checked (h : s.Reached programs) : s.Checked programs := by
  induction h with
  | initial out =>
    refine ⟨⟨.initial [] True, rfl, Distances.agrees_nil ∅, by simp⟩, List.nodup_nil, by simp, ?_⟩
    intro n hn
    exact absurd Std.TreeMap.getElem?_emptyc hn
  | @run programs s clock fuel source _ ih =>
    have hs := ih.accept source
    unfold accepted at hs ⊢
    unfold Session.run
    generalize s.accept source = a at hs ⊢
    obtain ⟨_ | p, s'⟩ := a
    · exact hs
    · exact hs.interpret clock fuel List.mem_cons_self

/-- A run does not stop at what is not tolerable. -/
theorem Checked.tolerable (h : s.Checked programs) (clock : Nat → Float) (fuel : Nat)
    (source : String) {e : RuntimeError}
    (hfailed : (s.run clock fuel source).1 = .failed (.runtime e)) : e.fault.Tolerable True := by
  have hs := h.accept source
  unfold accepted at hs
  unfold Session.run at hfailed
  generalize s.accept source = a at hs hfailed
  obtain ⟨_ | p, s'⟩ := a
  · cases hfailed
  obtain ⟨-, -, htolerable⟩ := hs.sound.interpret clock fuel List.mem_cons_self
    (w := fun _ _ => none) fun _ _ _ => rfl
  dsimp only at hfailed
  generalize s'.interpret clock fuel p = result at hfailed htolerable
  obtain ⟨stop | _, _⟩ := result
  · cases stop <;> cases hfailed
    exact htolerable _ rfl
  · cases hfailed

/-- While a session runs a source, every reference that has a distance finds its name, but for
assignments in the initializers of their own variables, and `this` and `super` are always found. So
no error ever is about a scope or `this` or `super` that is missing, or about an operator that is
none. -/
theorem Reached.references_found (h : s.Reached programs) (clock : Nat → Float) (fuel : Nat)
    (source : String) {w : Watch}
    (hw : ∀ ν m, ν.Found (s.accepted source ++ programs) (s.accept source).2.distances m →
      w ν m = none) :
    s.runWatched w clock fuel source = s.run clock fuel source ∧
      ∀ line fault, (s.run clock fuel source).1 = .failed (.runtime ⟨line, fault⟩) →
        fault ≠ .superOutsideClass ∧ fault ≠ .undefinedVariable "this" ∧
          ∀ x k, fault ≠ .unaryOperator x ∧ fault ≠ .binaryOperator x ∧ fault ≠ .noScope k x := by
  have hs := h.checked.accept source
  refine ⟨?_, fun line fault hfailed => ?_⟩
  · unfold accepted at hs hw
    unfold runWatched Session.run
    generalize s.accept source = a at hs hw ⊢
    obtain ⟨_ | p, s'⟩ := a
    · rfl
    obtain ⟨hsame, -⟩ := hs.sound.interpret clock fuel List.mem_cons_self
      fun ν m hat => hw ν m (Node.found_of_atNode hs.sound.suits hs.nodup hat)
    dsimp only
    rw [hsame]
  have hfault : fault.Tolerable True := h.checked.tolerable clock fuel source hfailed
  refine ⟨?_, ?_, fun x k => ⟨?_, ?_, ?_⟩⟩ <;> rintro rfl <;> simp [RuntimeFault.Tolerable] at hfault

open Classical in
/-- A watch that stops wherever a name is missing never stops the second of these sources. A function
assigns there to the local variable around it and leaves the global one of that name as it is. In the
end a name is missing that has no distance. -/
theorem Reached.references_found_shadowed :
    let s := ((Session.initial .unlimited).run (fun _ => 0) 9 "var x = 0;").2
    let source := "\x7b var x = 1; fun f() \x7b x = x + 1; \x7d f(); print x; \x7d print x; print y;"
    let ended := s.run (fun _ => 0) 9 source
    let programs := s.accepted source ++ ((Session.initial .unlimited).accepted "var x = 0;" ++ [])
    let w : Watch := fun ν m =>
      if ν.Found programs (s.accept source).2.distances m then none else some .outOfFuel
    (s.runWatched w (fun _ => 0) 9 source = ended ∧
      ∀ line fault, ended.1 = .failed (.runtime ⟨line, fault⟩) →
        fault ≠ .superOutsideClass ∧ fault ≠ .undefinedVariable "this" ∧
          ∀ x k, fault ≠ .unaryOperator x ∧ fault ≠ .binaryOperator x ∧ fault ≠ .noScope k x) ∧
      ended.1 = .failed (.runtime ⟨1, .undefinedVariable "y"⟩) ∧ ended.2.drain.1 = "2\n0\n" := by
  refine ⟨?_, by decide +kernel⟩
  exact Reached.references_found (.run (fun _ => 0) 9 _ (.initial .unlimited)) (fun _ => 0) 9 _
    fun _ _ found => if_pos found

end Session
end Treewalk
