import Treewalk.Proofs.Session.Splitting
/-!
# Rejected sources

A source with an error that shows without running it leaves no trace in a session: what later sources
print and how they end is what it would have been without that one (`Reached.run_rejected`).

It does leave distances behind, and later references get other identities. But the distances are of
identities that no other reference has, so the two sessions are the same but for the identities of
references (`Session.Renames`), and they stay so whatever is run (`Renames.run`).
-/

namespace Treewalk

/-! ### Recording renamed references -/

theorem Distances.record_rename {f : NodeId → NodeId} (hf : Function.Injective f)
    {d d' : Distances} (h : ∀ n, d'[f n]? = d[n]?) (l : List Reference) (n : NodeId) :
    (d'.record (l.map (Reference.rename (.identities f))))[f n]? = (d.record l)[n]? := by
  induction l generalizing d d' with
  | nil => exact h n
  | cons ref rest ih =>
    obtain ⟨node, name, distance⟩ := ref
    rw [List.map_cons, record_cons, record_cons]
    refine ih fun n => ?_
    cases distance with
    | none => exact h n
    | some k =>
      show (d'.insert (f node) k)[f n]? = (d.insert node k)[n]?
      rw [Std.TreeMap.getElem?_insert, Std.TreeMap.getElem?_insert]
      have hnode : compare (f node) (f n) = .eq ↔ compare node n = .eq := by
        rw [Nat.compare_eq_eq, Nat.compare_eq_eq, hf.eq_iff]
      simp only [hnode, h n]

namespace Session

/-! ### What a source is rejected for -/

/-- The errors of a source that show without running it: the lexical and behind them the syntax
errors, or if there are none what resolving it finds. -/
def rejections (source : String) : List Diagnostic :=
  let r := Source.read source 0
  if r.errors.isEmpty then (Treewalk.resolve r.statements).errors.map .static else r.errors

/-- The session when a source has been read, and resolved if it could be. -/
def received (s : Session) (source : String) : Session :=
  let r := Source.read source s.next
  { s with
    next := r.next
    distances :=
      if r.errors.isEmpty then s.distances.record (Treewalk.resolve r.statements).references
      else s.distances }

theorem rejections_eq_nil {source : String} : rejections source = [] ↔ Acceptable source := by
  unfold rejections Acceptable
  dsimp only
  split
  · next hread => simp only [List.isEmpty_iff.1 hread, List.map_eq_nil_iff, true_and]
  · next hread => exact (and_iff_left_of_imp fun hnil => absurd (List.isEmpty_iff.2 hnil) hread).symm

theorem accept_eq_rejections (s : Session) (source : String) : s.accept source =
    (if rejections source = [] then .ok (Source.read source s.next).statements
      else .error (rejections source), s.received source) := by
  have hstatic (errors : List StaticError) :
      errors.map (StaticError.rename (.shift s.next 0)) = errors := List.map_id _
  rw [accept_eq, received, rejections, Source.read_eq_shift source s.next]
  dsimp only
  rw [resolve_rename, hstatic]
  split
  · simp only [List.isEmpty_iff, List.map_eq_nil_iff]
  · next hread => rw [if_neg (by simpa using hread)]

theorem run_of_rejections {source : String} (h : rejections source ≠ []) (s : Session)
    (clock : Nat → Float) (fuel : Nat) :
    s.run clock fuel source = (.rejected (rejections source), s.received source) := by
  rw [run, accept_eq_rejections, if_neg h]

theorem run_of_no_rejections {source : String} (h : rejections source = []) (s : Session)
    (clock : Nat → Float) (fuel : Nat) : s.run clock fuel source =
      let (result, s') :=
        (s.received source).interpret clock fuel (Source.read source s.next).statements
      (.ofResult result, s') := by
  rw [run, accept_eq_rejections, if_pos h]

/-! ### Sessions that differ in identities -/

/-- Renamed statements do on a renamed machine what the statements did. -/
theorem interpret_rename {f : NodeId → NodeId} {s s' : Session}
    (hdistances : ∀ n, s'.distances[f n]? = s.distances[n]?)
    (hmachine : s'.machine = s.machine.rename (.identities f)) (clock : Nat → Float) (fuel : Nat)
    (p : List Stmt) :
    (s'.interpret clock fuel (p.map (Stmt.rename (.identities f)))).1 =
        (s.interpret clock fuel p).1 ∧
      (s'.interpret clock fuel (p.map (Stmt.rename (.identities f)))).2.machine =
        (s.interpret clock fuel p).2.machine.rename (.identities f) := by
  have hclock : (Setting.mk s'.distances clock).clock = (Setting.mk s.distances clock).clock := rfl
  have hrun : Eval.Renames (.identities f) _ _ id s.machine (Eval.program fuel p)
      (Eval.program fuel (p.map (Stmt.rename (.identities f)))) :=
    Eval.renames_program hclock hdistances fuel p
  unfold Eval.Renames at hrun
  rw [← hmachine] at hrun
  unfold interpret
  rw [perform_run, perform_run, hrun]
  cases Eval.program fuel p ⟨s.distances, clock⟩ s.machine with
  | ok a m => exact ⟨rfl, rfl⟩
  | error e m => exact ⟨congrArg Except.error (e.rename_identities f), rfl⟩

/-- The second session is the first with other identities of references, of which it goes on to count
the new ones as the first does. -/
structure Renames (f : NodeId → NodeId) (s s' : Session) : Prop where
  injective : Function.Injective f
  next : ∀ n, f (n + s.next) = n + s'.next
  distances : ∀ n, s'.distances[f n]? = s.distances[n]?
  machine : s'.machine = s.machine.rename (.identities f)

namespace Renames

variable {f : NodeId → NodeId} {s s' : Session}

theorem statements (h : s.Renames f s') (source : String) :
    (Source.read source s'.next).statements =
      (Source.read source s.next).statements.map (Stmt.rename (.identities f)) := by
  have hshift : (Renaming.shift s.next 0).comp (.identities f) = .shift s'.next 0 :=
    congrArg (Renaming.mk · _) (funext h.next)
  rw [Source.read_eq_shift source s.next, Source.read_eq_shift source s'.next, List.map_map]
  refine List.map_congr_left fun x _ => ?_
  rw [Function.comp_apply, Stmt.rename_rename, hshift]

theorem received (h : s.Renames f s') (source : String) :
    (s.received source).Renames f (s'.received source) where
  injective := h.injective
  next n := by
    show f (n + (Source.read source s.next).next) = n + (Source.read source s'.next).next
    rw [Source.read_eq_shift source s.next, Source.read_eq_shift source s'.next]
    dsimp only
    rw [← Nat.add_assoc, ← Nat.add_assoc, h.next]
  distances n := by
    have hrecord := Distances.record_rename h.injective h.distances
      (Treewalk.resolve (Source.read source s.next).statements).references n
    have herrors : (Source.read source s'.next).errors = (Source.read source s.next).errors := by
      rw [Source.read_eq_shift source s.next, Source.read_eq_shift source s'.next]
    unfold Session.received
    dsimp only
    rw [h.statements, resolve_rename, herrors]
    split
    · exact hrecord
    · exact h.distances n
  machine := h.machine

theorem interpret (h : s.Renames f s') (clock : Nat → Float) (fuel : Nat) (p : List Stmt) :
    (s'.interpret clock fuel (p.map (Stmt.rename (.identities f)))).1 =
        (s.interpret clock fuel p).1 ∧
      (s.interpret clock fuel p).2.Renames f
        (s'.interpret clock fuel (p.map (Stmt.rename (.identities f)))).2 := by
  obtain ⟨hresult, hmachine⟩ := interpret_rename h.distances h.machine clock fuel p
  rw [interpret_snd, interpret_snd] at hmachine ⊢
  exact ⟨hresult, h.injective, h.next, h.distances, hmachine⟩

/-- A run ends in both sessions in the same way, and they still differ in nothing else. -/
theorem run (h : s.Renames f s') (clock : Nat → Float) (fuel : Nat) (source : String) :
    (s'.run clock fuel source).1 = (s.run clock fuel source).1 ∧
      (s.run clock fuel source).2.Renames f (s'.run clock fuel source).2 := by
  have hreceived := h.received source
  by_cases hrejected : rejections source = []
  · rw [run_of_no_rejections hrejected, run_of_no_rejections hrejected, h.statements]
    obtain ⟨hresult, hafter⟩ := hreceived.interpret clock fuel (Source.read source s.next).statements
    exact ⟨congrArg Outcome.ofResult hresult, hafter⟩
  · rw [run_of_rejections hrejected, run_of_rejections hrejected]
    exact ⟨rfl, hreceived⟩

end Renames

/-! ### Sources one after the other -/

/-- A source to be run, what the clock shows while it runs, and the fuel for it. -/
structure Run where
  source : String
  clock : Nat → Float
  fuel : Nat

/-- How each of the runs ends, and what has been printed by then. -/
def transcript : Session → List Run → List (Outcome × Sink)
  | _, [] => []
  | s, r :: rest =>
    let (outcome, s) := s.run r.clock r.fuel r.source
    (outcome, s.machine.out) :: s.transcript rest

theorem Renames.transcript {f : NodeId → NodeId} {s s' : Session} (h : s.Renames f s')
    (runs : List Run) : s'.transcript runs = s.transcript runs := by
  induction runs generalizing s s' with
  | nil => rfl
  | cons r rest ih =>
    obtain ⟨houtcome, hafter⟩ := h.run r.clock r.fuel r.source
    have hout : (s'.run r.clock r.fuel r.source).2.machine.out =
        (s.run r.clock r.fuel r.source).2.machine.out := by rw [hafter.machine]; rfl
    rw [Session.transcript, Session.transcript]
    exact congrArg₂ List.cons (Prod.ext houtcome hout) (ih hafter)

/-! ### What a rejected source leaves behind -/

/-- Identities below the bound stay as they are. The others move up. -/
def skip (bound count n : Nat) : Nat :=
  if n < bound then n else n + count

theorem skip_injective (bound count : Nat) : Function.Injective (skip bound count) := by
  intro n k h
  unfold skip at h
  split at h <;> split at h <;> omega

/-- No identity that the session has used is moved, and none becomes one of these. -/
def Keeps (s : Session) (f : NodeId → NodeId) : Prop :=
  (∀ n < s.next, f n = n) ∧ ∀ n, s.next ≤ n → s.next ≤ f n

theorem keeps_skip (s : Session) (count : Nat) : s.Keeps (skip s.next count) := by
  refine ⟨fun n hn => if_pos hn, fun n hn => ?_⟩
  rw [skip, if_neg (Nat.not_lt.2 hn)]
  exact Nat.le_add_right_of_le hn

variable {programs : List (List Stmt)} {s : Session} {f : NodeId → NodeId}

theorem Keeps.earlier {s' : Session} (h : s'.Keeps f) (hle : s.next ≤ s'.next) : s.Keeps f := by
  refine ⟨fun n hn => h.1 n (Nat.lt_of_lt_of_le hn hle), fun n hn => ?_⟩
  by_cases hlt : n < s'.next
  · rwa [h.1 n hlt]
  · exact Nat.le_trans hle (h.2 n (Nat.not_lt.1 hlt))

theorem Checked.distances_keeps (h : s.Checked programs) (hf : s.Keeps f) (n : NodeId) :
    s.distances[f n]? = s.distances[n]? := by
  by_cases hlt : n < s.next
  · rw [hf.1 n hlt]
  · have hnone {k : NodeId} (hk : s.next ≤ k) : s.distances[k]? = none := by
      by_contra hne
      exact absurd (h.known k hne) (Nat.not_lt.2 hk)
    rw [hnone (Nat.not_lt.1 hlt), hnone (hf.2 n (Nat.not_lt.1 hlt))]

/-- The functions that a session has made have identities that it has used. -/
theorem Reached.machine_rename (h : s.Reached programs) (hf : s.Keeps f) :
    s.machine.rename (.identities f) = s.machine := by
  induction h with
  | initial out => simp [Session.initial, Machine.initial, Machine.rename, Heap.rename, Heap.initial]
  | @run programs s clock fuel source hs ih =>
    obtain ⟨hle, hread⟩ := Source.read_sound source s.next
    have hreceived := hs.checked.accept source
    rw [accept_eq_rejections] at hreceived
    by_cases hrejected : rejections source = []
    · rw [run_of_no_rejections hrejected] at hf ⊢
      dsimp only at hf ⊢
      have hkeeps : (s.received source).Keeps f := by rwa [interpret_snd] at hf
      have hmachine : s.machine = s.machine.rename (.identities f) :=
        (ih (hkeeps.earlier hle)).symm
      have hstatements : (Source.read source s.next).statements.map (Stmt.rename (.identities f)) =
          (Source.read source s.next).statements := by
        obtain ⟨hnone, -⟩ := (acceptable_iff s.next).1 (rejections_eq_nil.1 hrejected)
        rw [← Stmt.renameAll_eq]
        exact Stmt.renameAll_identities _ fun n hn => hkeeps.1 n ((hread hnone).2.within n hn).2
      have hrename := (interpret_rename (hreceived.distances_keeps hkeeps) hmachine clock fuel
        (Source.read source s.next).statements).2
      rw [hstatements] at hrename
      exact hrename.symm
    · rw [run_of_rejections hrejected] at hf ⊢
      exact ih (hf.earlier hle)

/-- The distances that are in use stay as they are. -/
theorem distances_received (s : Session) (source : String) {n : NodeId} (hn : n < s.next) :
    (s.received source).distances[n]? = s.distances[n]? := by
  unfold received
  dsimp only
  split
  · next hread =>
    obtain ⟨-, hfresh⟩ := (Source.read_sound source s.next).2 (List.isEmpty_iff.1 hread)
    refine Distances.record_of_notMem fun hmem => ?_
    exact absurd (hfresh.within n ((resolve_nodes _).subset hmem)).1 (Nat.not_le.2 hn)
  · rfl

/-- A session is the same when it has read and resolved a source, but for the identities of later
references. -/
theorem Reached.renames_received (h : s.Reached programs) (source : String) :
    s.Renames (skip s.next (Source.read source 0).next) (s.received source) where
  injective := skip_injective _ _
  next n := by
    show _ = n + (Source.read source s.next).next
    rw [Source.read_eq_shift source s.next, skip, if_neg (Nat.not_lt.2 (Nat.le_add_left _ _)),
      Nat.add_assoc, Nat.add_comm s.next]
  distances n := by
    have hchecked := h.checked.accept source
    rw [accept_eq_rejections] at hchecked
    by_cases hn : n < s.next
    · rw [skip, if_pos hn, distances_received s source hn]
    · have hnone : s.distances[n]? = none := by
        by_contra hne
        exact hn (h.checked.known n hne)
      rw [hnone, skip, if_neg hn]
      by_contra hne
      have hlt : _ < (Source.read source s.next).next := hchecked.known _ hne
      rw [Source.read_eq_shift source s.next] at hlt
      dsimp only at hlt
      rw [Nat.add_comm n] at hlt
      exact hn (Nat.lt_of_add_lt_add_left hlt)
  machine := (h.machine_rename (s.keeps_skip _)).symm

/-- A source that is rejected is not run: its errors are all there is to see of it. Whatever is run
afterwards ends as if it had never been there and prints the same. -/
theorem Reached.run_rejected (h : s.Reached programs) {source : String}
    (hrejected : rejections source ≠ []) (clock : Nat → Float) (fuel : Nat) :
    let after := s.run clock fuel source
    after.1 = .rejected (rejections source) ∧ after.1.exitCode = 65 ∧
      after.1.errorText = String.join ((rejections source).map fun d => d.text ++ "\n") ∧
      after.2.machine = s.machine ∧ ∀ later, after.2.transcript later = s.transcript later := by
  rw [run_of_rejections hrejected]
  exact ⟨rfl, rfl, rfl, rfl, (h.renames_received source).transcript⟩

/-- Behind a function that may still be called, a source is rejected that leaves a distance. -/
theorem Reached.run_rejected_redeclared :
    let s := ((Session.initial .unlimited).run (fun _ => 0) 9 "fun f(x) \x7b return x; \x7d").2
    let source := "\x7b var a; \x7b print a; \x7d var a; \x7d"
    let after := s.run (fun _ => 0) 9 source
    after.2.distances[s.next]? = some 1 ∧
      after.1 = .rejected (rejections source) ∧ after.1.exitCode = 65 ∧
      after.1.errorText = String.join ((rejections source).map fun d => d.text ++ "\n") ∧
      after.2.machine = s.machine ∧ ∀ later, after.2.transcript later = s.transcript later := by
  refine ⟨by decide +kernel, ?_⟩
  refine Reached.run_rejected (.run (fun _ => 0) 9 _ (.initial .unlimited)) ?_ (fun _ => 0) 9
  decide +kernel

end Session

end Treewalk
