import Treewalk.Proofs.Token.Lines
import Treewalk.Session
import Treewalk.Proofs.Tree.Progress
/-!
# The order of diagnostics

Errors that are reported about the next token come in the order of the tokens. The one exception is the
report about the target of an assignment: it is made behind those about the value, which are about later
tokens. So the reports of a trace nest as the assignments do (`Reading.Trace.reported`), and what a
source reports is in order but for that (`Source.read_errors`).
-/

namespace Treewalk

/-- A syntax error with the position of the token that it is about. -/
structure Located where
  position : Nat
  error : SyntaxError

namespace Located

/-- What is reported, first to last, while reading leads from the position `a` to `b`. -/
inductive Reported : (a b : Nat) → List Located → Prop where
  | nil {a b : Nat} : a ≤ b → Reported a b []
  | append {a k b : Nat} {found found' : List Located} : Reported a k found → Reported k b found' →
    Reported a b (found ++ found')
  | next {a : Nat} (e : SyntaxError) : Reported a a [⟨a, e⟩]
  | target {a b : Nat} {found : List Located} (t : Token) : Reported (a + 1) b found →
    Reported a b (found ++ [⟨a, ⟨t, .assignmentTarget⟩⟩])

/-- The errors come in order, except that an error about the target of an assignment stands behind those
in the value that is assigned: what is in front of an error is about tokens up to its own, and then, if
it is about a target, about tokens behind its own. -/
def InTurn (found : List Located) : Prop :=
  ∀ front f back, found = front ++ f :: back → ∃ before inside, front = before ++ inside ∧
    (∀ g ∈ before, g.position ≤ f.position) ∧ (∀ g ∈ inside, f.position < g.position) ∧
    (inside ≠ [] → f.error.fault = .assignmentTarget)

theorem Reported.le {a b : Nat} {found : List Located} (h : Reported a b found) : a ≤ b := by
  induction h with
  | nil hle => exact hle
  | append _ _ ih ih' => exact ih.trans ih'
  | next e => exact Nat.le_refl _
  | target t _ ih => exact Nat.le_of_succ_le ih

theorem Reported.within {a b : Nat} {found : List Located} (h : Reported a b found) :
    ∀ f ∈ found, a ≤ f.position ∧ f.position ≤ b := by
  induction h with
  | nil _ => exact List.forall_mem_nil _
  | append h h' ih ih' =>
    intro f hf
    rcases List.mem_append.1 hf with hf | hf
    · exact ⟨(ih f hf).1, (ih f hf).2.trans h'.le⟩
    · exact ⟨h.le.trans (ih' f hf).1, (ih' f hf).2⟩
  | next e =>
    intro f hf
    obtain rfl := List.mem_singleton.1 hf
    exact ⟨Nat.le_refl _, Nat.le_refl _⟩
  | target t h ih =>
    intro f hf
    rcases List.mem_append.1 hf with hf | hf
    · exact ⟨Nat.le_of_succ_le (ih f hf).1, (ih f hf).2⟩
    · obtain rfl := List.mem_singleton.1 hf
      exact ⟨Nat.le_refl _, Nat.le_of_succ_le h.le⟩

/-- An element of two lists behind one another is in the second, or else in the first. -/
theorem split_append {found found' front back : List Located} {f : Located}
    (h : found ++ found' = front ++ f :: back) :
    (∃ front', front = found ++ front' ∧ found' = front' ++ f :: back) ∨
      ∃ back', found = front ++ f :: back' := by
  rcases List.append_eq_append_iff.1 h with ⟨front', hfront, hback⟩ | ⟨rest, hfound, hrest⟩
  · exact .inl ⟨front', hfront, hback⟩
  · cases rest with
    | nil => exact .inl ⟨[], by simpa using hfound.symm, hrest.symm⟩
    | cons f' rest =>
      obtain ⟨rfl, -⟩ := List.cons.inj hrest
      exact .inr ⟨rest, hfound⟩

theorem InTurn.append {found found' : List Located} (h : InTurn found) (h' : InTurn found')
    (hle : ∀ g ∈ found, ∀ f ∈ found', g.position ≤ f.position) : InTurn (found ++ found') := by
  intro front f back hsplit
  rcases split_append hsplit with ⟨front', rfl, hback⟩ | ⟨back', hfound⟩
  · obtain ⟨before, inside, rfl, hbefore, hinside⟩ := h' front' f back hback
    have hf : f ∈ found' := hback ▸ List.mem_append_right _ List.mem_cons_self
    refine ⟨found ++ before, inside, (List.append_assoc ..).symm, fun g hg => ?_, hinside⟩
    rcases List.mem_append.1 hg with hg | hg
    · exact hle g hg f hf
    · exact hbefore g hg
  · exact h front f back' hfound

/-- An error about a target may stand behind any about later tokens. -/
theorem InTurn.target {found : List Located} {f : Located} (h : InTurn found)
    (hf : f.error.fault = .assignmentTarget) (hlt : ∀ g ∈ found, f.position < g.position) :
    InTurn (found ++ [f]) := by
  intro front f' back hsplit
  rcases split_append hsplit with ⟨front', rfl, hback⟩ | ⟨back', hfound⟩
  · obtain ⟨rfl, hcons⟩ | ⟨-, hnil⟩ := List.singleton_eq_append_iff.1 hback
    · obtain ⟨rfl, -⟩ := List.cons.inj hcons
      exact ⟨[], found, List.append_nil _, List.forall_mem_nil _, hlt, fun _ => hf⟩
    · cases hnil
  · exact h front f' back' hfound

theorem Reported.inTurn {a b : Nat} {found : List Located} (h : Reported a b found) :
    InTurn found := by
  have hnil : InTurn [] := fun front f back hsplit => by simp at hsplit
  induction h with
  | nil _ => exact hnil
  | append h h' ih ih' =>
    exact ih.append ih' fun g hg f hf => (h.within g hg).2.trans (h'.within f hf).1
  | next e =>
    intro front f back hsplit
    obtain ⟨rfl, -⟩ | ⟨-, hback⟩ := List.singleton_eq_append_iff.1 hsplit
    · exact ⟨[], [], rfl, List.forall_mem_nil _, List.forall_mem_nil _, absurd rfl⟩
    · cases hback
  | target t h ih => exact ih.target rfl fun g hg => (h.within g hg).1

/-- Where no error about a target has errors in the value that is assigned, the errors are in the order
of the tokens. -/
theorem InTurn.pairwise {found : List Located} (h : InTurn found)
    (hvalues : ∀ front f back, found = front ++ f :: back → f.error.fault = .assignmentTarget →
      ∀ g ∈ front, g.position ≤ f.position) : found.Pairwise (·.position ≤ ·.position) := by
  refine List.pairwise_iff_getElem.2 fun i j hi hj hij => ?_
  have hsplit : found = found.take j ++ found[j] :: found.drop (j + 1) := by simp
  have hmem : found[i] ∈ found.take j := List.mem_take_iff_getElem.2 ⟨i, by omega, rfl⟩
  obtain ⟨before, inside, hfront, hbefore, -, htarget⟩ := h _ _ _ hsplit
  by_cases hinside : inside = []
  · rw [hinside, List.append_nil] at hfront
    exact hbefore _ (hfront ▸ hmem)
  · exact hvalues _ _ _ hsplit (htarget hinside) _ hmem

end Located

namespace Reading.Trace

open Located

variable {v v' : List Token} {s s' : Reading}

/-- What is reported in the course of a trace, with the positions of the tokens. -/
theorem reported (h : s.Trace v v' s') : ∃ found, Reported v.length v'.length found ∧
    s'.errors = (found.map (·.error)).reverse ++ s.errors ∧
    ∀ f ∈ found, (v ++ s.rest ++ [s.finish])[f.position]? = some f.error.token := by
  induction h with
  | refl => exact ⟨[], .nil (Nat.le_refl _), rfl, List.forall_mem_nil _⟩
  | @consume v v' s s' t rest htrace _ ih =>
    obtain ⟨found, hfound, herrors, htokens⟩ := ih
    have hle : v'.length ≤ (v' ++ [t]).length := by simp
    refine ⟨found, ?_, herrors, htokens⟩
    simpa using hfound.append (.nil hle)
  | fresh _ ih => exact ih
  | @report v v' s s' fault htrace ih =>
    obtain ⟨found, hfound, herrors, htokens⟩ := ih
    refine ⟨found ++ [⟨v'.length, ⟨s'.rest.headD s'.finish, fault⟩⟩], hfound.append (.next _), ?_, ?_⟩
    · simp [herrors]
    · rw [← htrace.steps.append_rest, ← htrace.steps.finish] at htokens ⊢
      intro f hf
      rcases List.mem_append.1 hf with hf | hf
      · exact htokens f hf
      · obtain rfl := List.mem_singleton.1 hf
        rw [List.append_assoc, List.getElem?_append_right (Nat.le_refl _), Nat.sub_self]
        cases s'.rest <;> rfl
  | @target v v' v'' s s' s'' t rest htrace hrest hvalue ih ih' =>
    obtain ⟨found, hfound, herrors, htokens⟩ := ih
    obtain ⟨inside, hinside, herrors', htokens'⟩ := ih'
    rw [List.length_append, List.length_singleton] at hinside
    refine ⟨found ++ (inside ++ [⟨v'.length, ⟨t, .assignmentTarget⟩⟩]), hfound.append (.target t hinside),
      ?_, ?_⟩
    · simp [herrors, herrors']
    · have hall : v ++ s.rest = v' ++ [t] ++ rest := by
        rw [← htrace.steps.append_rest, hrest, List.append_assoc]
        rfl
      rw [hall, ← htrace.steps.finish] at htokens ⊢
      intro f hf
      simp only [List.mem_append, List.mem_singleton] at hf
      rcases hf with hf | hf | rfl
      · exact htokens f hf
      · exact htokens' f hf
      · simp

end Reading.Trace
/-- The errors of a program, with the positions of the tokens that they are about. -/
theorem parseTokens_reported (tokens : List Token) (next : NodeId) : ∃ found : List Located,
    (parseTokens tokens next).errors = found.map (·.error) ∧ Located.InTurn found ∧
    ∀ f ∈ found, (withFinish tokens)[f.position]? = some f.error.token := by
  have hf : (Reading.start tokens next).finish.kind = .eof := finishOf_kind tokens
  obtain ⟨v, htrace⟩ := Rule.program_trace (beforeFinish tokens).length hf []
  obtain ⟨found, hfound, herrors, htokens⟩ := htrace.reported
  refine ⟨found, ?_, hfound.inTurn, fun f hf => ?_⟩
  · show (Rule.program _ (Reading.start tokens next)).2.errors.reverse = _
    rw [herrors, List.reverse_append, List.reverse_reverse]
    rfl
  · obtain ⟨others, hall⟩ := withFinish_eq tokens
    have htoken : (beforeFinish tokens ++ [finishOf tokens])[f.position]? = some f.error.token :=
      htokens f hf
    obtain ⟨hlt, -⟩ := List.getElem?_eq_some_iff.1 htoken
    rw [hall, List.append_cons, List.getElem?_append_left hlt, htoken]

/-! ### Lines -/

def Item.line : Item → Nat
  | .token t => t.line
  | .error e => e.line

theorem Item.ofSpans_lines (ss : List Span) (line : Nat) :
    (Item.ofSpans ss line).Pairwise (·.line ≤ ·.line) ∧
      ∀ item ∈ Item.ofSpans ss line, line ≤ item.line := by
  have here {s : Span} {line : Nat} : ∀ item ∈ (s.item? line).toList, item.line = line := by
    intro item hitem
    obtain ⟨piece, text⟩ := s
    cases piece <;> simp only [Span.item?, Option.toList, List.mem_singleton, List.not_mem_nil] at hitem
    all_goals
      rw [hitem]
      rfl
  induction ss generalizing line with
  | nil =>
    refine ⟨List.pairwise_singleton _ _, fun item hitem => ?_⟩
    obtain rfl := List.mem_singleton.1 hitem
    exact Nat.le_refl _
  | cons s ss ih =>
    obtain ⟨hsorted, hbehind⟩ := ih (s.nextLine line)
    have hnext : line ≤ s.nextLine line := by
      unfold Span.nextLine
      split <;> omega
    have hfirst : (s.item? line).toList.Pairwise (·.line ≤ ·.line) := by
      cases s.item? line <;> simp
    refine ⟨List.pairwise_append.2 ⟨hfirst, hsorted, fun item hitem item' hitem' => ?_⟩, ?_⟩
    · rw [here item hitem]
      exact hnext.trans (hbehind item' hitem')
    · intro item hitem
      rcases List.mem_append.1 hitem with hitem | hitem
      · exact (here item hitem).ge
      · exact hnext.trans (hbehind item hitem)

theorem scan_lines_sorted (source : String) : (scan source).Pairwise (·.line ≤ ·.line) :=
  (Item.ofSpans_lines _ 1).1

/-- The tokens of a text end with the end of the input, so that none is put behind them. -/
theorem withFinish_scan (source : String) :
    withFinish ((scan source).filterMap Item.token?) = (scan source).filterMap Item.token? := by
  rw [(scan_eq_reports_append source).1, List.filterMap_append]
  simp [withFinish, Item.token?]

/-- What a source reports: all lexical errors, line by line, and behind them the syntax errors, each
about the token at its position. They are in turn: only an error about the target of an assignment can
stand behind errors about later tokens, and these are then the ones in the value that is assigned. If
this does not occur, the syntax errors are in the order of the tokens, and line by line. -/
theorem Source.read_errors (source : String) (next : NodeId) : ∃ found : List Located,
    (Source.read source next).errors =
      ((scan source).filterMap Item.error?).map .lexical ++ found.map (.syntactic ·.error) ∧
    ((scan source).filterMap Item.error?).Pairwise (·.line ≤ ·.line) ∧
    (∀ f ∈ found, ((scan source).filterMap Item.token?)[f.position]? = some f.error.token) ∧
    Located.InTurn found ∧
    ((∃ front f back, found = front ++ f :: back ∧ f.error.fault = .assignmentTarget ∧
        ∃ g ∈ front, f.position < g.position) ∨
      found.Pairwise fun f g =>
        f.position ≤ g.position ∧ f.error.token.line ≤ g.error.token.line) := by
  obtain ⟨found, herrors, hturn, htokens⟩ :=
    parseTokens_reported ((scan source).filterMap Item.token?) next
  rw [withFinish_scan] at htokens
  have htokenLines : ((scan source).filterMap Item.token?).Pairwise (·.line ≤ ·.line) := by
    refine List.pairwise_filterMap.2 ((scan_lines_sorted source).imp ?_)
    rintro (t | e) (t' | e') hle u ⟨⟩ u' ⟨⟩
    exact hle
  have herrorLines : ((scan source).filterMap Item.error?).Pairwise (·.line ≤ ·.line) := by
    refine List.pairwise_filterMap.2 ((scan_lines_sorted source).imp ?_)
    rintro (t | e) (t' | e') hle u ⟨⟩ u' ⟨⟩
    exact hle
  refine ⟨found, ?_, herrorLines, htokens, hturn, ?_⟩
  · show _ ++ (parseTokens _ next).errors.map _ = _
    rw [herrors, List.map_map]
    rfl
  · by_cases hvalues : ∃ front f back, found = front ++ f :: back ∧
        f.error.fault = .assignmentTarget ∧ ∃ g ∈ front, f.position < g.position
    · exact .inl hvalues
    · refine .inr ((hturn.pairwise fun front f back hsplit hf g hg => ?_).imp_of_mem ?_)
      · exact Nat.le_of_not_lt fun hlt => hvalues ⟨front, f, back, hsplit, hf, g, hg, hlt⟩
      · intro f g hf hg hle
        refine ⟨hle, ?_⟩
        obtain ⟨hi, htoken⟩ := List.getElem?_eq_some_iff.1 (htokens f hf)
        obtain ⟨hj, htoken'⟩ := List.getElem?_eq_some_iff.1 (htokens g hg)
        rw [← htoken, ← htoken']
        rcases Nat.eq_or_lt_of_le hle with heq | hlt
        · simp only [heq, Nat.le_refl]
        · exact List.pairwise_iff_getElem.1 htokenLines _ _ hi hj hlt

/-- An error about a target behind one in the value that is assigned, on a later line. -/
theorem Source.read_errors_nested :
    (Source.read "nil\n=nil\n=nil;" 0).errors.map Diagnostic.line? = [some 3, some 2] := by
  decide +kernel

end Treewalk
