import Treewalk.Proofs.Tree.Concatenation
import Treewalk.Proofs.Tree.Moves
/-!
# Reading comes to its end

Whatever the tokens are, reading them ends: no bound that is large enough makes a difference, and each
declaration that is read in front of the end leads on. Reading never comes behind the first end of the
input, stands there in the end, and does not depend on what is behind it (`parseTokens_within`).
-/

namespace Treewalk

/-! ### The first end of the input -/

/-- The tokens that are gone through: an end of the input is put behind them, unless there is one at
the very end. -/
def withFinish (tokens : List Token) : List Token :=
  match tokens.getLast? with
  | none => [⟨.eof, "", 1⟩]
  | some t => if t.kind = .eof then tokens else tokens ++ [⟨.eof, "", t.line⟩]

/-- Where the first end of the input stands. -/
def finishIndex (tokens : List Token) : Nat :=
  (withFinish tokens).findIdx (·.kind = .eof)

section Finish

variable {A : List Token} {finish : Token}

theorem ne_eof_of_mem_beforeFinish {tokens : List Token} {t : Token} (h : t ∈ beforeFinish tokens) :
    t.kind ≠ .eof := by
  have hall := List.all_takeWhile (p := fun t : Token => decide (t.kind ≠ .eof)) (l := tokens)
  exact of_decide_eq_true (List.all_eq_true.1 hall t h)

/-- What is behind the first end of the input does not count. -/
theorem beforeFinish_cons (hA : ∀ t ∈ A, t.kind ≠ .eof) (hfinish : finish.kind = .eof)
    (others : List Token) :
    beforeFinish (A ++ finish :: others) = A ∧ finishOf (A ++ finish :: others) = finish := by
  rw [beforeFinish_append hA, finishOf_append hA ⟨finish, List.mem_cons_self, hfinish⟩]
  simp [beforeFinish, finishOf, hfinish]

/-- The tokens up to the first end of the input are the ones that are read. -/
theorem withFinish_eq (tokens : List Token) :
    ∃ others, withFinish tokens = beforeFinish tokens ++ finishOf tokens :: others := by
  by_cases heof : ∃ t ∈ tokens, t.kind = .eof
  · have hfound : (tokens.find? (·.kind = .eof)).isSome := by simpa using heof
    obtain ⟨t, ht⟩ := Option.isSome_iff_exists.1 hfound
    obtain ⟨hkind, A, B, rfl, hA⟩ := List.find?_eq_some_iff_append.1 ht
    have hfront : ∀ t ∈ A, t.kind ≠ .eof := fun t ht => by simpa using hA t ht
    obtain ⟨hbefore, hfinish⟩ := beforeFinish_cons hfront (of_decide_eq_true hkind) B
    rw [hbefore, hfinish, withFinish]
    split
    · next hlast => simp at hlast
    · split
      · exact ⟨B, rfl⟩
      · next last hlast _ => exact ⟨B ++ [⟨.eof, "", last.line⟩], by simp⟩
  · have hnone : ∀ t ∈ tokens, t.kind ≠ .eof := by simpa using heof
    have hfind : tokens.find? (·.kind = .eof) = none := by simpa using hnone
    rw [beforeFinish_of_forall hnone, finishOf, hfind, withFinish]
    refine ⟨[], ?_⟩
    cases hlast : tokens.getLast? with
    | none =>
      obtain rfl := List.getLast?_eq_none_iff.1 hlast
      rfl
    | some t =>
      have ht : t.kind ≠ .eof := hnone t (List.mem_of_getLast? hlast)
      simp only [if_neg ht]
      rfl

theorem finishIndex_eq (tokens : List Token) : finishIndex tokens = (beforeFinish tokens).length := by
  obtain ⟨others, hall⟩ := withFinish_eq tokens
  have hnone : (beforeFinish tokens).findIdx (·.kind = .eof) = (beforeFinish tokens).length :=
    List.findIdx_eq_length.2 fun t ht => decide_eq_false (ne_eof_of_mem_beforeFinish ht)
  rw [finishIndex, hall, List.findIdx_append, hnone, if_neg (Nat.lt_irrefl _), List.findIdx_cons]
  simp [finishOf_kind]

/-- Up to the first end of the input, and with it, are the tokens that are read. -/
theorem take_finishIndex (tokens : List Token) :
    (withFinish tokens).take (finishIndex tokens + 1) = beforeFinish tokens ++ [finishOf tokens] := by
  obtain ⟨others, hall⟩ := withFinish_eq tokens
  have hlength : finishIndex tokens + 1 = (beforeFinish tokens ++ [finishOf tokens]).length := by
    rw [List.length_append, List.length_singleton, finishIndex_eq]
  rw [hall, List.append_cons, hlength, List.take_left]

end Finish

/-! ### Positions -/

namespace Reading

variable {tokens : List Token} {next : NodeId} {v : List Token} {s : Reading}

/-- In front of all tokens. -/
def start (tokens : List Token) (next : NodeId) : Reading :=
  ⟨beforeFinish tokens, finishOf tokens, next, []⟩

/-- The number of tokens that have been consumed is the position of the next one. It is never behind
the first end of the input, and there exactly if nothing is left. -/
theorem Steps.position (h : (start tokens next).Steps [] v s) :
    v = (withFinish tokens).take v.length ∧
      (withFinish tokens)[v.length]? = some (s.rest.headD s.finish) ∧
      v.length ≤ finishIndex tokens ∧ (v.length = finishIndex tokens ↔ s.rest = []) := by
  obtain ⟨others, hall⟩ := withFinish_eq tokens
  have hrest : v ++ s.rest = beforeFinish tokens := h.append_rest
  have hfinish : s.finish = finishOf tokens := h.finish
  rw [finishIndex_eq, hall, ← hrest, ← hfinish, List.append_assoc, List.length_append]
  refine ⟨?_, ?_, Nat.le_add_right _ _, ?_⟩
  · rw [List.take_left]
  · rw [List.getElem?_append_right (Nat.le_refl _), Nat.sub_self]
    cases s.rest <;> rfl
  · rw [← List.length_eq_zero_iff]
    omega

end Reading

namespace Rule

variable {n : Nat} {s : Reading}

/-- With a bound that is large enough a program is read up to the end. -/
theorem program_rest (hs : s.finish.kind = .eof) (hn : s.rest.length ≤ n) :
    (program n s).2.rest = [] := by
  induction n generalizing s with
  | zero => exact List.eq_nil_of_length_eq_zero (Nat.le_zero.1 hn)
  | succ n ih =>
    unfold program
    split
    · next hnil => exact List.isEmpty_iff.1 hnil
    · next hne =>
      obtain ⟨v, hsteps, hlt⟩ := declaration_steps (parts_moving n) hs []
      have hlength := hsteps.length_eq
      have hpos := hlt fun hnil => hne (List.isEmpty_iff.2 hnil)
      rw [List.length_nil, Nat.zero_add] at hlength
      rw [List.length_nil] at hpos
      exact ih (hsteps.finish ▸ hs) (by omega)

/-- In the end reading is at the first end of the input. -/
theorem program_arrives (tokens : List Token) (next : NodeId) (hn : finishIndex tokens ≤ n) :
    (Reading.start tokens next).Steps [] ((withFinish tokens).take (finishIndex tokens))
      (program n (Reading.start tokens next)).2 := by
  have hf : (Reading.start tokens next).finish.kind = .eof := finishOf_kind tokens
  obtain ⟨v, hsteps⟩ := program_steps n hf []
  obtain ⟨htake, -, -, hend⟩ := hsteps.position
  have hlast : v.length = finishIndex tokens :=
    hend.2 (program_rest hf (finishIndex_eq tokens ▸ hn))
  rw [hlast] at htake
  rw [← htake]
  exact hsteps

end Rule

/-- Whatever the tokens are, reading them ends: the result is that of any bound that is not below the
position of the first end of the input. Reading takes steps, in the course of which it is never behind
that position; each declaration that is read in front of it leads on, whether or not it is abandoned;
and in the end reading is there. Every error is about a token at or before the position, and what is
behind it has no effect. -/
theorem parseTokens_within (tokens : List Token) (next : NodeId) :
    let all := withFinish tokens
    let index := finishIndex tokens
    let start := Reading.start tokens next
    (∀ n ≥ index, parseTokens tokens next =
      ⟨(Rule.program n start).1, (Rule.program n start).2.errors.reverse,
        (Rule.program n start).2.next⟩) ∧
    (∀ v s, start.Steps [] v s → v = all.take v.length ∧
      all[v.length]? = some (s.rest.headD s.finish) ∧ v.length ≤ index ∧
        (v.length = index ↔ s.rest = [])) ∧
    (∀ n v s, start.Steps [] v s → v.length < index → ∃ v', v.length < v'.length ∧
      s.Steps v v' (Rule.declaration ⟨n, Rule.statement n, Rule.declarations n⟩ s).2) ∧
    (∀ n ≥ index, start.Steps [] (all.take index) (Rule.program n start).2) ∧
    (∀ e ∈ (parseTokens tokens next).errors, ∃ i ≤ index, all[i]? = some e.token) ∧
    ∀ others, parseTokens (all.take (index + 1) ++ others) next = parseTokens tokens next := by
  intro all index start
  have hf : start.finish.kind = .eof := finishOf_kind tokens
  have hindex : index = start.rest.length := finishIndex_eq tokens
  have front : all.take (index + 1) = beforeFinish tokens ++ [finishOf tokens] :=
    take_finishIndex tokens
  have bound (n : Nat) (hn : index ≤ n) : Rule.program n start = Rule.program index start :=
    (Rule.program_bound hindex.ge hn hf next []).1
  have ends (n : Nat) (hn : index ≤ n) := Rule.program_arrives tokens next hn
  refine ⟨fun n hn => ?_, fun v s h => h.position, fun n v s h hlt => ?_, ends, ?_, fun others => ?_⟩
  · rw [bound n hn, hindex]
    rfl
  · have hne : s.rest ≠ [] := fun hnil => Nat.ne_of_lt hlt (h.position.2.2.2.2 hnil)
    obtain ⟨v', hsteps, hlonger⟩ := Rule.declaration_steps (Rule.parts_moving n) (h.finish ▸ hf) v
    exact ⟨v', hlonger hne, hsteps⟩
  · intro e he
    have hread : e ∈ (Rule.program index start).2.errors := by
      rw [hindex]
      exact List.mem_reverse.1 he
    have hmem : e.token ∈ all.take (index + 1) := by
      rw [front]
      exact ((ends index (Nat.le_refl _)).errors_mem e hread).resolve_left List.not_mem_nil
    obtain ⟨i, hi, htoken⟩ := List.mem_take_iff_getElem.1 hmem
    have hlt : i < index + 1 ∧ i < all.length := by omega
    exact ⟨i, Nat.le_of_lt_succ hlt.1, List.getElem?_eq_some_iff.2 ⟨hlt.2, htoken⟩⟩
  · obtain ⟨hbefore, hfinish⟩ := beforeFinish_cons (A := beforeFinish tokens)
      (fun t => ne_eof_of_mem_beforeFinish) (finishOf_kind tokens) others
    rw [front, List.append_assoc, List.singleton_append]
    simp only [parseTokens, hbefore, hfinish]

end Treewalk
