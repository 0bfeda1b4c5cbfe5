import Treewalk.Proofs.Tree.Closing
/-!
# The moves of reading

Whatever a rule does is a sequence of moves (`Reading.Steps`): it consumes the next token, gives out an
identity, or reports an error, about the next token or, if it is about the target of an assignment,
about one that has been consumed. Recovery reports an error about the next token and consumes more. So
what the moves keep is kept by every rule, however it ends (`Rule.Moves`).

A trace (`Reading.Trace`) also tells which moves such a report about a target stands behind: those
that lead from its equals sign over the value.
-/

namespace Treewalk

namespace Reading

/-- From the state `s` with the tokens `v` consumed, moves lead to one with those of the last but one
argument consumed. -/
inductive Steps (v : List Token) (s : Reading) : List Token → Reading → Prop where
  | refl : Steps v s v s
  | consume {v' : List Token} {s' : Reading} {t : Token} {rest : List Token} : Steps v s v' s' →
    s'.rest = t :: rest → Steps v s (v' ++ [t]) { s' with rest := rest }
  | fresh {v' : List Token} {s' : Reading} : Steps v s v' s' →
    Steps v s v' { s' with next := s'.next + 1 }
  | report {v' : List Token} {s' : Reading} (fault : SyntaxFault) : Steps v s v' s' →
    Steps v s v' { s' with errors := ⟨s'.rest.headD s'.finish, fault⟩ :: s'.errors }
  | target {v' : List Token} {s' : Reading} {t : Token} : Steps v s v' s' → t ∈ v' →
    Steps v s v' { s' with errors := ⟨t, .assignmentTarget⟩ :: s'.errors }

namespace Steps

variable {v v' v'' : List Token} {s s' s'' : Reading} {t : Token}

theorem trans (h : s.Steps v v' s') (h' : s'.Steps v' v'' s'') : s.Steps v v'' s'' := by
  induction h' with
  | refl => exact h
  | consume _ hrest ih => exact ih.consume hrest
  | fresh _ ih => exact ih.fresh
  | report fault _ ih => exact ih.report fault
  | target _ ht ih => exact ih.target ht

theorem finish (h : s.Steps v v' s') : s'.finish = s.finish := by
  induction h with
  | refl => rfl
  | consume _ _ ih => exact ih
  | fresh _ ih => exact ih
  | report _ _ ih => exact ih
  | target _ _ ih => exact ih

/-- What is consumed and what is left make up all tokens. -/
theorem append_rest (h : s.Steps v v' s') : v' ++ s'.rest = v ++ s.rest := by
  induction h with
  | refl => rfl
  | consume _ hrest ih => rw [← ih, hrest, List.append_assoc]; rfl
  | fresh _ ih => exact ih
  | report _ _ ih => exact ih
  | target _ _ ih => exact ih

theorem mem (h : s.Steps v v' s') (ht : t ∈ v) : t ∈ v' := by
  induction h with
  | refl => exact ht
  | consume _ _ ih => exact List.mem_append_left _ ih
  | fresh _ ih => exact ih
  | report _ _ ih => exact ih
  | target _ _ ih => exact ih

theorem length_le (h : s.Steps v v' s') : v.length ≤ v'.length := by
  induction h with
  | refl => exact Nat.le_refl _
  | consume _ _ ih =>
    rw [List.length_append]
    exact Nat.le_add_right_of_le ih
  | fresh _ ih => exact ih
  | report _ _ ih => exact ih
  | target _ _ ih => exact ih

theorem length_eq (h : s.Steps v v' s') : v'.length + s'.rest.length = v.length + s.rest.length := by
  rw [← List.length_append, ← List.length_append, h.append_rest]

/-- Every error is about one of the tokens, or about the end of the input. -/
theorem errors_mem (h : s.Steps v v' s') : ∀ e ∈ s'.errors, e ∈ s.errors ∨
    e.token ∈ v ++ s.rest ++ [s.finish] := by
  induction h with
  | refl => exact fun e he => .inl he
  | consume _ _ ih => exact ih
  | fresh _ ih => exact ih
  | @report v' s' fault hs ih =>
    intro e he
    rcases List.mem_cons.1 he with rfl | he
    · refine .inr ?_
      rw [← hs.append_rest, ← hs.finish]
      cases s'.rest with
      | nil => simp
      | cons t rest => simp
    · exact ih e he
  | @target v' s' t hs ht ih =>
    intro e he
    rcases List.mem_cons.1 he with rfl | he
    · refine .inr ?_
      rw [← hs.append_rest]
      exact List.mem_append_left _ (List.mem_append_left _ ht)
    · exact ih e he

end Steps

/-- Like `Steps`, where the report about the target of an assignment is the last move of those that
begin with the equals sign. -/
inductive Trace : List Token → Reading → List Token → Reading → Prop where
  | refl {v : List Token} {s : Reading} : Trace v s v s
  | consume {v v' : List Token} {s s' : Reading} {t : Token} {rest : List Token} : Trace v s v' s' →
    s'.rest = t :: rest → Trace v s (v' ++ [t]) { s' with rest := rest }
  | fresh {v v' : List Token} {s s' : Reading} : Trace v s v' s' →
    Trace v s v' { s' with next := s'.next + 1 }
  | report {v v' : List Token} {s s' : Reading} (fault : SyntaxFault) : Trace v s v' s' →
    Trace v s v' { s' with errors := ⟨s'.rest.headD s'.finish, fault⟩ :: s'.errors }
  | target {v v' v'' : List Token} {s s' s'' : Reading} {t : Token} {rest : List Token} :
    Trace v s v' s' → s'.rest = t :: rest → Trace (v' ++ [t]) { s' with rest := rest } v'' s'' →
    Trace v s v'' { s'' with errors := ⟨t, .assignmentTarget⟩ :: s''.errors }

namespace Trace

variable {v v' v'' : List Token} {s s' s'' : Reading}

theorem trans (h : Trace v s v' s') (h' : Trace v' s' v'' s'') : Trace v s v'' s'' := by
  induction h' with
  | refl => exact h
  | consume _ hrest ih => exact (ih h).consume hrest
  | fresh _ ih => exact (ih h).fresh
  | report fault _ ih => exact (ih h).report fault
  | target _ hrest hvalue ih _ => exact (ih h).target hrest hvalue

/-- A trace is a sequence of moves. -/
theorem steps (h : Trace v s v' s') : s.Steps v v' s' := by
  induction h with
  | refl => exact .refl
  | consume _ hrest ih => exact ih.consume hrest
  | fresh _ ih => exact ih.fresh
  | report fault _ ih => exact ih.report fault
  | target _ hrest _ ih ih' =>
    refine ((ih.consume hrest).trans ih').target (ih'.mem ?_)
    exact List.mem_append_right _ List.mem_cons_self

/-- Tokens that are skipped are consumed one after the other. -/
theorem skip {u rest : List Token} (h : Trace v s v' s') (hu : s'.rest = u ++ rest) :
    Trace v s (v' ++ u) { s' with rest := rest } := by
  induction u generalizing v' s' with
  | nil =>
    rw [List.append_nil]
    rw [List.nil_append] at hu
    rw [← hu]
    exact h
  | cons t u ih =>
    have next := ih (h.consume hu) rfl
    rw [List.append_assoc] at next
    exact next

theorem finish (h : Trace v s v' s') : s'.finish = s.finish :=
  h.steps.finish

end Trace
end Reading

namespace Rule

variable {α β : Type} {d d₁ d₂ : Nat} {v : List Token} {s : Reading}

/-- What the rule does is a sequence of moves. If it succeeds it consumes at least `d` tokens, and
else it fails at the next one. -/
def MovesAt (d : Nat) (x : Rule α) (v : List Token) (s : Reading) : Prop :=
  match x s with
  | .ok _ s' => ∃ v', v.length + d ≤ v'.length ∧ s.Trace v v' s'
  | .error e s' => (∃ v', s.Trace v v' s') ∧ e.token = s'.rest.headD s'.finish

def Moves (d : Nat) (x : Rule α) : Prop :=
  ∀ v (s : Reading), s.finish.kind = .eof → MovesAt d x v s

section Bind

variable {x : Rule α} {f : α → Rule β}

/-- Behind moves that have been made, the rule does as another one. -/
theorem MovesAt.behind {y : Rule α} {v₁ : List Token} {s₁ : Reading} (hx : x s = y s₁)
    (htrace : s.Trace v v₁ s₁) (hd : v.length + d ≤ v₁.length + d₁) (h : MovesAt d₁ y v₁ s₁) :
    MovesAt d x v s := by
  unfold MovesAt at h ⊢
  rw [hx]
  cases hy : y s₁ with
  | error e s' =>
    simp only [hy] at h ⊢
    obtain ⟨⟨v', htrace'⟩, he⟩ := h
    exact ⟨⟨v', htrace.trans htrace'⟩, he⟩
  | ok a s' =>
    simp only [hy] at h ⊢
    obtain ⟨v', hlength, htrace'⟩ := h
    exact ⟨v', by omega, htrace.trans htrace'⟩

theorem MovesAt.bind (h : MovesAt d₁ x v s)
    (hf : ∀ a v' s', s.Trace v v' s' → MovesAt d₂ (f a) v' s') (hd : d ≤ d₁ + d₂) :
    MovesAt d (x >>= f) v s := by
  unfold MovesAt at h
  cases hx : x s with
  | error e s' =>
    unfold MovesAt
    rw [bind_run]
    simpa only [hx] using h
  | ok a s' =>
    simp only [hx] at h
    obtain ⟨v', hlength, htrace⟩ := h
    have hrun : (x >>= f) s = f a s' := by rw [bind_run, hx]
    exact .behind hrun htrace (by omega) (hf a v' s' htrace)

theorem Moves.bind (h : Moves d₁ x) (hf : ∀ a, Moves d₂ (f a)) (hd : d ≤ d₁ + d₂) :
    Moves d (x >>= f) :=
  fun v s hs => (h v s hs).bind (fun a v' s' htrace => hf a v' s' (htrace.finish ▸ hs)) hd

theorem Moves.weaken (h : Moves d₁ x) (hd : d ≤ d₁) : Moves d x := by
  have idle (a : α) : Moves 0 (pure a) := fun v _ _ => ⟨v, Nat.le_refl _, .refl⟩
  have hpure : Moves d (x >>= pure) := h.bind idle hd
  rwa [bind_pure] at hpure

/-- What a rule consumes does not count less for what follows. -/
theorem Moves.andThen (h : Moves d x) (hf : ∀ a, Moves 0 (f a)) : Moves d (x >>= f) :=
  h.bind hf (Nat.le_refl _)

/-- It need not count at all. -/
theorem Moves.followed (h : Moves d x) (hf : ∀ a, Moves 0 (f a)) : Moves 0 (x >>= f) :=
  (h.weaken (Nat.zero_le d)).andThen hf

theorem Moves.before (h : Moves 0 x) (hf : ∀ a, Moves d (f a)) : Moves d (x >>= f) :=
  h.bind hf (by omega)

end Bind

/-! ### The rules that all others are built from -/

section Primitives

variable {x : Rule α} {f : Bool → Rule α} {g : Option Token → Rule α} {w : Kind → Bool} {k : Kind}

theorem moves_pure (a : α) : Moves 0 (pure a) :=
  fun v _ _ => ⟨v, Nat.le_refl _, .refl⟩

theorem moves_fail (what : Expected) : Moves d (fail what : Rule α) :=
  fun v _ _ => ⟨⟨v, .refl⟩, rfl⟩

theorem moves_fresh : Moves 0 fresh :=
  fun v _ _ => ⟨v, Nat.le_refl _, .fresh .refl⟩

theorem moves_peek : Moves 0 peek :=
  fun v _ _ => ⟨v, Nat.le_refl _, .refl⟩

/-- A report about the next token. -/
theorem moves_reportNext_bind (fault : SyntaxFault) (h : Moves d x) :
    Moves d (peek >>= fun t => report t fault >>= fun _ => x) := by
  intro v s hs
  have hreport : MovesAt 0 (peek >>= fun t => report t fault) v s :=
    ⟨v, Nat.le_refl _, .report fault .refl⟩
  rw [← bind_assoc]
  exact hreport.bind (fun _ v' s' htrace => h v' s' (htrace.finish ▸ hs)) (Nat.zero_add d).ge

theorem moves_nextIs (k : Kind) : Moves 0 (nextIs k) := by
  rintro v ⟨_ | ⟨t, u⟩, finish, next, errors⟩ _ <;> exact ⟨v, Nat.le_refl _, .refl⟩

theorem moves_atBlockEnd : Moves 0 atBlockEnd := by
  rintro v ⟨_ | ⟨t, u⟩, finish, next, errors⟩ _ <;> exact ⟨v, Nat.le_refl _, .refl⟩

/-- The next token is consumed, or nothing is. -/
theorem take?_run (w : Kind → Bool) (g : Option Token → Rule α) (s : Reading) :
    (∃ t rest, s.rest = t :: rest ∧ (take? w >>= g) s = g (some t) { s with rest }) ∨
      (take? w >>= g) s = g none s := by
  obtain ⟨_ | ⟨t, u⟩, finish, next, errors⟩ := s
  · refine .inr ?_
    rw [bind_run, take?_nil]
  · by_cases ht : w t.kind = true
    · refine .inl ⟨t, u, rfl, ?_⟩
      rw [bind_run, take?_cons, if_pos ht]
    · refine .inr ?_
      rw [bind_run, take?_cons, if_neg ht]

theorem MovesAt.take?_bind
    (hsome : ∀ t rest, s.rest = t :: rest → MovesAt (d - 1) (g (some t)) (v ++ [t]) { s with rest })
    (hnone : MovesAt d (g none) v s) : MovesAt d (take? w >>= g) v s := by
  rcases take?_run w g s with ⟨t, rest, hrest, hrun⟩ | hrun
  · refine .behind hrun (.consume .refl hrest) ?_ (hsome t rest hrest)
    rw [List.length_append, List.length_singleton]
    omega
  · exact .behind hrun .refl (Nat.le_refl _) hnone

theorem moves_take?_bind (hsome : ∀ t, Moves (d - 1) (g (some t))) (hnone : Moves d (g none)) :
    Moves d (take? w >>= g) :=
  fun v s hs => .take?_bind (fun t _ _ => hsome t _ _ hs) (hnone v s hs)

theorem moves_accept_bind (htrue : Moves (d - 1) (f true)) (hfalse : Moves d (f false)) :
    Moves d (accept k >>= f) := by
  unfold accept
  simp only [bind_assoc, pure_bind]
  exact moves_take?_bind (fun _ => htrue) hfalse

theorem moves_expect (k : Kind) (what : Expected) : Moves 1 (expect k what) :=
  moves_take?_bind (fun t => moves_pure t) (moves_fail what)

/-- A token that has to be there, when it does not matter that it is consumed. -/
theorem moves_expect_bind {what : Expected} {h : Token → Rule α}
    (hf : ∀ t, Moves 0 (h t)) : Moves 0 (expect k what >>= h) :=
  (moves_expect k what).followed hf

theorem moves_behind? (h : Moves 0 x) : Moves 0 (behind? k x) :=
  moves_accept_bind (h.andThen fun a => moves_pure (some a)) (moves_pure none)

end Primitives

/-! ### Expressions -/

section Expressions

theorem commaSeparated_moves {item : Nat → Rule α} (h : ∀ count, Moves 1 (item count))
    (n count : Nat) : Moves 1 (commaSeparated item n count) := by
  induction n generalizing count with
  | zero => exact (h count).andThen fun a => moves_pure _
  | succ n ih =>
    unfold commaSeparated
    refine (h count).andThen fun a => moves_accept_bind ?_ (moves_pure _)
    exact (ih (count + 1)).followed fun l => moves_pure _

theorem items_moves {item : Rule α} (h : Moves 1 item) (tooMany : SyntaxFault) (n : Nat) :
    Moves 0 (items item tooMany n) := by
  refine (moves_nextIs _).andThen fun isEnd => ?_
  cases isEnd with
  | true => exact moves_pure _
  | false =>
    refine (commaSeparated_moves (fun count => ?_) n 0).weaken (Nat.zero_le 1)
    by_cases hc : maxArity ≤ count
    · rw [if_pos hc]
      exact moves_reportNext_bind tooMany h
    · rw [if_neg hc]
      exact h

theorem grouped_moves {inner : Rule Expr} (h : Moves 1 inner) : Moves 0 (grouped inner) :=
  h.followed fun _ => moves_expect_bind fun _ => moves_pure _

theorem superMethod_moves (keyword : Token) : Moves 0 (superMethod keyword) := by
  refine moves_expect_bind fun _ => ?_
  refine moves_expect_bind fun method => ?_
  exact moves_fresh.andThen fun _ => moves_pure _

/-- A primary expression consumes its first token, and with it gives out an identity at most. -/
theorem primary_moves {inner : Rule Expr} (h : Moves 1 inner) : Moves 1 (primary inner) := by
  rintro v ⟨_ | ⟨⟨kind, lexeme, line⟩, u⟩, finish, next, errors⟩ hf
  · have hfail := primary_failsAtEnd inner finish next errors hf
    unfold MovesAt
    rw [hfail]
    exact ⟨⟨v, .refl⟩, rfl⟩
  have first (next' : NodeId) (htrace : Reading.Trace v ⟨⟨kind, lexeme, line⟩ :: u, finish, next, errors⟩
      v ⟨⟨kind, lexeme, line⟩ :: u, finish, next', errors⟩) {y : Rule Expr} (hy : Moves 0 y)
      (hx : primary inner ⟨⟨kind, lexeme, line⟩ :: u, finish, next, errors⟩ =
        y ⟨u, finish, next', errors⟩) :
      MovesAt 1 (primary inner) v ⟨⟨kind, lexeme, line⟩ :: u, finish, next, errors⟩ := by
    refine .behind hx (htrace.consume rfl) ?_ (hy _ _ hf)
    rw [List.length_append]
    exact Nat.le_refl _
  have failed (hx : primary inner ⟨⟨kind, lexeme, line⟩ :: u, finish, next, errors⟩ =
      fail .expression ⟨⟨kind, lexeme, line⟩ :: u, finish, next, errors⟩) :
      MovesAt 1 (primary inner) v ⟨⟨kind, lexeme, line⟩ :: u, finish, next, errors⟩ :=
    .behind hx .refl (Nat.le_refl _) (moves_fail _ v _ hf)
  have consumed (e : Expr) (next' : NodeId) (htrace : Reading.Trace v
      ⟨⟨kind, lexeme, line⟩ :: u, finish, next, errors⟩ v
      ⟨⟨kind, lexeme, line⟩ :: u, finish, next', errors⟩)
      (hx : primary inner ⟨⟨kind, lexeme, line⟩ :: u, finish, next, errors⟩ =
        primary.consumed ⟨kind, lexeme, line⟩ e ⟨⟨kind, lexeme, line⟩ :: u, finish, next', errors⟩) :
      MovesAt 1 (primary inner) v ⟨⟨kind, lexeme, line⟩ :: u, finish, next, errors⟩ :=
    first next' htrace (moves_pure e) (hx.trans (consumed_run e))
  cases kind with
  | number | string => exact consumed _ next .refl rfl
  | identifier => exact consumed (.variable next _) (next + 1) (.fresh .refl) rfl
  | eof => exact failed rfl
  | keyword kw =>
    cases kw with
    | «false» | «true» | nil => exact consumed _ next .refl rfl
    | this => exact consumed (.this next _) (next + 1) (.fresh .refl) rfl
    | super => exact first next .refl (superMethod_moves _) rfl
    | _ => exact failed rfl
  | mark m =>
    cases m with
    | leftParen => exact first next .refl (grouped_moves h) rfl
    | _ => exact failed rfl

theorem suffixes_moves {inner : Rule Expr} (h : Moves 1 inner) (n : Nat) (e : Expr) :
    Moves 0 (suffixes inner n e) := by
  induction n generalizing e with
  | zero => exact moves_pure e
  | succ n ih =>
    unfold suffixes
    refine moves_accept_bind ?_ (moves_accept_bind ?_ (moves_pure e))
    · refine Moves.andThen ?_ ih
      refine (items_moves h _ n).andThen fun l => ?_
      exact moves_expect_bind fun _ => moves_pure _
    · exact moves_expect_bind fun name => ih _

theorem chain_moves {operand : Rule Expr} (h : Moves 1 operand) (rank n : Nat) (left : Expr) :
    Moves 0 (chain operand rank n left) := by
  induction n generalizing left with
  | zero => exact moves_pure left
  | succ n ih =>
    unfold chain
    refine moves_take?_bind (fun operator => ?_) (moves_pure left)
    exact h.followed fun right => ih _

theorem operation_moves {inner : Nat → Rule Expr} (h : ∀ rank, Moves 1 (inner rank)) (n rank : Nat) :
    Moves 1 (operation inner n rank) := by
  induction rank with
  | zero =>
    refine moves_take?_bind (fun operator => ?_) ?_
    · exact (h 0).followed fun e => moves_pure _
    · exact (primary_moves (h _)).andThen fun e => suffixes_moves (h _) n e
  | succ rank ih => exact ih.andThen fun e => chain_moves (h rank) (rank + 1) n e

/-- An invalid target is reported about behind all that the value is read by. -/
theorem assignTo_movesAt {x value : Rule Expr} (target : Expr) {equal : Token} {rest : List Token}
    (hrest : s.rest = equal :: rest) (hx : x s = (value >>= assignTo target equal) { s with rest })
    (h : MovesAt 0 value (v ++ [equal]) { s with rest }) : MovesAt 0 x v s := by
  have hequal : s.Trace v (v ++ [equal]) { s with rest } := .consume .refl hrest
  unfold MovesAt at h ⊢
  rw [hx, bind_run]
  cases hvalue : value { s with rest } with
  | error e s' =>
    simp only [hvalue] at h ⊢
    obtain ⟨⟨v', htrace⟩, he⟩ := h
    exact ⟨⟨v', hequal.trans htrace⟩, he⟩
  | ok right s' =>
    simp only [hvalue] at h ⊢
    obtain ⟨v', hlength, htrace⟩ := h
    have hle : v.length + 0 ≤ v'.length := (hequal.trans htrace).steps.length_le
    match target with
    | .variable node name => exact ⟨v', hle, hequal.trans htrace⟩
    | .get object name => exact ⟨v', hle, hequal.trans htrace⟩
    | .literal _ | .grouping _ | .unary _ _ | .binary _ _ _ | .logical _ _ _ | .assign _ _ _
    | .call _ _ _ | .set _ _ _ | .this _ _ | .super _ _ _ =>
      exact ⟨v', hle, .target .refl hrest htrace⟩

theorem assignment_moves {inner : Nat → Rule Expr} (h : ∀ rank, Moves 1 (inner rank)) (n : Nat) :
    Moves 1 (assignment inner n) := by
  intro v s hs
  refine (operation_moves h n _ v s hs).bind (fun target v₁ s₁ htrace => ?_) (Nat.le_refl (1 + 0))
  have hs₁ : s₁.finish.kind = .eof := htrace.finish ▸ hs
  rcases take?_run (· = .mark .equal) _ s₁ with ⟨equal, rest, hrest, hrun⟩ | hrun
  · exact assignTo_movesAt target hrest hrun (((h _).weaken (Nat.zero_le 1)) _ _ hs₁)
  · exact .behind hrun .refl (Nat.le_refl _) (moves_pure target v₁ s₁ hs₁)

theorem ranked_moves (n rank : Nat) : Moves 1 (ranked n rank) := by
  induction n generalizing rank with
  | zero => exact moves_fail _
  | succ n ih =>
    unfold ranked
    split
    · exact operation_moves ih n rank
    · exact assignment_moves ih n

theorem expression_moves (n : Nat) : Moves 1 (expression n) :=
  ranked_moves n assignmentRank

end Expressions

/-! ### Statements -/

theorem terminated_moves (n : Nat) (missing : Expected) : Moves 1 (terminated n missing) :=
  (expression_moves n).andThen fun _ => moves_expect_bind fun _ =>
    moves_pure _

theorem expressionUnless_moves (k : Kind) (n : Nat) : Moves 0 (expressionUnless k n) := by
  refine (moves_nextIs k).andThen fun isEnd => ?_
  cases isEnd with
  | true => exact moves_pure none
  | false => exact (expression_moves n).followed fun e => moves_pure _

/-- The rules for the parts of statements move. -/
structure Parts.Moving (p : Parts) : Prop where
  statement : Moves 1 p.statement
  declarations : Moves 0 p.declarations

section Parts

variable {p : Parts} (hp : p.Moving)

include hp

theorem block_moves : Moves 0 (block p) :=
  hp.declarations.andThen fun _ => moves_expect_bind fun _ => moves_pure _

theorem function_moves (form : FunctionForm) : Moves 1 (function p form) := by
  refine (moves_expect _ _).andThen fun name => moves_expect_bind fun _ => ?_
  refine (items_moves (moves_expect _ _) _ _).andThen fun parameters => ?_
  refine moves_expect_bind fun _ => moves_expect_bind fun _ => ?_
  exact (block_moves hp).andThen fun body => moves_pure _

theorem methods_moves (n : Nat) : Moves 0 (methods p n) := by
  induction n with
  | zero => exact moves_pure []
  | succ n ih =>
    unfold methods
    refine moves_atBlockEnd.andThen fun isEnd => ?_
    cases isEnd with
    | true => exact moves_pure []
    | false =>
      refine (function_moves hp .method).followed fun first => ?_
      exact ih.andThen fun others => moves_pure _

theorem classDeclaration_moves : Moves 0 (classDeclaration p) := by
  refine moves_expect_bind fun name => ?_
  refine (moves_behind? (moves_expect_bind fun name => ?_)).andThen fun superclass => ?_
  · exact moves_fresh.andThen fun node => moves_pure _
  refine moves_expect_bind fun _ => (methods_moves hp _).andThen fun declared => ?_
  exact moves_expect_bind fun _ => moves_pure _

omit hp in
theorem varDeclaration_moves : Moves 0 (varDeclaration p) := by
  refine moves_expect_bind fun name => ?_
  refine (moves_behind? ((expression_moves _).weaken (Nat.zero_le 1))).andThen fun initial => ?_
  exact moves_expect_bind fun _ => moves_pure _

omit hp in
theorem forInitial_moves : Moves 0 (forInitial p) := by
  refine moves_accept_bind (moves_pure none) (moves_accept_bind ?_ ?_)
  · exact varDeclaration_moves.andThen fun s => moves_pure _
  · exact (terminated_moves _ _).followed fun e => moves_pure _

theorem forStatement_moves : Moves 0 (forStatement p) := by
  refine moves_expect_bind fun _ => forInitial_moves.andThen fun initial => ?_
  refine (expressionUnless_moves _ _).andThen fun condition => moves_expect_bind fun _ => ?_
  refine (expressionUnless_moves _ _).andThen fun increment => moves_expect_bind fun _ => ?_
  exact hp.statement.followed fun body => moves_pure _

theorem ifStatement_moves : Moves 0 (ifStatement p) := by
  have branch : Moves 0 p.statement := hp.statement.weaken (Nat.zero_le 1)
  refine moves_expect_bind fun _ => ?_
  refine (expression_moves _).followed fun condition => ?_
  refine moves_expect_bind fun _ => branch.andThen fun consequent => ?_
  exact (moves_behind? branch).andThen fun alternative => moves_pure _

theorem whileStatement_moves : Moves 0 (whileStatement p) := by
  refine moves_expect_bind fun _ => ?_
  refine (expression_moves _).followed fun condition => ?_
  refine moves_expect_bind fun _ => ?_
  exact hp.statement.followed fun body => moves_pure _

omit hp in
theorem returnStatement_moves (keyword : Token) : Moves 0 (returnStatement p keyword) :=
  (expressionUnless_moves _ _).andThen fun _ => moves_expect_bind fun _ => moves_pure _

theorem statementOf_moves : Moves 1 (statementOf p) := by
  have expression (n : Nat) (missing : Expected) {f : Expr → Stmt} :
      Moves 1 (do return f (← terminated n missing)) :=
    (terminated_moves n missing).andThen fun e => moves_pure _
  refine moves_peek.before fun t => ?_
  refine moves_accept_bind (forStatement_moves hp) (moves_accept_bind (ifStatement_moves hp) ?_)
  refine moves_accept_bind ((expression _ _).weaken (Nat.zero_le 1)) ?_
  refine moves_accept_bind (returnStatement_moves t) (moves_accept_bind (whileStatement_moves hp) ?_)
  refine moves_accept_bind ?_ (expression _ _)
  exact (block_moves hp).andThen fun body => moves_pure _

/-- A declaration consumes a token at least. -/
theorem declarationOf_moves : Moves 1 (declarationOf p) := by
  refine moves_accept_bind (classDeclaration_moves hp) ?_
  refine moves_accept_bind ?_ (moves_accept_bind varDeclaration_moves (statementOf_moves hp))
  exact ((function_moves hp .function).andThen fun f => moves_pure _).weaken (Nat.zero_le 1)

/-! ### Recovery -/

omit hp in
theorem resync_suffix (u : List Token) : ∃ skipped, u = skipped ++ resync u := by
  have hresume (previous : Token) (u : List Token) : ∃ skipped, u = skipped ++ resume previous u := by
    induction u generalizing previous with
    | nil => exact ⟨[], rfl⟩
    | cons t u ih =>
      unfold resume
      split
      · exact ⟨[], rfl⟩
      · obtain ⟨skipped, hskipped⟩ := ih t
        exact ⟨t :: skipped, congrArg (t :: ·) hskipped⟩
  cases u with
  | nil => exact ⟨[], rfl⟩
  | cons t u =>
    obtain ⟨skipped, hskipped⟩ := hresume t u
    exact ⟨t :: skipped, congrArg (t :: ·) hskipped⟩

/-- Whether or not a declaration is abandoned, it leads on, and over a token at least if there is
one. -/
theorem declaration_trace (hs : s.finish.kind = .eof) (v : List Token) :
    ∃ v', s.Trace v v' (declaration p s).2 ∧ (s.rest ≠ [] → v.length < v'.length) := by
  have hmoves := declarationOf_moves hp v s hs
  unfold MovesAt at hmoves
  unfold declaration
  cases hx : declarationOf p s with
  | ok stmt s' =>
    simp only [hx] at hmoves ⊢
    obtain ⟨v', hlength, htrace⟩ := hmoves
    exact ⟨v', htrace, fun _ => hlength⟩
  | error e s' =>
    simp only [hx] at hmoves ⊢
    obtain ⟨⟨v', htrace⟩, he⟩ := hmoves
    obtain ⟨skipped, hskipped⟩ := resync_suffix s'.rest
    have reported := (htrace.report e.fault).skip hskipped
    rw [← he] at reported
    refine ⟨v' ++ skipped, reported, fun hne => ?_⟩
    have hresync := resync_length_le s'.rest
    have hlength := reported.steps.length_eq
    have hpos := List.length_pos_of_ne_nil hne
    have hbefore := htrace.steps.length_eq
    have hle := htrace.steps.length_le
    simp only at hlength
    omega

theorem declaration_steps (hs : s.finish.kind = .eof) (v : List Token) :
    ∃ v', s.Steps v v' (declaration p s).2 ∧ (s.rest ≠ [] → v.length < v'.length) := by
  obtain ⟨v', htrace, hlt⟩ := declaration_trace hp hs v
  exact ⟨v', htrace.steps, hlt⟩

/-- A declaration as a rule never fails. -/
theorem moves_declaration : Moves 0 (modifyGet (declaration p)) := by
  intro v s hs
  obtain ⟨v', htrace, -⟩ := declaration_trace hp hs v
  exact ⟨v', htrace.steps.length_le, htrace⟩

end Parts

theorem parts_moving (n : Nat) : Parts.Moving ⟨n, statement n, declarations n⟩ := by
  induction n with
  | zero => exact ⟨moves_fail _, moves_pure []⟩
  | succ n ih =>
    refine ⟨statementOf_moves ih, ?_⟩
    show Moves 0 (declarations (n + 1))
    unfold declarations
    refine moves_atBlockEnd.andThen fun isEnd => ?_
    cases isEnd with
    | true => exact moves_pure []
    | false =>
      refine (moves_declaration ih).andThen fun first => ?_
      exact ih.declarations.andThen fun others => moves_pure _

/-- A program is read by moves. -/
theorem program_trace (n : Nat) (hs : s.finish.kind = .eof) (v : List Token) :
    ∃ v', s.Trace v v' (program n s).2 := by
  induction n generalizing s v with
  | zero => exact ⟨v, .refl⟩
  | succ n ih =>
    unfold program
    split
    · exact ⟨v, .refl⟩
    · obtain ⟨v₁, htrace, -⟩ := declaration_trace (parts_moving n) hs v
      obtain ⟨v₂, htrace'⟩ := ih (htrace.finish ▸ hs) v₁
      exact ⟨v₂, htrace.trans htrace'⟩

theorem program_steps (n : Nat) (hs : s.finish.kind = .eof) (v : List Token) :
    ∃ v', s.Steps v v' (program n s).2 := by
  obtain ⟨v', htrace⟩ := program_trace n hs v
  exact ⟨v', htrace.steps⟩

end Rule
end Treewalk
