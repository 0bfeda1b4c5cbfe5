import Treewalk.Proofs.Tree.Locality
/-!
# Errors in front of the last semicolon

Tokens without braces and counting loops that end with a semicolon hold all that is needed to tell
where reading goes wrong: an expression never takes the last semicolon away, and a statement that
takes it is complete. So whatever is wrong with a declaration of such tokens is found at one of them
(`Rule.declarationOf_stays`), and never at what is behind.
-/

namespace Treewalk

/-- There are no braces and no counting loops, and the last token is a semicolon. -/
structure Flat (u : List Token) : Prop where
  ends : ∃ v semicolon, u = v ++ [semicolon] ∧ semicolon.kind = .mark .semicolon
  plain : ∀ t ∈ u, t.kind ≠ .mark .leftBrace ∧ t.kind ≠ .mark .rightBrace ∧ t.kind ≠ .keyword .for

namespace Flat

variable {t : Token} {u : List Token}

theorem ne_nil (h : Flat u) : u ≠ [] := by
  obtain ⟨v, semicolon, rfl, -⟩ := h.ends
  simp

theorem tail (h : Flat (t :: u)) : u = [] ∧ t.kind = .mark .semicolon ∨ Flat u := by
  obtain ⟨⟨v, semicolon, hu, hs⟩, hplain⟩ := h
  cases v with
  | nil =>
    obtain ⟨rfl, rfl⟩ := List.cons.inj hu
    exact .inl ⟨rfl, hs⟩
  | cons t' v =>
    obtain ⟨rfl, rfl⟩ := List.cons.inj hu
    exact .inr ⟨⟨v, semicolon, rfl, hs⟩, (List.forall_mem_cons.1 hplain).2⟩

theorem tail_of_ne (h : Flat (t :: u)) (ht : t.kind ≠ .mark .semicolon) : Flat u :=
  h.tail.resolve_left fun hnil => ht hnil.2

end Flat

namespace Rule

variable {α β : Type} {c : Bool}

/-- On flat tokens the rule leaves flat ones, or none if it may succeed with the last semicolon. -/
def Stays (c : Bool) (x : Rule α) : Prop :=
  ∀ s : Reading, Flat s.rest → match x s with
    | .ok _ s' => Flat s'.rest ∨ c = true ∧ s'.rest = []
    | .error _ s' => Flat s'.rest

/-- The rule succeeds without tokens, and leaves it at that. -/
def Idle (x : Rule α) : Prop :=
  ∀ s : Reading, s.rest = [] → ∃ a s', x s = .ok a s' ∧ s'.rest = []

section Primitives

variable {x : Rule α} {f : α → Rule β} {w : Kind → Bool} {k : Kind}

theorem Stays.bind (h : Stays false x) (hf : ∀ a, Stays c (f a)) : Stays c (x >>= f) := by
  intro s hs
  have hx := h s hs
  rw [bind_run]
  cases hrun : x s with
  | error e s' => simpa only [hrun] using hx
  | ok a s' =>
    simp only [hrun] at hx ⊢
    exact hf a s' (hx.resolve_right (by simp))

/-- Behind a complete statement nothing is left to be missed. -/
theorem Stays.bind_idle (h : Stays true x) (hf : ∀ a, Stays true (f a)) (hidle : ∀ a, Idle (f a)) :
    Stays true (x >>= f) := by
  intro s hs
  have hx := h s hs
  rw [bind_run]
  cases hrun : x s with
  | error e s' => simpa only [hrun] using hx
  | ok a s' =>
    rw [hrun] at hx
    rcases hx with hflat | ⟨-, hnil⟩
    · exact hf a s' hflat
    · obtain ⟨b, s'', hb, hs''⟩ := hidle a s' hnil
      show match f a s' with | .ok _ s' => _ | .error _ s' => _
      rw [hb]
      exact .inr ⟨rfl, hs''⟩

theorem stays_pure (a : α) : Stays c (pure a) :=
  fun _ hs => .inl hs

theorem idle_pure (a : α) : Idle (pure a) :=
  fun s hs => ⟨a, s, rfl, hs⟩

theorem stays_fail (what : Expected) : Stays c (fail what : Rule α) :=
  fun _ hs => hs

theorem stays_report (t : Token) (fault : SyntaxFault) : Stays c (report t fault) :=
  fun _ hs => .inl hs

theorem stays_fresh : Stays c fresh :=
  fun _ hs => .inl hs

theorem stays_peek : Stays c peek :=
  fun _ hs => .inl hs

theorem stays_nextIs (k : Kind) : Stays c (nextIs k) := by
  rintro ⟨_ | ⟨t, u⟩, finish, next, errors⟩ hs <;> exact .inl hs

theorem stays_take?_bind {f : Option Token → Rule β} (hw : w (.mark .semicolon) = false)
    (hsome : ∀ t, w t.kind = true → Stays c (f (some t))) (hnone : Stays c (f none)) :
    Stays c (take? w >>= f) := by
  rintro ⟨_ | ⟨t, u⟩, finish, next, errors⟩ hs
  · exact absurd rfl hs.ne_nil
  · rw [bind_run, take?_cons]
    by_cases ht : w t.kind = true
    · rw [if_pos ht]
      refine hsome t ht _ (hs.tail_of_ne fun hk => ?_)
      rw [hk, hw] at ht
      cases ht
    · rw [if_neg ht]
      exact hnone _ hs

theorem stays_accept_bind {f : Bool → Rule β} (hk : k ≠ .mark .semicolon) (htrue : Stays c (f true))
    (hfalse : Stays c (f false)) : Stays c (accept k >>= f) := by
  unfold accept
  simp only [bind_assoc, pure_bind]
  exact stays_take?_bind (decide_eq_false hk.symm) (fun _ _ => htrue) hfalse

theorem stays_expect (hk : k ≠ .mark .semicolon) (what : Expected) : Stays c (expect k what) :=
  stays_take?_bind (decide_eq_false hk.symm) (fun t _ => stays_pure t) (stays_fail what)

/-- A semicolon may be the last token. -/
theorem stays_expect_semicolon (what : Expected) : Stays true (expect (.mark .semicolon) what) := by
  rintro ⟨_ | ⟨t, u⟩, finish, next, errors⟩ hs
  · exact absurd rfl hs.ne_nil
  · unfold expect
    rw [bind_run, take?_cons]
    by_cases ht : t.kind = .mark .semicolon
    · rw [if_pos (decide_eq_true ht)]
      rcases hs.tail with ⟨hnil, -⟩ | hflat
      · exact .inr ⟨rfl, hnil⟩
      · exact .inl hflat
    · rw [if_neg (by simpa using ht)]
      exact hs

/-- No brace and no counting loop is found, so what is behind one does not matter. -/
theorem stays_expect_brace {f : Token → Rule β} (what : Expected) :
    Stays c (expect (.mark .leftBrace) what >>= f) := by
  rintro ⟨_ | ⟨t, u⟩, finish, next, errors⟩ hs
  · exact absurd rfl hs.ne_nil
  · have ht := (hs.plain t List.mem_cons_self).1
    have hfail : expect (.mark .leftBrace) what ⟨t :: u, finish, next, errors⟩ =
        fail what ⟨t :: u, finish, next, errors⟩ := by
      unfold expect
      rw [bind_run, take?_cons, if_neg (by simpa using ht)]
    rw [bind_run, hfail]
    exact hs

theorem stays_accept_absent {f : Bool → Rule β} (hk : k = .mark .leftBrace ∨ k = .keyword .for)
    (hfalse : Stays c (f false)) : Stays c (accept k >>= f) := by
  rintro ⟨_ | ⟨t, u⟩, finish, next, errors⟩ hs
  · exact absurd rfl hs.ne_nil
  · have ht := hs.plain t List.mem_cons_self
    rw [bind_run, accept_cons_of_ne (by rcases hk with rfl | rfl; exacts [ht.1, ht.2.2])]
    exact hfalse _ hs

theorem Stays.map (h : Stays c x) (f : α → β) : Stays c (do let a ← x; return f a) := by
  cases c with
  | false => exact h.bind fun a => stays_pure (f a)
  | true => exact h.bind_idle (fun a => stays_pure (f a)) fun a => idle_pure (f a)

theorem stays_behind? (hk : k ≠ .mark .semicolon) (hx : Stays c x) : Stays c (behind? k x) :=
  stays_accept_bind hk (hx.map some) (stays_pure none)

theorem idle_behind? (k : Kind) : Idle (behind? k x) := by
  rintro ⟨_, finish, next, errors⟩ rfl
  exact ⟨none, _, rfl, rfl⟩

end Primitives

/-! ### Expressions -/

section Expressions

theorem commaSeparated_stays {α : Type} {item : Nat → Rule α} (h : ∀ count, Stays false (item count))
    (n count : Nat) : Stays false (commaSeparated item n count) := by
  induction n generalizing count with
  | zero => exact (h count).bind fun a => stays_pure _
  | succ n ih =>
    unfold commaSeparated
    refine (h count).bind fun a => stays_accept_bind (by decide) ?_ (stays_pure _)
    exact (ih (count + 1)).bind fun l => stays_pure _

theorem items_stays {α : Type} {item : Rule α} (h : Stays false item) (tooMany : SyntaxFault)
    (n : Nat) : Stays false (items item tooMany n) := by
  refine (stays_nextIs _).bind fun isEnd => ?_
  cases isEnd with
  | true => exact stays_pure _
  | false =>
    refine commaSeparated_stays (fun count => ?_) n 0
    by_cases hc : maxArity ≤ count
    · rw [if_pos hc]
      exact stays_peek.bind fun t => (stays_report t tooMany).bind fun _ => h
    · rw [if_neg hc]
      exact h

theorem grouped_stays {inner : Rule Expr} (h : Stays false inner) : Stays false (grouped inner) :=
  h.bind fun _ => (stays_expect (by decide) _).bind fun _ => stays_pure _

theorem superMethod_stays (keyword : Token) : Stays false (superMethod keyword) :=
  (stays_expect (by decide) _).bind fun _ => (stays_expect (by decide) _).bind fun _ =>
    stays_fresh.bind fun _ => stays_pure _

theorem primary_stays {inner : Rule Expr} (h : Stays false inner) : Stays false (primary inner) := by
  rintro ⟨_ | ⟨⟨kind, lexeme, line⟩, u⟩, finish, next, errors⟩ hs
  · exact absurd rfl hs.ne_nil
  have hconsumed (e : Expr) (next' : NodeId) (hkind : kind ≠ .mark .semicolon)
      (hx : primary inner ⟨⟨kind, lexeme, line⟩ :: u, finish, next, errors⟩ =
        primary.consumed ⟨kind, lexeme, line⟩ e
          ⟨⟨kind, lexeme, line⟩ :: u, finish, next', errors⟩) :
      match primary inner ⟨⟨kind, lexeme, line⟩ :: u, finish, next, errors⟩ with
      | .ok _ s' => Flat s'.rest ∨ false = true ∧ s'.rest = []
      | .error _ s' => Flat s'.rest := by
    rw [hx, consumed_run]
    exact .inl (hs.tail_of_ne hkind)
  cases kind with
  | number | string => exact hconsumed _ next nofun rfl
  | identifier => exact hconsumed (.variable next _) (next + 1) nofun rfl
  | eof => exact hs
  | keyword kw =>
    cases kw with
    | «false» | «true» | nil => exact hconsumed _ next nofun rfl
    | this => exact hconsumed (.this next _) (next + 1) nofun rfl
    | super => exact superMethod_stays _ ⟨u, finish, next, errors⟩ (hs.tail_of_ne nofun)
    | _ => exact hs
  | mark m =>
    cases m with
    | leftParen => exact grouped_stays h ⟨u, finish, next, errors⟩ (hs.tail_of_ne nofun)
    | _ => exact hs

theorem suffixes_stays {inner : Rule Expr} (h : Stays false inner) (n : Nat) (e : Expr) :
    Stays false (suffixes inner n e) := by
  induction n generalizing e with
  | zero => exact stays_pure e
  | succ n ih =>
    unfold suffixes
    refine stays_accept_bind (by decide) ?_ (stays_accept_bind (by decide) ?_ (stays_pure e))
    · refine Stays.bind ?_ ih
      exact (items_stays h _ n).bind fun l => (stays_expect (by decide) _).bind fun _ => stays_pure _
    · exact (stays_expect (by decide) _).bind fun name => ih _

theorem chain_stays {operand : Rule Expr} (h : Stays false operand) (rank n : Nat) (left : Expr) :
    Stays false (chain operand rank n left) := by
  induction n generalizing left with
  | zero => exact stays_pure left
  | succ n ih =>
    unfold chain
    exact stays_take?_bind (by simp [operatorRank?]) (fun operator _ => h.bind fun right => ih _)
      (stays_pure left)

theorem operation_stays {inner : Nat → Rule Expr} (h : ∀ rank, Stays false (inner rank))
    (n rank : Nat) : Stays false (operation inner n rank) := by
  induction rank with
  | zero =>
    refine stays_take?_bind rfl (fun operator _ => (h 0).bind fun e => stays_pure _) ?_
    exact (primary_stays (h _)).bind fun e => suffixes_stays (h _) n e
  | succ rank ih => exact ih.bind fun e => chain_stays (h rank) (rank + 1) n e

theorem assignTo_stays (target : Expr) (equal : Token) (value : Expr) :
    Stays false (assignTo target equal value) := by
  match target with
  | .variable node name => exact stays_pure _
  | .get object name => exact stays_pure _
  | .literal _ | .grouping _ | .unary _ _ | .binary _ _ _ | .logical _ _ _ | .assign _ _ _
  | .call _ _ _ | .set _ _ _ | .this _ _ | .super _ _ _ =>
    exact (stays_report _ _).bind fun _ => stays_pure _

theorem ranked_stays (n rank : Nat) : Stays false (ranked n rank) := by
  induction n generalizing rank with
  | zero => exact stays_fail _
  | succ n ih =>
    unfold ranked
    split
    · exact operation_stays ih n rank
    · refine (operation_stays ih n _).bind fun target => stays_take?_bind rfl (fun equal _ => ?_) ?_
      · exact (ih _).bind fun value => assignTo_stays target equal value
      · exact stays_pure target

theorem expression_stays (n : Nat) : Stays false (expression n) :=
  ranked_stays n assignmentRank

end Expressions

/-! ### Statements -/

theorem terminated_stays (n : Nat) (missing : Expected) : Stays true (terminated n missing) :=
  (expression_stays n).bind fun e => (stays_expect_semicolon missing).map fun _ => e

theorem function_stays (p : Parts) (form : FunctionForm) : Stays c (function p form) := by
  refine (stays_expect (by decide) _).bind fun name => (stays_expect (by decide) _).bind fun _ => ?_
  refine (items_stays (stays_expect (by decide) _) _ _).bind fun parameters => ?_
  exact (stays_expect (by decide) _).bind fun _ => stays_expect_brace _

theorem classDeclaration_stays (p : Parts) : Stays c (classDeclaration p) := by
  have hsuper : Stays false superclassReference :=
    (stays_expect (by decide) _).bind fun _ => stays_fresh.bind fun _ => stays_pure _
  refine (stays_expect (by decide) _).bind fun name => ?_
  exact (stays_behind? (by decide) hsuper).bind fun superclass => stays_expect_brace _

theorem varDeclaration_stays (p : Parts) : Stays true (varDeclaration p) := by
  refine (stays_expect (by decide) _).bind fun name => ?_
  refine (stays_behind? (by decide) (expression_stays p.bound)).bind fun initial => ?_
  exact (stays_expect_semicolon _).map fun _ => _

section Parts

variable {p : Parts} (hp : Stays true p.statement)

include hp

theorem ifStatement_stays : Stays true (ifStatement p) := by
  refine (stays_expect (by decide) _).bind fun _ => (expression_stays _).bind fun condition => ?_
  refine (stays_expect (by decide) _).bind fun _ => hp.bind_idle (fun consequent => ?_) ?_
  · exact (stays_behind? (by decide) hp).map _
  · intro consequent s hs
    obtain ⟨alternative, s', hrun, hs'⟩ := idle_behind? (.keyword .else) s hs
    refine ⟨.if condition consequent alternative, s', ?_, hs'⟩
    rw [bind_run, hrun]
    rfl

theorem whileStatement_stays : Stays true (whileStatement p) := by
  refine (stays_expect (by decide) _).bind fun _ => (expression_stays _).bind fun condition => ?_
  exact (stays_expect (by decide) _).bind fun _ => hp.map _

omit hp in
theorem returnStatement_stays (keyword : Token) : Stays true (returnStatement p keyword) := by
  refine Stays.bind (x := expressionUnless (.mark .semicolon) p.bound) ?_ fun value => ?_
  · refine (stays_nextIs _).bind fun isEnd => ?_
    cases isEnd with
    | true => exact stays_pure _
    | false => exact (expression_stays _).map _
  · exact (stays_expect_semicolon _).map fun _ => _

theorem statementOf_stays : Stays true (statementOf p) := by
  refine stays_peek.bind fun t => stays_accept_absent (.inr rfl) ?_
  refine stays_accept_bind (by decide) (ifStatement_stays hp) ?_
  refine stays_accept_bind (by decide) ((terminated_stays _ _).map _) ?_
  refine stays_accept_bind (by decide) (returnStatement_stays t) ?_
  refine stays_accept_bind (by decide) (whileStatement_stays hp) ?_
  exact stays_accept_absent (.inl rfl) ((terminated_stays _ _).map _)

/-- Whatever is wrong with a declaration of flat tokens is found at one of them. -/
theorem declarationOf_stays : Stays true (declarationOf p) := by
  refine stays_accept_bind (by decide) (classDeclaration_stays p) ?_
  refine stays_accept_bind (by decide) ((function_stays p .function).map _) ?_
  exact stays_accept_bind (by decide) (varDeclaration_stays p) (statementOf_stays hp)

end Parts

theorem statement_stays (n : Nat) : Stays true (statement n) := by
  induction n with
  | zero => exact stays_fail _
  | succ n ih => exact statementOf_stays (p := ⟨n, statement n, declarations n⟩) ih

end Rule
end Treewalk
