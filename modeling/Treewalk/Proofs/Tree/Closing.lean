import Treewalk.Proofs.Tree.Locality
/-!
# Statements close their ends

What is behind a statement does not matter to it even if the statement takes up all tokens, as long as
no `else` is behind it: its last token is a semicolon or a brace. So reading with more tokens behind
the given ones agrees, declaration by declaration, with reading the given ones alone.
-/

namespace Treewalk
namespace Rule

variable {b : List Token} {c : Bool} {k d : Nat}

/-- The rules for the parts of statements agree. -/
structure Parts.Agree (b : List Token) (p q : Parts) : Prop where
  bound : p.bound + b.length ≤ q.bound
  statement : Agrees true b p.bound 1 p.statement q.statement
  declarations : Agrees false b p.bound 0 p.declarations q.declarations

section Bind

variable {α β : Type} {x y : Rule α} {g g' : α → Rule β} {d₁ : Nat}

/-- A rule and what follows it, which closes the end with a token of its own. -/
theorem Agrees.andClose (h : Agrees c b k d₁ x y)
    (hg : ∀ a, d₁ ≤ k → Agrees true b (k - d₁) 1 (g a) (g' a)) (hd : d ≤ d₁ + 1) :
    Agrees true b k d (x >>= g) (y >>= g') :=
  h.bind hg hd fun _ => .inr Nat.one_pos

/-- A rule that closes its end and what follows it, which may be nothing. -/
theorem Agrees.closeAnd (h : Agrees true b k d₁ x y)
    (hg : ∀ a, d₁ ≤ k → Agrees true b (k - d₁) 0 (g a) (g' a)) (hd : d ≤ d₁) :
    Agrees true b k d (x >>= g) (y >>= g') :=
  h.bind hg hd .inl

end Bind

/-- What is closed by a token that has to be there. -/
theorem Agrees.closed {α : Type} {kind : Kind} {what : Expected} {x y : Rule α}
    (h : Agrees c b k d x y) :
    Agrees true b k (d + 1) (do let a ← x; let _ ← expect kind what; return a)
      (do let a ← y; let _ ← expect kind what; return a) := by
  refine h.andClose (fun a _ => ?_) (Nat.le_refl _)
  exact (agrees_expect kind what).closeAnd (fun _ _ => agrees_pure a) (Nat.le_refl _)

theorem terminated_agrees {n m : Nat} (hm : n + b.length ≤ m) (missing : Expected) :
    Agrees true b n 1 (terminated n missing) (terminated m missing) :=
  (expression_agrees hm).closed.weaken (Nat.le_refl _) (by omega) id

theorem expressionUnless_agrees {n m : Nat} (hm : n + b.length ≤ m) (kind : Kind) :
    Agrees false b n 0 (expressionUnless kind n) (expressionUnless kind m) := by
  refine (agrees_nextIs kind).andThen (fun isEnd _ => ?_) (Nat.le_refl _)
  cases isEnd with
  | true => exact agrees_pure none
  | false => exact (expression_agrees hm).andThen (fun e _ => agrees_pure (some e)) (Nat.zero_le _)

theorem agrees_atBlockEnd_bind {α : Type} {f g : Bool → Rule α} {a : α} (hf : f true = pure a)
    (hg : g true = pure a)
    (hfalse : ∀ u finish next errors, u.length ≤ k → u ≠ [] → finish.kind = .eof →
      AgreesAt false b 0 (f false) (g false) u finish next errors) :
    Agrees false b k 0 (atBlockEnd >>= f) (atBlockEnd >>= g) := by
  rintro (_ | ⟨t, u⟩) finish next errors hu hfinish
  · refine agrees_ok_of_nil (a := a) (fun _ _ _ => ?_) (fun _ _ _ => ?_) [] finish next errors
      (Nat.le_refl _) hfinish
    · show f true _ = _
      rw [hf]
      rfl
    · show g true _ = _
      rw [hg]
      rfl
  · have hat : ∀ (u : List Token) finish errors, atBlockEnd ⟨t :: u, finish, next, errors⟩ =
        .ok (decide (t.kind = .mark .rightBrace)) ⟨t :: u, finish, next, errors⟩ := fun _ _ _ => rfl
    by_cases ht : t.kind = .mark .rightBrace
    · have hx : (atBlockEnd >>= f) ⟨t :: u, finish, next, errors⟩ =
          .ok a ⟨t :: u, finish, next, errors⟩ := by
        rw [bind_run, hat, decide_eq_true ht]
        show f true _ = _
        rw [hf]
        rfl
      refine .of_ok hx (Nat.le_refl _) fun finish' errors' => ?_
      rw [bind_run, List.cons_append, hat, decide_eq_true ht]
      show g true _ = _
      rw [hg]
      rfl
    · have := hfalse (t :: u) finish next errors hu (List.cons_ne_nil _ _) hfinish
      unfold AgreesAt at this ⊢
      simpa only [bind_run, List.cons_append, hat, decide_eq_false ht] using this

section Parts

variable {p q : Parts} (hp : p.Agree b q)

include hp

theorem block_agrees : Agrees true b p.bound 1 (block p) (block q) :=
  hp.declarations.closed

theorem function_agrees (form : FunctionForm) (hk : k ≤ p.bound) :
    Agrees true b k 1 (function p form) (function q form) := by
  have hbound := hp.bound
  refine (agrees_expect _ _).andClose (fun name _ => ?_) (Nat.le_succ _)
  refine (agrees_expect _ _).andClose (fun _ _ => ?_) (Nat.le_succ _)
  refine ((items_agrees (k := p.bound) ?_ _ (Nat.le_refl _) hbound).weaken (by omega) (Nat.le_refl _)
    id).andClose (fun parameters _ => ?_) (Nat.le_refl _)
  · exact (agrees_expect _ _).weaken (Nat.le_refl _) (Nat.le_refl _) nofun
  refine (agrees_expect _ _).andClose (fun _ _ => ?_) (Nat.le_succ _)
  refine (agrees_expect _ _).andClose (fun _ _ => ?_) (Nat.le_succ _)
  exact ((block_agrees hp).weaken (by omega) (Nat.le_refl _) id).closeAnd (fun _ _ => agrees_pure _)
    (Nat.le_refl _)

theorem methods_agrees {n m l : Nat} (hl : l ≤ p.bound) (hn : l ≤ n) (hm : l + b.length ≤ m) :
    Agrees false b l 0 (methods p n) (methods q m) := by
  have hnil : ∀ (p : Parts) n finish next errors, methods p n ⟨[], finish, next, errors⟩ =
      .ok [] ⟨[], finish, next, errors⟩ := fun p n _ _ _ => by cases n <;> rfl
  induction n generalizing m l with
  | zero =>
    obtain rfl := Nat.le_zero.1 hn
    exact agrees_ok_of_nil (hnil p 0) (hnil q m)
  | succ n ih =>
    obtain rfl | hpos := Nat.eq_zero_or_pos l
    · exact agrees_ok_of_nil (hnil p (n + 1)) (hnil q m)
    obtain ⟨m, rfl⟩ : ∃ m', m = m' + 1 := ⟨m - 1, by omega⟩
    unfold methods
    refine agrees_atBlockEnd_bind rfl rfl fun u finish next errors hu _ hfinish => ?_
    refine (function_agrees hp .method hl).andThen (fun first _ => ?_) (Nat.zero_le _) u finish next
      errors hu hfinish
    exact (ih (by omega) (by omega) (by omega)).andThen (fun _ _ => agrees_pure _) (Nat.le_refl _)

theorem classDeclaration_agrees : Agrees true b p.bound 1 (classDeclaration p) (classDeclaration q) := by
  have hbound := hp.bound
  refine (agrees_expect _ _).andClose (fun name _ => ?_) (Nat.le_succ _)
  refine (agrees_behind? (c := false) (d := 1) (fun _ => ?_) nofun).andClose (fun superclass _ => ?_)
    (Nat.le_refl _)
  · refine (agrees_expect _ _).andThen (fun _ _ => ?_) (Nat.le_refl _)
    exact (agrees_fresh (c := false)).andThen (fun _ _ => agrees_pure _) (Nat.le_refl _)
  refine (agrees_expect _ _).andClose (fun _ _ => ?_) (Nat.le_succ _)
  refine (methods_agrees hp (by omega) (by omega) (by omega)).andClose (fun declared _ => ?_)
    (Nat.le_refl _)
  exact (agrees_expect _ _).closeAnd (fun _ _ => agrees_pure _) (Nat.le_refl _)

theorem varDeclaration_agrees (hk : k ≤ p.bound) :
    Agrees true b k 1 (varDeclaration p) (varDeclaration q) := by
  have hbound := hp.bound
  refine (agrees_expect _ _).andClose (fun name _ => ?_) (Nat.le_succ _)
  refine (agrees_behind? (c := false) (d := 1) (fun _ => ?_) nofun).andClose (fun initial _ => ?_)
    (Nat.le_refl _)
  · exact (expression_agrees hbound).weaken (by omega) (Nat.le_refl _) id
  exact (agrees_expect _ _).closeAnd (fun _ _ => agrees_pure _) (Nat.le_refl _)

theorem forInitial_agrees (hk : k ≤ p.bound) :
    Agrees false b k 1 (forInitial p) (forInitial q) := by
  refine agrees_accept_bind (fun _ => agrees_pure none) ?_ nofun
  refine agrees_accept_bind (fun _ => ?_) ?_ nofun
  · exact (varDeclaration_agrees hp (by omega)).andThen (fun _ _ => agrees_pure _) (Nat.zero_le _)
  · exact ((terminated_agrees hp.bound _).weaken hk (Nat.le_refl _) id).andThen
      (fun _ _ => agrees_pure _) (Nat.le_refl _)

theorem forStatement_agrees : Agrees true b p.bound 0 (forStatement p) (forStatement q) := by
  have hbound := hp.bound
  refine (agrees_expect _ _).andClose (fun _ _ => ?_) (Nat.zero_le _)
  refine (forInitial_agrees hp (by omega)).andClose (fun initial _ => ?_) (Nat.le_succ _)
  refine ((expressionUnless_agrees hbound _).weaken (by omega) (Nat.le_refl _) id).andClose
    (fun condition _ => ?_) (Nat.le_refl _)
  refine (agrees_expect _ _).andClose (fun _ _ => ?_) (Nat.le_succ _)
  refine ((expressionUnless_agrees hbound _).weaken (by omega) (Nat.le_refl _) id).andClose
    (fun increment _ => ?_) (Nat.le_refl _)
  refine (agrees_expect _ _).andClose (fun _ _ => ?_) (Nat.le_succ _)
  exact (hp.statement.weaken (by omega) (Nat.le_refl _) id).closeAnd (fun _ _ => agrees_pure _)
    (Nat.le_refl _)

theorem ifStatement_agrees (helse : NotNext (.keyword .else) b) :
    Agrees true b p.bound 0 (ifStatement p) (ifStatement q) := by
  have hbound := hp.bound
  refine (agrees_expect _ _).andClose (fun _ _ => ?_) (Nat.zero_le _)
  refine ((expression_agrees hbound).weaken (by omega) (Nat.le_refl _) id).andClose
    (fun condition _ => ?_) (Nat.le_succ _)
  refine (agrees_expect _ _).andClose (fun _ _ => ?_) (Nat.le_succ _)
  refine (hp.statement.weaken (by omega) (Nat.le_refl _) id).closeAnd (fun consequent _ => ?_)
    (Nat.le_refl _)
  refine (agrees_behind? (d := 1) (fun _ => ?_) fun _ => helse).closeAnd (fun _ _ => agrees_pure _)
    (Nat.le_refl _)
  exact hp.statement.weaken (by omega) (Nat.le_refl _) id

theorem whileStatement_agrees : Agrees true b p.bound 0 (whileStatement p) (whileStatement q) := by
  have hbound := hp.bound
  refine (agrees_expect _ _).andClose (fun _ _ => ?_) (Nat.zero_le _)
  refine ((expression_agrees hbound).weaken (by omega) (Nat.le_refl _) id).andClose
    (fun condition _ => ?_) (Nat.le_succ _)
  refine (agrees_expect _ _).andClose (fun _ _ => ?_) (Nat.le_succ _)
  exact (hp.statement.weaken (by omega) (Nat.le_refl _) id).closeAnd (fun _ _ => agrees_pure _)
    (Nat.le_refl _)

theorem returnStatement_agrees (keyword : Token) :
    Agrees true b p.bound 0 (returnStatement p keyword) (returnStatement q keyword) := by
  refine (expressionUnless_agrees hp.bound _).andClose (fun value _ => ?_) (Nat.zero_le _)
  exact (agrees_expect _ _).closeAnd (fun _ _ => agrees_pure _) (Nat.le_refl _)

theorem statementOf_agrees (helse : NotNext (.keyword .else) b) :
    Agrees true b (p.bound + 1) 1 (statementOf p) (statementOf q) := by
  have hbound := hp.bound
  refine agrees_peek.andClose (fun t _ => ?_) (Nat.le_refl _)
  refine agrees_accept_bind (fun _ => forStatement_agrees hp) ?_ fun _ => .inl Nat.one_pos
  refine agrees_accept_bind (fun _ => ifStatement_agrees hp helse) ?_ fun _ => .inl Nat.one_pos
  refine agrees_accept_bind (fun _ => ?_) ?_ fun _ => .inl Nat.one_pos
  · exact (terminated_agrees hbound _).closeAnd (fun _ _ => agrees_pure _) (Nat.zero_le _)
  refine agrees_accept_bind (fun _ => returnStatement_agrees hp t) ?_ fun _ => .inl Nat.one_pos
  refine agrees_accept_bind (fun _ => whileStatement_agrees hp) ?_ fun _ => .inl Nat.one_pos
  refine agrees_accept_bind (fun _ => ?_) ?_ fun _ => .inl Nat.one_pos
  · exact (block_agrees hp).closeAnd (fun _ _ => agrees_pure _) (Nat.zero_le _)
  · exact (terminated_agrees (by omega) _).closeAnd (fun _ _ => agrees_pure _) (Nat.le_refl _)

theorem declarationOf_agrees (helse : NotNext (.keyword .else) b) :
    Agrees true b (p.bound + 1) 1 (declarationOf p) (declarationOf q) := by
  refine agrees_accept_bind (fun _ => ?_) ?_ fun _ => .inl Nat.one_pos
  · exact (classDeclaration_agrees hp).weaken (Nat.le_refl _) (Nat.zero_le _) id
  refine agrees_accept_bind (fun _ => ?_) ?_ fun _ => .inl Nat.one_pos
  · exact (function_agrees hp .function (Nat.le_refl _)).closeAnd (fun _ _ => agrees_pure _)
      (Nat.zero_le _)
  refine agrees_accept_bind (fun _ => ?_) (statementOf_agrees hp helse) fun _ => .inl Nat.one_pos
  exact (varDeclaration_agrees hp (Nat.le_refl _)).weaken (Nat.le_refl _) (Nat.zero_le _) id

/-! ### Recovery -/

omit hp in
theorem resume_length_le (previous : Token) (u : List Token) : (resume previous u).length ≤ u.length := by
  induction u generalizing previous with
  | nil => exact Nat.le_refl _
  | cons t u ih =>
    unfold resume
    split
    · exact Nat.le_refl _
    · exact Nat.le_succ_of_le (ih t)

omit hp in
theorem resync_length_le (u : List Token) : (resync u).length ≤ u.length - 1 := by
  cases u with
  | nil => exact Nat.le_refl _
  | cons t u => exact resume_length_le t u

omit hp in
/-- Where reading goes on in front of the end, it does so whatever is behind. -/
theorem resync_append {u : List Token} (h : resync u ≠ []) : resync (u ++ b) = resync u ++ b := by
  have hresume (previous : Token) (u : List Token) (h : resume previous u ≠ []) :
      resume previous (u ++ b) = resume previous u ++ b := by
    induction u generalizing previous with
    | nil => exact absurd rfl h
    | cons t u ih =>
      rw [List.cons_append]
      unfold resume at h ⊢
      split
      next hstop =>
        rw [if_pos hstop] at h
        rfl
      next hstop =>
        rw [if_neg hstop] at h
        exact ih t h
  cases u with
  | nil => exact absurd rfl h
  | cons t u => exact hresume t u h

/-- A declaration that is abandoned is so whatever is behind it, unless that is where reading goes
on. -/
theorem declaration_agrees (helse : NotNext (.keyword .else) b) {u : List Token}
    (hu : u.length ≤ p.bound + 1) (hne : u ≠ []) {finish : Token} (hf : finish.kind = .eof)
    (next : NodeId) (errors : List SyntaxError) :
    AgreesAt false b 1 (modifyGet (declaration p)) (modifyGet (declaration q)) u finish next errors := by
  have hrun (p : Parts) (s : Reading) : (modifyGet (declaration p) : Rule (Option Stmt)) s =
      .ok (declaration p s).1 (declaration p s).2 := rfl
  have hpos := List.length_pos_of_ne_nil hne
  have := declarationOf_agrees hp helse u finish next errors hu hf
  unfold AgreesAt at this ⊢
  simp only [hrun]
  unfold declaration
  cases hx : declarationOf p ⟨u, finish, next, errors⟩ with
  | ok stmt s =>
    simp only [hx] at this ⊢
    obtain ⟨hfinish, hlength, new, herrors, hy⟩ := this
    refine ⟨hfinish, hlength, new, herrors, fun finish' errors' hf' _ => ?_⟩
    rw [hy finish' errors' hf' (.inr (.inl rfl))]
  | error e s =>
    simp only [hx] at this ⊢
    obtain ⟨hfinish, hlength, new, herrors, hy⟩ := this
    have hresync := resync_length_le s.rest
    refine ⟨hfinish, by omega, e :: new, by rw [herrors, List.cons_append], ?_⟩
    intro finish' errors' hf' hunseen
    rw [hy finish' errors' hf' (hunseen.earlier (d := 0) (by omega) fun h => nomatch h)]
    have hrest : resync (s.rest ++ b) = resync s.rest ++ b := by
      rcases hunseen with hne | hc | ⟨rfl, -⟩
      · exact resync_append hne
      · cases hc
      · rw [List.append_nil, List.append_nil]
    simp only [hrest, List.cons_append]

end Parts

theorem statement_failsAtEnd (n : Nat) : FailsAtEnd .expression (statement n) := by
  cases n with
  | zero => exact fun _ _ _ _ => rfl
  | succ n =>
    intro finish next errors hf
    have hexpression := (ranked_failsAtEnd (n + 1) assignmentRank).bind
      (fun e => do let _ ← expect (.mark .semicolon) .expressionEnd; return e)
    exact hexpression.bind (fun e => pure (Stmt.expression e)) finish next errors hf

theorem declarations_nil (n : Nat) (finish : Token) (next : NodeId) (errors : List SyntaxError) :
    declarations n ⟨[], finish, next, errors⟩ = .ok [] ⟨[], finish, next, errors⟩ := by
  cases n <;> rfl

/-- Statements agree with any larger bound, and with tokens behind them. -/
theorem parts_agree (helse : NotNext (.keyword .else) b) {n m : Nat} (hm : n + b.length ≤ m) :
    Parts.Agree b ⟨n, statement n, declarations n⟩ ⟨m, statement m, declarations m⟩ := by
  induction n generalizing m with
  | zero =>
    exact ⟨hm, agrees_error_of_nil (statement_failsAtEnd 0) (statement_failsAtEnd m),
      agrees_ok_of_nil (declarations_nil 0) (declarations_nil m)⟩
  | succ n ih =>
    obtain ⟨m, rfl⟩ : ∃ m', m = m' + 1 := ⟨m - 1, by omega⟩
    have hp := ih (m := m) (by omega)
    refine ⟨hm, statementOf_agrees hp helse, ?_⟩
    show Agrees false b (n + 1) 0 (declarations (n + 1)) (declarations (m + 1))
    unfold declarations
    refine agrees_atBlockEnd_bind rfl rfl fun u finish next errors hu hne hf => ?_
    have hfirst := declaration_agrees hp helse hu hne hf next errors
    refine hfirst.bind hf (fun first _ => ?_) (Nat.zero_le (1 + 0)) nofun
    exact (hp.declarations.weaken (by simp only; omega) (Nat.le_refl _) id).andThen
      (fun _ _ => agrees_pure _) (Nat.le_refl _)

end Rule
end Treewalk
