import Treewalk.Proofs.Tree.Sound
/-!
# Derived sentences are read

`Rule.GoesOn x l y r Q` says that on the tokens `l` the rule `x` comes, without an error, to `y b` on
the tokens `r`, for some `b` with the property `Q`. Every derived sentence is read to its end as its
tree, provided that the token behind it could not be read as a part of it. With the other direction
this makes the reader accept exactly the sentences of the grammar (`parseTokens_accepts_iff`).
-/

namespace Treewalk
namespace Rule

variable {α β γ δ : Type}

def GoesOn (x : Rule α) (l : List Token) (y : β → Rule α) (r : List Token) (Q : β → Prop) : Prop :=
  ∀ finish next errors, ∃ b next', Q b ∧
    x ⟨l, finish, next, errors⟩ = y b ⟨r, finish, next', errors⟩

/-- The rule reads the tokens `l` as far as `r`. -/
abbrev Completes (x : Rule α) (l r : List Token) (Q : α → Prop) : Prop :=
  GoesOn x l pure r Q

section GoesOn

variable {x : Rule α} {y : β → Rule α} {l r r' : List Token} {Q : β → Prop} {t : Token} {k : Kind}

theorem goesOn_refl {b : β} (h : Q b) : GoesOn (y b) l y l Q :=
  fun _ next _ => ⟨b, next, h, rfl⟩

theorem goesOn_now (b : β) (h : Q b) (hx : x = y b) : GoesOn x l y l Q :=
  fun _ next _ => ⟨b, next, h, hx ▸ rfl⟩

theorem GoesOn.trans {z : γ → Rule α} {R : γ → Prop} (h : GoesOn x l y r Q)
    (h' : ∀ b, Q b → GoesOn (y b) r z r' R) : GoesOn x l z r' R := by
  intro finish next errors
  obtain ⟨b, next', hb, hx⟩ := h finish next errors
  obtain ⟨c, next'', hc, hy⟩ := h' b hb finish next' errors
  exact ⟨c, next'', hc, hx.trans hy⟩

/-- What a rule comes to goes on in front of what is behind it. -/
theorem GoesOn.bind {x : Rule γ} {y : β → Rule γ} (f : γ → Rule α) (h : GoesOn x l y r Q) :
    GoesOn (x >>= f) l (fun b => y b >>= f) r Q := by
  intro finish next errors
  obtain ⟨b, next', hb, hx⟩ := h finish next errors
  refine ⟨b, next', hb, ?_⟩
  show _ = (y b >>= f) _
  rw [bind_run, bind_run, hx]

/-- A rule that is read to its end is followed by what is behind it. -/
theorem Completes.bind {x : Rule γ} {f : γ → Rule α} {P : γ → Prop} (h : Completes x l r P)
    (hf : ∀ c, P c → GoesOn (f c) r y r' Q) : GoesOn (x >>= f) l y r' Q :=
  (GoesOn.bind f h).trans fun c hc => (pure_bind c f).symm ▸ hf c hc

theorem GoesOn.expect {what : Expected} {f : Token → Rule α} (ht : t.kind = k)
    (h : GoesOn (f t) l y r Q) : GoesOn (expect k what >>= f) (t :: l) y r Q := by
  intro finish next errors
  obtain ⟨b, next', hb, hx⟩ := h finish next errors
  refine ⟨b, next', hb, ?_⟩
  rw [← hx]
  unfold Rule.expect
  rw [bind_assoc, bind_run, take?_cons, if_pos (decide_eq_true ht)]
  rfl

theorem GoesOn.accept {f : Bool → Rule α} (ht : t.kind = k) (h : GoesOn (f true) l y r Q) :
    GoesOn (accept k >>= f) (t :: l) y r Q := by
  intro finish next errors
  obtain ⟨b, next', hb, hx⟩ := h finish next errors
  exact ⟨b, next', hb, by rw [← hx, bind_run, accept_cons ht]⟩

theorem GoesOn.accept_not {f : Bool → Rule α} (ht : NotNext k l) (h : GoesOn (f false) l y r Q) :
    GoesOn (Rule.accept k >>= f) l y r Q := by
  intro finish next errors
  obtain ⟨b, next', hb, hx⟩ := h finish next errors
  refine ⟨b, next', hb, ?_⟩
  rw [← hx, bind_run]
  cases l with
  | nil => rw [accept_nil]
  | cons t l => rw [accept_cons_of_ne (ht t rfl)]

theorem GoesOn.take? {wanted : Kind → Bool} {f : Option Token → Rule α}
    (ht : wanted t.kind = true) (h : GoesOn (f (some t)) l y r Q) :
    GoesOn (take? wanted >>= f) (t :: l) y r Q := by
  intro finish next errors
  obtain ⟨b, next', hb, hx⟩ := h finish next errors
  exact ⟨b, next', hb, by rw [← hx, bind_run, take?_cons, if_pos ht]⟩

theorem GoesOn.take?_not {wanted : Kind → Bool} {f : Option Token → Rule α}
    (ht : ∀ t ∈ l.head?, wanted t.kind = false) (h : GoesOn (f none) l y r Q) :
    GoesOn (Rule.take? wanted >>= f) l y r Q := by
  intro finish next errors
  obtain ⟨b, next', hb, hx⟩ := h finish next errors
  refine ⟨b, next', hb, ?_⟩
  rw [← hx, bind_run]
  cases l with
  | nil => rw [take?_nil]
  | cons t l => rw [take?_cons, if_neg (by simp [ht t rfl])]

theorem GoesOn.nextIs {f : Bool → Rule α} (ht : t.kind = k) (h : GoesOn (f true) (t :: l) y r Q) :
    GoesOn (nextIs k >>= f) (t :: l) y r Q := by
  intro finish next errors
  obtain ⟨b, next', hb, hx⟩ := h finish next errors
  refine ⟨b, next', hb, ?_⟩
  rw [← hx, ← decide_eq_true ht]
  rfl

theorem GoesOn.nextIs_not {f : Bool → Rule α} (ht : NotNext k l) (h : GoesOn (f false) l y r Q) :
    GoesOn (Rule.nextIs k >>= f) l y r Q := by
  intro finish next errors
  obtain ⟨b, next', hb, hx⟩ := h finish next errors
  refine ⟨b, next', hb, ?_⟩
  rw [← hx]
  cases l with
  | nil => rfl
  | cons t l => rw [← decide_eq_false (ht t rfl)]; rfl

theorem GoesOn.fresh {f : NodeId → Rule α} (h : ∀ i, GoesOn (f i) l y r Q) :
    GoesOn (fresh >>= f) l y r Q :=
  fun finish next errors => h next finish (next + 1) errors

theorem GoesOn.peek {f : Token → Rule α} (h : GoesOn (f t) (t :: l) y r Q) :
    GoesOn (peek >>= f) (t :: l) y r Q := h

end GoesOn

/-! ### What may stand behind an expression -/

/-- The token behind an operation of a rank below `rank` is none of the operation's own. -/
def Behind (rank : Nat) (rest : List Token) : Prop :=
  ∀ t ∈ rest.head?, t.kind ≠ .mark .leftParen ∧ t.kind ≠ .mark .dot ∧
    ∀ j < rank, operatorRank? t.kind ≠ some j

/-- The token behind an expression is none of the expression's own. -/
def BehindExpression (rest : List Token) : Prop :=
  Behind assignmentRank rest ∧ NotNext (.mark .equal) rest

theorem Behind.mono {rank rank' : Nat} {rest : List Token} (h : Behind rank rest)
    (hr : rank' ≤ rank) : Behind rank' rest :=
  fun t ht => ⟨(h t ht).1, (h t ht).2.1, fun j hj => (h t ht).2.2 j (Nat.lt_of_lt_of_le hj hr)⟩

theorem behindExpression_cons {t : Token} {rest : List Token}
    (h : t.kind = .mark .rightParen ∨ t.kind = .mark .comma ∨ t.kind = .mark .semicolon) :
    BehindExpression (t :: rest) := by
  refine ⟨fun t' ht => ?_, fun t' ht => ?_⟩ <;> obtain rfl := Option.some.inj ht <;>
    rcases h with h | h | h <;> simp [h, operatorRank?]

theorem behind_equal {t : Token} {rest : List Token} (h : t.kind = .mark .equal) (rank : Nat) :
    Behind rank (t :: rest) := by
  intro t' ht
  obtain rfl := Option.some.inj ht
  simp [h, operatorRank?]

theorem behind_operator {t : Token} {rank : Nat} {rest : List Token}
    (h : operatorRank? t.kind = some rank) : Behind rank (t :: rest) := by
  intro t' ht
  obtain rfl := Option.some.inj ht
  refine ⟨fun hk => ?_, fun hk => ?_, fun j hj hk => ?_⟩
  · rw [hk] at h; cases h
  · rw [hk] at h; cases h
  · rw [hk] at h
    exact absurd (Option.some.inj h) (Nat.ne_of_lt hj)

/-! ### Expressions -/

theorem suffixes_completes {inner : Rule Expr} {rest : List Token} (h : Behind 0 rest)
    (fuel : Nat) (e : Expr) : Completes (suffixes inner fuel e) rest rest (· = e) := by
  cases fuel with
  | zero => exact goesOn_refl rfl
  | succ fuel =>
    refine GoesOn.accept_not (fun t ht => (h t ht).1) ?_
    refine GoesOn.accept_not (fun t ht => (h t ht).2.1) ?_
    exact goesOn_refl rfl

theorem chain_completes {operand : Rule Expr} {rank : Nat} {rest : List Token}
    (h : Behind (rank + 1) rest) (fuel : Nat) (e : Expr) :
    Completes (chain operand rank fuel e) rest rest (· = e) := by
  cases fuel with
  | zero => exact goesOn_refl rfl
  | succ fuel =>
    refine GoesOn.take?_not (fun t ht => ?_) ?_
    · simpa using (h t ht).2.2 rank (Nat.lt_succ_self rank)
    · exact goesOn_refl rfl

/-- What is left to do behind the operands so far of an operation of the rank. -/
def further (inner : Nat → Rule Expr) : (rank fuel : Nat) → Expr → Rule Expr
  | 0, _, e => pure e
  | rank + 1, fuel, e => chain (inner rank) (rank + 1) fuel e

theorem further_completes {inner : Nat → Rule Expr} {rank : Nat} {rest : List Token}
    (h : Behind (rank + 1) rest) (fuel : Nat) (e : Expr) :
    Completes (further inner rank fuel e) rest rest (· = e) := by
  cases rank with
  | zero => exact goesOn_refl rfl
  | succ rank => exact chain_completes h fuel e

/-- A unary expression is an operation of every rank. -/
theorem operation_completes {inner : Nat → Rule Expr} {l rest : List Token} {fuel rank : Nat}
    {Q : Expr → Prop} (h : Completes (unary inner fuel) l rest Q) (hrest : Behind (rank + 1) rest) :
    Completes (operation inner fuel rank) l rest Q := by
  induction rank with
  | zero => exact h
  | succ rank ih =>
    refine (ih (hrest.mono (Nat.le_succ _))).bind fun e he => ?_
    refine (chain_completes hrest fuel e).trans ?_
    rintro _ rfl
    exact goesOn_refl he

theorem unary_goesOn {inner : Nat → Rule Expr} {t : Token} {l r : List Token} {fuel : Nat}
    {y : β → Rule Expr} {Q : β → Prop} (ht : isUnaryOperator t.kind = false)
    (h : GoesOn (do suffixes (inner assignmentRank) fuel (← primary (inner assignmentRank)))
      (t :: l) y r Q) : GoesOn (unary inner fuel) (t :: l) y r Q :=
  GoesOn.take?_not (fun _ ht' => Option.some.inj ht' ▸ ht) h

theorem consumed_completes {t : Token} {l : List Token} {e : Expr} {Q : Expr → Prop} (h : Q e) :
    Completes (primary.consumed t e) (t :: l) l Q :=
  GoesOn.accept rfl (goesOn_refl h)

theorem variable_completes {inner : Rule Expr} {name : Token} {l : List Token}
    (h : name.kind = .identifier) :
    Completes (primary inner) (name :: l) l fun e => ∃ i, e = .variable i name := by
  refine GoesOn.peek ?_
  rw [h]
  exact GoesOn.fresh fun i => consumed_completes ⟨i, rfl⟩

/-- Behind its target an assignment goes on with the value. -/
theorem assignment_completes {inner : Nat → Rule Expr} {l r rest : List Token} {equal : Token}
    {fuel : Nat} {P Q R : Expr → Prop} (he : equal.kind = .mark .equal)
    (ht : Completes (operation inner fuel 6) l (equal :: r) P)
    (hv : Completes (inner assignmentRank) r rest Q)
    (hR : ∀ target value, P target → Q value → ∃ e, assignTo target equal value = pure e ∧ R e) :
    Completes (assignment inner fuel) l rest R := by
  refine ht.bind fun target htarget => GoesOn.take? (decide_eq_true he) ?_
  refine hv.bind fun value hvalue => ?_
  obtain ⟨e, he, hR⟩ := hR target value htarget hvalue
  exact he ▸ goesOn_refl hR

theorem ranked_succ {rank : Nat} (h : rank < assignmentRank) (n : Nat) :
    ranked (n + 1) rank = operation (ranked n) n rank :=
  if_pos h

theorem operatorRank?_lt {k : Kind} {rank : Nat} (h : operatorRank? k = some rank) :
    rank < assignmentRank := by
  unfold operatorRank? at h
  split at h <;> cases h <;> decide

/-- With nothing more of its own behind it, an operation is complete. -/
theorem GoesOn.completes {inner : Nat → Rule Expr} {l rest : List Token} {fuel rank : Nat}
    {e : Expr} (h : GoesOn (operation inner fuel rank) l
      (fun b : Nat × Expr => further inner rank b.1 b.2) rest
      fun b => rest.length ≤ b.1 ∧ b.2.anonymous = e) (hrest : Behind (rank + 1) rest) :
    Completes (operation inner fuel rank) l rest (·.anonymous = e) :=
  h.trans fun b hb => (further_completes hrest b.1 b.2).trans fun _ h => goesOn_refl (h ▸ hb.2)

theorem primary_head {u : List Token} {e : Expr} (h : Grammar.Primary u e) :
    ∃ t v, u = t :: v ∧ isUnaryOperator t.kind = false := by
  cases h <;> exact ⟨_, _, rfl, by simp_all [isUnaryOperator]⟩

theorem notNext_of_leads {k : Kind} {u w : List Token} (h : Grammar.Leads u)
    (hk : Grammar.leads k = false) : NotNext k (u ++ w) := by
  obtain ⟨t, v, rfl, ht⟩ := h
  intro t' ht' hk'
  obtain rfl := Option.some.inj ht'
  rw [← hk', ht] at hk
  cases hk

theorem exists_eq_succ {n m : Nat} (h : m < n) : ∃ k, n = k + 1 :=
  ⟨n - 1, by omega⟩

mutual

theorem expression_reads {u : List Token} {e : Expr} : Grammar.Expression u e →
    ∀ {n r}, (u ++ r).length ≤ n + 1 → BehindExpression r →
      Completes (ranked (n + 1) assignmentRank) (u ++ r) r (·.anonymous = e)
  | @Grammar.Expression.assign name equal u value hn he hv, n, rest, hlength, hrest => by
    simp only [List.cons_append, List.length_cons] at hlength
    have htarget : Completes (primary (ranked n assignmentRank) >>= suffixes (ranked n assignmentRank) n)
        (name :: equal :: (u ++ rest)) (equal :: (u ++ rest)) fun e => ∃ i, e = .variable i name :=
      (variable_completes hn).bind fun e he' =>
        (suffixes_completes (behind_equal he 0) n e).trans fun _ h => goesOn_refl (h ▸ he')
    obtain ⟨n, rfl⟩ := exists_eq_succ (show 0 < n by omega)
    refine assignment_completes he
      (operation_completes (unary_goesOn (by rw [hn]; rfl) htarget) (behind_equal he _))
      (expression_reads hv (by omega) hrest) ?_
    rintro _ value ⟨i, rfl⟩ hvalue
    exact ⟨_, rfl, by simp [hvalue]⟩
  | @Grammar.Expression.set name equal dot u w object value ho hd hn he hv, n, rest, hlength,
      hrest => by
    have hu := List.length_pos_of_ne_nil ho.leads.ne_nil
    simp only [List.append_assoc, List.cons_append, List.length_append, List.length_cons] at hlength
    have htarget : Completes (unary (ranked n) n) (u ++ dot :: name :: equal :: (w ++ rest))
        (equal :: (w ++ rest)) fun e => ∃ o, e = .get o name ∧ o.anonymous = object := by
      refine (call_reads ho (by simp; omega)).trans ?_
      rintro ⟨m, o⟩ ⟨hm, hobject⟩
      obtain ⟨m, rfl⟩ := exists_eq_succ hm
      refine GoesOn.accept_not (by simp [NotNext, hd]) <| GoesOn.accept hd <| GoesOn.expect hn ?_
      refine (suffixes_completes (behind_equal he 0) m _).trans ?_
      rintro _ rfl
      exact goesOn_refl ⟨o, rfl, hobject⟩
    obtain ⟨n, rfl⟩ := exists_eq_succ (show 0 < n by omega)
    rw [List.append_assoc]
    refine assignment_completes he (operation_completes htarget (behind_equal he _))
      (expression_reads hv (by simp; omega) hrest) ?_
    rintro _ value ⟨o, rfl, hobject⟩ hvalue
    exact ⟨_, rfl, by simp [hobject, hvalue]⟩
  | .operation h, n, rest, hlength, hrest => by
    refine ((operation_reads h hlength (hrest.1.mono (by decide))).completes hrest.1).bind ?_
    intro e he
    refine GoesOn.take?_not (fun t ht => ?_) (goesOn_refl he)
    simpa using hrest.2 t ht

theorem operation_reads {rank : Nat} {u : List Token} {e : Expr} : Grammar.Operation rank u e →
    ∀ {n r}, (u ++ r).length ≤ n + 1 → Behind rank r →
      GoesOn (operation (ranked n) n rank) (u ++ r)
        (fun b : Nat × Expr => further (ranked n) rank b.1 b.2) r
        fun b : Nat × Expr => r.length ≤ b.1 ∧ b.2.anonymous = e
  | .unary h, n, rest, hlength, hrest => by
    refine (unary_reads h hlength hrest).trans fun e he => ?_
    exact goesOn_now (rest.length, e) ⟨Nat.le_refl _, he⟩ rfl
  | .operand h, n, rest, hlength, hrest => by
    have hu := List.length_pos_of_ne_nil h.leads.ne_nil
    rw [List.length_append] at hlength
    refine ((operation_reads h (by simpa) (hrest.mono (Nat.le_succ _))).completes hrest).bind ?_
    intro e he
    exact goesOn_now (n, e) ⟨by omega, he⟩ rfl
  | @Grammar.Operation.operation level operator u w left right hl ho hr, n, rest, hlength,
      hrest => by
    have hu := List.length_pos_of_ne_nil hl.leads.ne_nil
    have hrank := operatorRank?_of_mem _ ho
    simp only [List.append_assoc, List.cons_append, List.length_append, List.length_cons] at hlength
    rw [List.append_assoc]
    refine (operation_reads hl (by simp; omega) (behind_operator hrank)).trans ?_
    rintro ⟨m, left'⟩ ⟨hm, hleft⟩
    obtain ⟨m, rfl⟩ := exists_eq_succ hm
    obtain ⟨n, rfl⟩ := exists_eq_succ (show 0 < n by omega)
    refine GoesOn.take? (decide_eq_true hrank) ?_
    have hright := (operation_reads hr (n := n) (r := rest) (by simp; omega)
      (hrest.mono (Nat.le_succ _))).completes hrest
    rw [← ranked_succ (Nat.lt_of_succ_lt (operatorRank?_lt hrank))] at hright
    refine hright.bind fun right' hright' => ?_
    refine goesOn_now (m, join left' operator right') ⟨?_, ?_⟩ rfl
    · simp at hm ⊢
      omega
    · rw [← hleft, ← hright']
      exact join_anonymous hrank left' right'

theorem unary_reads {u : List Token} {e : Expr} : Grammar.Unary u e →
    ∀ {n r}, (u ++ r).length ≤ n + 1 → Behind 0 r →
      Completes (unary (ranked n) n) (u ++ r) r (·.anonymous = e)
  | .operator ho h, n, rest, hlength, hrest => by
    have hu := List.length_pos_of_ne_nil h.leads.ne_nil
    simp only [List.cons_append, List.length_append, List.length_cons] at hlength
    obtain ⟨n, rfl⟩ := exists_eq_succ (show 0 < n by omega)
    refine GoesOn.take? (by simpa [isUnaryOperator] using ho) ?_
    refine Completes.bind (unary_reads h (n := n) (by simp; omega) hrest) fun e he => ?_
    exact goesOn_refl (by simp [he])
  | .call h, n, rest, hlength, hrest =>
    (call_reads h hlength).trans fun b hb =>
      (suffixes_completes hrest b.1 b.2).trans fun _ h => goesOn_refl (h ▸ hb.2)

theorem call_reads {u : List Token} {e : Expr} : Grammar.Call u e →
    ∀ {n r}, (u ++ r).length ≤ n + 1 →
      GoesOn (unary (ranked n) n) (u ++ r)
        (fun b : Nat × Expr => suffixes (ranked n assignmentRank) b.1 b.2) r
        fun b : Nat × Expr => r.length ≤ b.1 ∧ b.2.anonymous = e
  | .primary h, n, rest, hlength => by
    have hp := primary_reads h hlength
    obtain ⟨t, v, rfl, ht⟩ := primary_head h
    simp only [List.cons_append, List.length_append, List.length_cons] at hlength
    refine unary_goesOn ht (hp.bind fun e he => ?_)
    exact goesOn_now (n, e) ⟨by omega, he⟩ rfl
  | @Grammar.Call.call opening closing u w callee arguments h ho ha hc, n, rest, hlength => by
    have hu := List.length_pos_of_ne_nil h.leads.ne_nil
    simp only [List.append_assoc, List.cons_append, List.nil_append, List.length_append,
      List.length_cons] at hlength ⊢
    refine (call_reads h (by simp; omega)).trans ?_
    rintro ⟨m, callee'⟩ ⟨hm, hcallee⟩
    obtain ⟨m, rfl⟩ := exists_eq_succ hm
    simp only [List.length_cons, List.length_append] at hm
    refine GoesOn.accept ho ?_
    have harguments : Completes (callArguments (ranked n assignmentRank) m callee')
        (w ++ closing :: rest) rest (·.anonymous = .call callee closing arguments) :=
      (arguments_reads ha (by simp; omega) (by omega) hc).bind fun as has =>
        GoesOn.expect hc (goesOn_refl (by simp [hcallee, has]))
    refine harguments.bind fun e he => ?_
    exact goesOn_now (m, e) ⟨by omega, he⟩ rfl
  | @Grammar.Call.get name dot u object h hd hn, n, rest, hlength => by
    have hu := List.length_pos_of_ne_nil h.leads.ne_nil
    simp only [List.append_assoc, List.cons_append, List.nil_append, List.length_append,
      List.length_cons] at hlength ⊢
    refine (call_reads h (by simp; omega)).trans ?_
    rintro ⟨m, object'⟩ ⟨hm, hobject⟩
    obtain ⟨m, rfl⟩ := exists_eq_succ hm
    simp only [List.length_cons] at hm
    refine GoesOn.accept_not (by simp [NotNext, hd]) <| GoesOn.accept hd <| GoesOn.expect hn ?_
    exact goesOn_now (m, .get object' name) ⟨by omega, by simp [hobject]⟩ rfl

theorem arguments_reads {u : List Token} {es : List Expr} : Grammar.Arguments u es →
    ∀ {n m closing r}, (u ++ closing :: r).length ≤ n → u.length ≤ m →
      closing.kind = .mark .rightParen →
      Completes (items (ranked n assignmentRank) .tooManyArguments m) (u ++ closing :: r)
        (closing :: r) (Expr.anonymousAll · = es)
  | .none, n, m, closing, rest, hlength, hm, hc =>
    GoesOn.nextIs hc (goesOn_refl rfl)
  | .some h hcount, n, m, closing, rest, hlength, hm, hc => by
    exact GoesOn.nextIs_not (notNext_of_leads h.leads (by decide))
      (expressions_reads h hlength hm (by omega) hc)

theorem expressions_reads {u : List Token} {es : List Expr} : Grammar.Expressions u es →
    ∀ {n m count closing r}, (u ++ closing :: r).length ≤ n → u.length ≤ m →
      count + es.length ≤ 255 → closing.kind = .mark .rightParen →
      Completes (commaSeparated (fun count => do
        if maxArity ≤ count then
          report (← peek) .tooManyArguments
        ranked n assignmentRank) m count) (u ++ closing :: r)
        (closing :: r) (Expr.anonymousAll · = es)
  | .one h, n, m, count, closing, rest, hlength, hm, hcount, hc => by
    have hu := List.length_pos_of_ne_nil h.leads.ne_nil
    obtain ⟨m, rfl⟩ := exists_eq_succ (show 0 < m by omega)
    simp only [List.length_append, List.length_cons, List.length_nil] at hlength hcount
    obtain ⟨n, rfl⟩ := exists_eq_succ (show 0 < n by omega)
    unfold commaSeparated
    rw [if_neg (by simp only [maxArity]; omega)]
    refine (expression_reads h (by simp; omega) (behindExpression_cons (.inl hc))).bind ?_
    intro e he
    exact GoesOn.accept_not (by simp [NotNext, hc]) (goesOn_refl (by simp [he]))
  | .more h hcomma hs, n, m, count, closing, rest, hlength, hm, hcount, hc => by
    have hu := List.length_pos_of_ne_nil h.leads.ne_nil
    simp only [List.append_assoc, List.cons_append, List.length_append, List.length_cons] at *
    obtain ⟨m, rfl⟩ := exists_eq_succ (show 0 < m by omega)
    obtain ⟨n, rfl⟩ := exists_eq_succ (show 0 < n by omega)
    unfold commaSeparated
    rw [if_neg (by simp only [maxArity]; omega)]
    refine (expression_reads h (by simp; omega) (behindExpression_cons (.inr (.inl hcomma)))).bind ?_
    intro e he
    refine GoesOn.accept hcomma ?_
    refine (expressions_reads hs (by simp; omega) (by omega) (by omega) hc).bind fun es hes => ?_
    exact goesOn_refl (by simp [he, hes])

theorem primary_reads {u : List Token} {e : Expr} : Grammar.Primary u e →
    ∀ {n r}, (u ++ r).length ≤ n + 1 →
      Completes (primary (ranked n assignmentRank)) (u ++ r) r (·.anonymous = e)
  | .number h, n, rest, _ => by
    refine GoesOn.peek ?_
    rw [h]
    exact consumed_completes rfl
  | .string h, n, rest, _ => by
    refine GoesOn.peek ?_
    rw [h]
    exact consumed_completes rfl
  | .true h, n, rest, _ => by
    refine GoesOn.peek ?_
    rw [h]
    exact consumed_completes rfl
  | .false h, n, rest, _ => by
    refine GoesOn.peek ?_
    rw [h]
    exact consumed_completes rfl
  | .nil h, n, rest, _ => by
    refine GoesOn.peek ?_
    rw [h]
    exact consumed_completes rfl
  | .this h, n, rest, _ => by
    refine GoesOn.peek ?_
    rw [h]
    exact GoesOn.fresh fun i => consumed_completes rfl
  | .variable h, n, rest, _ => by
    refine (variable_completes h).trans ?_
    rintro _ ⟨i, rfl⟩
    exact goesOn_refl rfl
  | .grouping ho h hc, n, rest, hlength => by
    simp only [List.append_assoc, List.cons_append, List.nil_append, List.length_append,
      List.length_cons] at hlength
    obtain ⟨n, rfl⟩ := exists_eq_succ (show 0 < n by omega)
    rw [List.append_assoc]
    refine GoesOn.peek ?_
    rw [ho]
    refine GoesOn.accept ho ?_
    refine (expression_reads h (by simp; omega) (behindExpression_cons (.inl hc))).bind ?_
    intro e he
    exact GoesOn.expect hc (goesOn_refl (by simp [he]))
  | .super h hd hm, n, rest, _ => by
    refine GoesOn.peek ?_
    rw [h]
    refine GoesOn.accept h <| GoesOn.expect hd <| GoesOn.expect hm <| GoesOn.fresh fun i => ?_
    exact goesOn_refl rfl

end

end Rule
end Treewalk
