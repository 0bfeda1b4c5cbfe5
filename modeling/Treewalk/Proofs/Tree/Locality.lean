import Treewalk.Proofs.Tree.Yields
/-!
# What is behind does not matter

A rule only looks at the tokens that it consumes and at the next one. `Rule.Agrees` compares a rule on
some tokens with another, in effect the same with a larger bound, on the same tokens with others
behind them: unless the end of the tokens has been reached, both come to the same result with the same
errors. A rule that closes its own end, as statements do with a semicolon or a brace, does so even if
its last token was the last one at all.

With nothing behind the tokens this says that bounds do not matter as long as they are large enough.
-/

namespace Treewalk
namespace Rule

variable {α β : Type} {b : List Token} {c c' : Bool} {k d d' : Nat}

/-- The tokens `b` behind `rest` do not matter to a rule that left `rest`: some of its own are left,
or it closes its end, or there are none behind and the input has the same end. -/
def Unseen (c : Bool) (b : List Token) (finish finish' : Token) (rest : List Token) : Prop :=
  rest ≠ [] ∨ c = true ∨ b = [] ∧ finish = finish'

/-- The rule `x` on the tokens `u` consumes at least `d` if it succeeds, and `y` with `b` behind them
does the same unless it can see that. -/
def AgreesAt (c : Bool) (b : List Token) (d : Nat) (x y : Rule α) (u : List Token) (finish : Token)
    (next : NodeId) (errors : List SyntaxError) : Prop :=
  match x ⟨u, finish, next, errors⟩ with
  | .ok a s => s.finish = finish ∧ s.rest.length + d ≤ u.length ∧
    ∃ new, s.errors = new ++ errors ∧ ∀ finish' errors', finish'.kind = .eof →
      Unseen c b finish finish' s.rest →
        y ⟨u ++ b, finish', next, errors'⟩ = .ok a ⟨s.rest ++ b, finish', s.next, new ++ errors'⟩
  | .error e s => s.finish = finish ∧ s.rest.length ≤ u.length ∧
    ∃ new, s.errors = new ++ errors ∧ ∀ finish' errors', finish'.kind = .eof →
      Unseen false b finish finish' s.rest →
        y ⟨u ++ b, finish', next, errors'⟩ =
          .error e ⟨s.rest ++ b, finish', s.next, new ++ errors'⟩

/-- The rules agree on up to `k` tokens with `b` behind them. -/
def Agrees (c : Bool) (b : List Token) (k d : Nat) (x y : Rule α) : Prop :=
  ∀ u finish next errors, u.length ≤ k → finish.kind = .eof → AgreesAt c b d x y u finish next errors

/-- What could not be seen at the end could not be seen earlier. -/
theorem Unseen.earlier {finish finish' : Token} {rest rest' : List Token}
    (h : Unseen c b finish finish' rest) (hlength : rest.length + d ≤ rest'.length)
    (hc : c = true → c' = true ∨ 0 < d) : Unseen c' b finish finish' rest' := by
  rcases h with h | h | h
  · have := List.length_pos_of_ne_nil h
    exact .inl (List.ne_nil_of_length_pos (by omega))
  · rcases hc h with hc | hd
    · exact .inr (.inl hc)
    · exact .inl (List.ne_nil_of_length_pos (by omega))
  · exact .inr (.inr h)

section Bind

variable {x y : Rule α} {g g' : α → Rule β} {u : List Token} {finish : Token} {next : NodeId}
  {errors : List SyntaxError}

theorem AgreesAt.weaken (h : AgreesAt c b d x y u finish next errors) (hd : d' ≤ d)
    (hc : c' = true → c = true) : AgreesAt c' b d' x y u finish next errors := by
  unfold AgreesAt at *
  cases hx : x ⟨u, finish, next, errors⟩ with
  | error e s => simpa only [hx] using h
  | ok a s =>
    simp only [hx] at h ⊢
    obtain ⟨hfinish, hlength, new, herrors, hy⟩ := h
    refine ⟨hfinish, by omega, new, herrors, fun finish' errors' hf' hunseen => ?_⟩
    exact hy finish' errors' hf' (hunseen.imp_right (Or.imp_left hc))

theorem Agrees.weaken {k' : Nat} (h : Agrees c b k d x y) (hk : k' ≤ k) (hd : d' ≤ d)
    (hc : c' = true → c = true) : Agrees c' b k' d' x y :=
  fun u finish next errors hu hf =>
    (h u finish next errors (Nat.le_trans hu hk) hf).weaken hd hc

/-- A rule and what follows it. If that consumes something, the rule need not close its end. -/
theorem AgreesAt.bind {d₁ d₂ : Nat} (hf : finish.kind = .eof)
    (h : AgreesAt c' b d₁ x y u finish next errors)
    (hg : ∀ a, d₁ ≤ u.length → Agrees c b (u.length - d₁) d₂ (g a) (g' a))
    (hd : d ≤ d₁ + d₂) (hc : c = true → c' = true ∨ 0 < d₂) :
    AgreesAt c b d (x >>= g) (y >>= g') u finish next errors := by
  unfold AgreesAt at h ⊢
  simp only [bind_run]
  cases hx : x ⟨u, finish, next, errors⟩ with
  | error e s =>
    simp only [hx] at h ⊢
    obtain ⟨hfinish, hlength, new, herrors, hy⟩ := h
    refine ⟨hfinish, hlength, new, herrors, fun finish' errors' hf' hunseen => ?_⟩
    rw [hy finish' errors' hf' hunseen]
  | ok a s =>
    simp only [hx] at h ⊢
    obtain ⟨hfinish, hlength, new, herrors, hy⟩ := h
    have hnext := hg a (by omega) s.rest s.finish s.next s.errors (by omega) (hfinish ▸ hf)
    unfold AgreesAt at hnext
    have hs : g a s = g a ⟨s.rest, s.finish, s.next, s.errors⟩ := rfl
    rw [hs]
    cases hga : g a ⟨s.rest, s.finish, s.next, s.errors⟩ with
    | error e s' =>
      simp only [hga] at hnext ⊢
      obtain ⟨hfinish', hlength', new', herrors', hg'⟩ := hnext
      refine ⟨hfinish'.trans hfinish, by omega, new' ++ new, by simp [herrors', herrors], ?_⟩
      intro finish' errors' hf' hunseen
      have hmiddle : Unseen c' b finish finish' s.rest :=
        hunseen.earlier (d := 0) hlength' (by simp)
      rw [hy finish' errors' hf' hmiddle]
      simp only
      rw [hg' finish' _ hf' (hfinish ▸ hunseen), List.append_assoc]
    | ok a' s' =>
      simp only [hga] at hnext ⊢
      obtain ⟨hfinish', hlength', new', herrors', hg'⟩ := hnext
      refine ⟨hfinish'.trans hfinish, by omega, new' ++ new, by simp [herrors', herrors], ?_⟩
      intro finish' errors' hf' hunseen
      rw [hy finish' errors' hf' (hunseen.earlier hlength' hc)]
      simp only
      rw [hg' finish' _ hf' (hfinish ▸ hunseen), List.append_assoc]

theorem Agrees.bind {d₁ d₂ : Nat} (h : Agrees c' b k d₁ x y)
    (hg : ∀ a, d₁ ≤ k → Agrees c b (k - d₁) d₂ (g a) (g' a)) (hd : d ≤ d₁ + d₂)
    (hc : c = true → c' = true ∨ 0 < d₂) : Agrees c b k d (x >>= g) (y >>= g') := by
  intro u finish next errors hu hf
  refine (h u finish next errors hu hf).bind hf (fun a hd₁ => ?_) hd hc
  exact (hg a (by omega)).weaken (by omega) (Nat.le_refl _) id

/-- A rule and what follows it, which need not close its end. -/
theorem Agrees.andThen {d₁ : Nat} (h : Agrees c b k d₁ x y)
    (hg : ∀ a, d₁ ≤ k → Agrees false b (k - d₁) 0 (g a) (g' a)) (hd : d ≤ d₁) :
    Agrees false b k d (x >>= g) (y >>= g') :=
  h.bind hg hd (by simp)

theorem agrees_pure (a : α) : Agrees c b k 0 (pure a) (pure a) :=
  fun _ _ _ _ _ _ => ⟨rfl, Nat.le_refl _, [], rfl, fun _ _ _ _ => rfl⟩

end Bind

/-! ### The rules that all others are built from -/

section Primitives

variable {x y : Rule α} {f g : Bool → Rule α} {h h' : Option Token → Rule α} {w : Kind → Bool}

theorem agrees_fail (what : Expected) : Agrees c b k d (fail what : Rule α) (fail what) := by
  intro u finish next errors hu hf
  refine ⟨rfl, Nat.le_refl _, [], rfl, fun finish' errors' hf' hunseen => ?_⟩
  rcases hunseen with hne | hc | ⟨rfl, rfl⟩
  · obtain ⟨t, u, rfl⟩ := List.exists_cons_of_ne_nil hne
    rfl
  · cases hc
  · rw [List.append_nil]
    rfl

theorem agrees_report (t : Token) (fault : SyntaxFault) :
    Agrees c b k 0 (report t fault) (report t fault) :=
  fun _ _ _ _ _ _ => ⟨rfl, Nat.le_refl _, [_], rfl, fun _ _ _ _ => rfl⟩

theorem agrees_fresh : Agrees c b k 0 fresh fresh :=
  fun _ _ _ _ _ _ => ⟨rfl, Nat.le_refl _, [], rfl, fun _ _ _ _ => rfl⟩

theorem agrees_peek : Agrees false b k 0 peek peek := by
  intro u finish next errors hu hf
  refine ⟨rfl, Nat.le_refl _, [], rfl, fun finish' errors' hf' hunseen => ?_⟩
  rcases hunseen with hne | hc | ⟨rfl, rfl⟩
  · obtain ⟨t, u, rfl⟩ := List.exists_cons_of_ne_nil hne
    rfl
  · cases hc
  · rw [List.append_nil]
    rfl

theorem agrees_nextIs (kind : Kind) : Agrees false b k 0 (nextIs kind) (nextIs kind) := by
  rintro (_ | ⟨t, u⟩) finish next errors hu hf
  · refine ⟨rfl, Nat.le_refl _, [], rfl, fun finish' errors' hf' hunseen => ?_⟩
    rcases hunseen with hne | hc | ⟨rfl, rfl⟩
    · exact absurd rfl hne
    · cases hc
    · rfl
  · exact ⟨rfl, Nat.le_refl _, [], rfl, fun _ _ _ _ => rfl⟩

theorem take?_of_head {l : List Token} (hl : ∀ t ∈ l.head?, w t.kind = false) {finish : Token}
    {next : NodeId} {errors : List SyntaxError} :
    take? w ⟨l, finish, next, errors⟩ = .ok none ⟨l, finish, next, errors⟩ := by
  cases l with
  | nil => exact take?_nil
  | cons t l => rw [take?_cons, if_neg (by simp [hl t rfl])]

/-- At the end of its tokens a rule that closes its end must not find a token behind them that it
would take. -/
theorem agrees_take?_bind
    (hsome : ∀ t, w t.kind = true → 0 < k → Agrees c b (k - 1) (d - 1) (h (some t)) (h' (some t)))
    (hnone : Agrees c b k d (h none) (h' none))
    (hc : c = true → 0 < d ∨ ∀ t ∈ b.head?, w t.kind = false) :
    Agrees c b k d (take? w >>= h) (take? w >>= h') := by
  rintro (_ | ⟨t, u⟩) finish next errors hu hf
  · have := hnone [] finish next errors hu hf
    unfold AgreesAt at this ⊢
    simp only [bind_run, take?_nil]
    cases hx : h none ⟨[], finish, next, errors⟩ with
    | error e s =>
      simp only [hx] at this ⊢
      obtain ⟨hfinish, hlength, new, herrors, hy⟩ := this
      refine ⟨hfinish, hlength, new, herrors, fun finish' errors' hf' hunseen => ?_⟩
      have hb : b = [] := by
        rcases hunseen with hne | hc | hb
        · exact absurd (List.eq_nil_of_length_eq_zero (Nat.le_zero.1 hlength)) hne
        · cases hc
        · exact hb.1
      rw [← hy finish' errors' hf' hunseen, take?_of_head (by simp [hb])]
    | ok a s =>
      simp only [hx] at this ⊢
      obtain ⟨hfinish, hlength, new, herrors, hy⟩ := this
      refine ⟨hfinish, hlength, new, herrors, fun finish' errors' hf' hunseen => ?_⟩
      rw [List.length_nil] at hlength
      have hb : ∀ t ∈ b.head?, w t.kind = false := by
        rcases hunseen with hne | hc' | hb
        · exact absurd (List.eq_nil_of_length_eq_zero (by omega)) hne
        · exact (hc hc').resolve_left (by omega)
        · simp [hb.1]
      rw [← hy finish' errors' hf' hunseen, List.nil_append, take?_of_head hb]
  · by_cases ht : w t.kind = true
    · simp only [List.length_cons] at hu
      have := hsome t ht (by omega) u finish next errors (by omega) hf
      unfold AgreesAt at this ⊢
      simp only [bind_run, List.cons_append, take?_cons, if_pos ht]
      cases hx : h (some t) ⟨u, finish, next, errors⟩ with
      | error e s =>
        simp only [hx] at this ⊢
        obtain ⟨hfinish, hlength, hnew⟩ := this
        exact ⟨hfinish, by simp only [List.length_cons]; omega, hnew⟩
      | ok a s =>
        simp only [hx] at this ⊢
        obtain ⟨hfinish, hlength, hnew⟩ := this
        exact ⟨hfinish, by simp only [List.length_cons]; omega, hnew⟩
    · have := hnone (t :: u) finish next errors hu hf
      unfold AgreesAt at this ⊢
      simpa only [bind_run, List.cons_append, take?_cons, if_neg ht] using this

theorem agrees_accept_bind {kind : Kind}
    (htrue : 0 < k → Agrees c b (k - 1) (d - 1) (f true) (g true))
    (hfalse : Agrees c b k d (f false) (g false)) (hc : c = true → 0 < d ∨ NotNext kind b) :
    Agrees c b k d (accept kind >>= f) (accept kind >>= g) := by
  unfold accept
  simp only [bind_assoc, pure_bind]
  refine agrees_take?_bind (fun t _ hk => htrue hk) hfalse fun h => (hc h).imp_right ?_
  exact fun hb t ht => decide_eq_false (hb t ht)

theorem agrees_expect (kind : Kind) (what : Expected) :
    Agrees true b k 1 (expect kind what) (expect kind what) :=
  agrees_take?_bind (fun t _ _ => agrees_pure t) (agrees_fail what) fun _ => .inl Nat.one_pos

/-- What is behind an optional token is optional, too. -/
theorem agrees_behind? {kind : Kind} {x y : Rule α}
    (hx : 0 < k → Agrees c b (k - 1) d x y) (hc : c = true → NotNext kind b) :
    Agrees c b k 0 (behind? kind x) (behind? kind y) := by
  refine agrees_accept_bind (fun hk => ?_) (agrees_pure none) fun h => .inr (hc h)
  exact (hx hk).bind (fun a _ => agrees_pure (some a)) (Nat.zero_le _) fun h => .inl h

end Primitives
/-! ### At the end of the input -/

section AtEnd

variable {x y : Rule α}

theorem agrees_ok_of_nil {a : α}
    (hx : ∀ finish next errors, x ⟨[], finish, next, errors⟩ = .ok a ⟨[], finish, next, errors⟩)
    (hy : ∀ finish next errors, y ⟨[], finish, next, errors⟩ = .ok a ⟨[], finish, next, errors⟩) :
    Agrees false b 0 0 x y := by
  intro u finish next errors hu _
  obtain rfl := List.eq_nil_of_length_eq_zero (Nat.le_zero.1 hu)
  unfold AgreesAt
  rw [hx]
  refine ⟨rfl, Nat.le_refl _, [], rfl, fun finish' errors' hf' hunseen => ?_⟩
  rcases hunseen with hne | hc | ⟨rfl, -⟩
  · exact absurd rfl hne
  · cases hc
  · exact hy finish' next errors'

/-- The rule finds that something is missing at the end of the input. -/
def FailsAtEnd (what : Expected) (x : Rule α) : Prop :=
  ∀ finish next errors, finish.kind = .eof →
    x ⟨[], finish, next, errors⟩ = .error ⟨finish, .expected what⟩ ⟨[], finish, next, errors⟩

theorem agrees_error_of_nil {what : Expected} (hx : FailsAtEnd what x) (hy : FailsAtEnd what y) :
    Agrees c b 0 d x y := by
  intro u finish next errors hu hf
  obtain rfl := List.eq_nil_of_length_eq_zero (Nat.le_zero.1 hu)
  unfold AgreesAt
  rw [hx finish next errors hf]
  refine ⟨rfl, Nat.le_refl _, [], rfl, fun finish' errors' hf' hunseen => ?_⟩
  rcases hunseen with hne | hc | ⟨rfl, rfl⟩
  · exact absurd rfl hne
  · cases hc
  · exact hy finish next errors' hf'

theorem FailsAtEnd.bind {what : Expected} (hx : FailsAtEnd what x) (g : α → Rule β) :
    FailsAtEnd what (x >>= g) := by
  intro finish next errors hf
  rw [bind_run, hx finish next errors hf]

theorem primary_failsAtEnd (inner : Rule Expr) : FailsAtEnd .expression (primary inner) := by
  rintro ⟨kind, lexeme, line⟩ next errors hf
  obtain rfl : kind = .eof := hf
  rfl

theorem unary_failsAtEnd (inner : Nat → Rule Expr) (n : Nat) :
    FailsAtEnd .expression (unary inner n) := by
  intro finish next errors hf
  unfold unary
  rw [bind_run, take?_nil]
  exact (primary_failsAtEnd _).bind _ finish next errors hf

theorem operation_failsAtEnd (inner : Nat → Rule Expr) (n rank : Nat) :
    FailsAtEnd .expression (operation inner n rank) := by
  induction rank with
  | zero => exact unary_failsAtEnd inner n
  | succ rank ih => exact ih.bind _

theorem ranked_failsAtEnd (n rank : Nat) : FailsAtEnd .expression (ranked n rank) := by
  cases n with
  | zero => exact fun _ _ _ _ => rfl
  | succ n =>
    unfold ranked
    split
    · exact operation_failsAtEnd _ n rank
    · exact (operation_failsAtEnd _ n _).bind _

theorem suffixes_nil (inner : Rule Expr) (n : Nat) (e : Expr) (finish : Token) (next : NodeId)
    (errors : List SyntaxError) :
    suffixes inner n e ⟨[], finish, next, errors⟩ = .ok e ⟨[], finish, next, errors⟩ := by
  cases n <;> rfl

theorem chain_nil (operand : Rule Expr) (rank n : Nat) (e : Expr) (finish : Token) (next : NodeId)
    (errors : List SyntaxError) :
    chain operand rank n e ⟨[], finish, next, errors⟩ = .ok e ⟨[], finish, next, errors⟩ := by
  cases n <;> rfl

end AtEnd

/-! ### Lists -/

section Items

variable {item item' : Nat → Rule α}

theorem commaSeparated_bind (item : Nat → Rule α) (n count : Nat) :
    ∃ g, commaSeparated item n count = item count >>= g := by
  cases n <;> exact ⟨_, rfl⟩

theorem commaSeparated_agrees (h : ∀ count, Agrees false b k 1 (item count) (item' count))
    {n m l count : Nat} (hl : l ≤ k) (hn : l ≤ n) (hm : l + b.length ≤ m) :
    Agrees false b l 1 (commaSeparated item n count) (commaSeparated item' m count) := by
  induction n generalizing m l count with
  | zero =>
    obtain ⟨g, hg⟩ := commaSeparated_bind item 0 count
    obtain ⟨g', hg'⟩ := commaSeparated_bind item' m count
    rw [hg, hg']
    exact ((h count).weaken hl (Nat.le_refl _) id).andThen (fun a ha => by omega) (Nat.le_refl _)
  | succ n ih =>
    cases m with
    | zero =>
      obtain ⟨g, hg⟩ := commaSeparated_bind item (n + 1) count
      obtain ⟨g', hg'⟩ := commaSeparated_bind item' 0 count
      rw [hg, hg']
      exact ((h count).weaken hl (Nat.le_refl _) id).andThen (fun a ha => by omega) (Nat.le_refl _)
    | succ m =>
      unfold commaSeparated
      refine ((h count).weaken hl (Nat.le_refl _) id).andThen (fun a ha => ?_) (Nat.le_refl _)
      refine agrees_accept_bind (fun hk => ?_) (agrees_pure _) (by simp)
      exact (ih (by omega) (by omega) (by omega)).andThen (fun l _ => agrees_pure _) (Nat.zero_le _)

theorem items_agrees {item item' : Rule α} (h : Agrees false b k 1 item item')
    (tooMany : SyntaxFault) {n m : Nat} (hn : k ≤ n) (hm : k + b.length ≤ m) :
    Agrees false b k 0 (items item tooMany n) (items item' tooMany m) := by
  refine (agrees_nextIs _).andThen (fun isEnd _ => ?_) (Nat.le_refl _)
  cases isEnd with
  | true => exact agrees_pure []
  | false =>
    refine (commaSeparated_agrees (fun count => ?_) (Nat.le_refl _) hn hm).weaken (Nat.le_refl _)
      (Nat.zero_le _) id
    by_cases hc : maxArity ≤ count
    · rw [if_pos hc, if_pos hc]
      refine agrees_peek.bind (fun t _ => ?_) (Nat.le_refl (0 + 1)) (by simp)
      exact (agrees_report t tooMany).bind (fun _ _ => h) (Nat.le_refl _) (fun h => .inl h)
    · rw [if_neg hc, if_neg hc]
      exact h

end Items

/-! ### Expressions -/

section Expressions

variable {x x' y y' : Rule α} {t : Token} {u : List Token} {finish : Token} {next : NodeId}
  {errors : List SyntaxError}

theorem AgreesAt.of_ok {u' : List Token} {next' : NodeId} {a : α}
    (hx : x ⟨u, finish, next, errors⟩ = .ok a ⟨u', finish, next', errors⟩)
    (hlength : u'.length + d ≤ u.length)
    (hy : ∀ finish' errors', y ⟨u ++ b, finish', next, errors'⟩ =
      .ok a ⟨u' ++ b, finish', next', errors'⟩) : AgreesAt c b d x y u finish next errors := by
  unfold AgreesAt
  rw [hx]
  exact ⟨rfl, hlength, [], rfl, fun finish' errors' _ _ => hy finish' errors'⟩

/-- Rules that begin by consuming a token agree if they do so behind it. -/
theorem AgreesAt.step
    (hx : x ⟨t :: u, finish, next, errors⟩ = x' ⟨u, finish, next, errors⟩)
    (hy : ∀ finish' errors', y ⟨t :: (u ++ b), finish', next, errors'⟩ =
      y' ⟨u ++ b, finish', next, errors'⟩)
    (h : AgreesAt c b d x' y' u finish next errors) :
    AgreesAt c b (d + 1) x y (t :: u) finish next errors := by
  unfold AgreesAt at h ⊢
  rw [hx]
  simp only [List.cons_append, hy]
  cases hx' : x' ⟨u, finish, next, errors⟩ with
  | error e s =>
    simp only [hx'] at h ⊢
    exact ⟨h.1, Nat.le_succ_of_le h.2.1, h.2.2⟩
  | ok a s =>
    simp only [hx'] at h ⊢
    exact ⟨h.1, Nat.succ_le_succ h.2.1, h.2.2⟩

theorem consumed_run (e : Expr) : primary.consumed t e ⟨t :: u, finish, next, errors⟩ =
    .ok e ⟨u, finish, next, errors⟩ := by
  unfold primary.consumed
  rw [bind_run, accept_cons rfl]
  rfl

/-- The rest of an expression in parentheses. -/
def grouped (inner : Rule Expr) : Rule Expr := do
  let e ← inner
  let _ ← expect (.mark .rightParen) .groupClosing
  return .grouping e

/-- The rest of a method of `super`. -/
def superMethod (keyword : Token) : Rule Expr := do
  let _ ← expect (.mark .dot) .superDot
  let method ← expect .identifier .superMethodName
  return .super (← fresh) keyword method

theorem grouped_agrees {inner inner' : Rule Expr} (h : Agrees false b k 1 inner inner') :
    Agrees false b k 0 (grouped inner) (grouped inner') := by
  refine h.andThen (fun e _ => ?_) (Nat.zero_le _)
  exact (agrees_expect _ _).andThen (fun _ _ => agrees_pure _) (Nat.zero_le _)

theorem superMethod_agrees (keyword : Token) :
    Agrees false b k 0 (superMethod keyword) (superMethod keyword) := by
  refine (agrees_expect _ _).andThen (fun _ _ => ?_) (Nat.zero_le _)
  refine (agrees_expect _ _).andThen (fun _ _ => ?_) (Nat.zero_le _)
  exact (agrees_fresh (c := false)).andThen (fun _ _ => agrees_pure _) (Nat.le_refl _)

theorem primary_agrees {inner inner' : Rule Expr} (h : Agrees false b k 1 inner inner') :
    Agrees false b (k + 1) 1 (primary inner) (primary inner') := by
  rintro (_ | ⟨⟨kind, lexeme, line⟩, u⟩) finish next errors hu hf
  · exact agrees_error_of_nil (primary_failsAtEnd inner) (primary_failsAtEnd inner') [] finish next
      errors (Nat.le_refl _) hf
  have hlength : u.length ≤ k := by simpa using hu
  have hconsumed (e : Expr) (next' : NodeId) (hx : ∀ inner u finish errors,
      primary inner ⟨⟨kind, lexeme, line⟩ :: u, finish, next, errors⟩ =
        primary.consumed ⟨kind, lexeme, line⟩ e ⟨⟨kind, lexeme, line⟩ :: u, finish, next', errors⟩) :
      AgreesAt false b 1 (primary inner) (primary inner') (⟨kind, lexeme, line⟩ :: u) finish next
        errors :=
    .of_ok ((hx _ _ _ _).trans (consumed_run e)) (Nat.le_refl _)
      fun _ _ => (hx _ _ _ _).trans (consumed_run e)
  have hfail (hx : ∀ inner u finish errors,
      primary inner ⟨⟨kind, lexeme, line⟩ :: u, finish, next, errors⟩ =
        fail .expression ⟨⟨kind, lexeme, line⟩ :: u, finish, next, errors⟩) :
      AgreesAt false b 1 (primary inner) (primary inner') (⟨kind, lexeme, line⟩ :: u) finish next
        errors := by
    unfold AgreesAt
    rw [hx]
    exact ⟨rfl, Nat.le_refl _, [], rfl, fun _ _ _ _ => hx _ _ _ _⟩
  cases kind with
  | number | string => exact hconsumed _ next fun _ _ _ _ => rfl
  | identifier => exact hconsumed (.variable next _) (next + 1) fun _ _ _ _ => rfl
  | eof => exact hfail fun _ _ _ _ => rfl
  | keyword kw =>
    cases kw with
    | «false» | «true» | nil => exact hconsumed _ next fun _ _ _ _ => rfl
    | this => exact hconsumed (.this next _) (next + 1) fun _ _ _ _ => rfl
    | super =>
      exact (superMethod_agrees ⟨_, lexeme, line⟩ u finish next errors hlength hf).step rfl
        fun _ _ => rfl
    | _ => exact hfail fun _ _ _ _ => rfl
  | mark m =>
    cases m with
    | leftParen => exact (grouped_agrees h u finish next errors hlength hf).step rfl fun _ _ => rfl
    | _ => exact hfail fun _ _ _ _ => rfl

theorem callArguments_agrees {inner inner' : Rule Expr} (h : Agrees false b k 1 inner inner')
    {n m : Nat} (hn : k ≤ n) (hm : k + b.length ≤ m) (callee : Expr) :
    Agrees false b k 0 (callArguments inner n callee) (callArguments inner' m callee) := by
  refine (items_agrees h _ hn hm).andThen (fun l _ => ?_) (Nat.zero_le _)
  exact (agrees_expect _ _).andThen (fun _ _ => agrees_pure _) (Nat.zero_le _)

/-- Suffixes, as many as there are. -/
theorem suffixes_agrees {inner inner' : Rule Expr} (h : Agrees false b k 1 inner inner')
    {n m l : Nat} (hl : l ≤ k) (hn : l ≤ n) (hm : l + b.length ≤ m) (e : Expr) :
    Agrees false b l 0 (suffixes inner n e) (suffixes inner' m e) := by
  induction n generalizing m l e with
  | zero =>
    obtain rfl := Nat.le_zero.1 hn
    exact agrees_ok_of_nil (suffixes_nil inner 0 e) (suffixes_nil inner' m e)
  | succ n ih =>
    obtain rfl | hpos := Nat.eq_zero_or_pos l
    · exact agrees_ok_of_nil (suffixes_nil inner (n + 1) e) (suffixes_nil inner' m e)
    obtain ⟨m, rfl⟩ : ∃ m', m = m' + 1 := ⟨m - 1, by omega⟩
    unfold suffixes
    refine agrees_accept_bind (fun _ => ?_) ?_ (by simp)
    · refine (callArguments_agrees (h.weaken (by omega) (Nat.le_refl _) id) (by omega)
        (by omega) e).andThen (fun e' _ => ?_) (Nat.zero_le _)
      exact ih (by omega) (by omega) (by omega) e'
    refine agrees_accept_bind (fun _ => ?_) (agrees_pure e) (by simp)
    refine (agrees_expect _ _).andThen (fun name _ => ?_) (Nat.zero_le _)
    exact ih (by omega) (by omega) (by omega) _

/-- Operations of one rank, as many as there are. -/
theorem chain_agrees {operand operand' : Rule Expr} (h : Agrees false b k 1 operand operand')
    (rank : Nat) {n m l : Nat} (hl : l ≤ k) (hn : l ≤ n) (hm : l + b.length ≤ m) (left : Expr) :
    Agrees false b l 0 (chain operand rank n left) (chain operand' rank m left) := by
  induction n generalizing m l left with
  | zero =>
    obtain rfl := Nat.le_zero.1 hn
    exact agrees_ok_of_nil (chain_nil operand rank 0 left) (chain_nil operand' rank m left)
  | succ n ih =>
    obtain rfl | hpos := Nat.eq_zero_or_pos l
    · exact agrees_ok_of_nil (chain_nil operand rank (n + 1) left) (chain_nil operand' rank m left)
    obtain ⟨m, rfl⟩ : ∃ m', m = m' + 1 := ⟨m - 1, by omega⟩
    unfold chain
    refine agrees_take?_bind (fun operator _ _ => ?_) (agrees_pure left) (by simp)
    refine (h.weaken (by omega) (Nat.le_refl _) id).andThen (fun right _ => ?_) (Nat.zero_le _)
    exact ih (by omega) (by omega) (by omega) _

section Operations

variable {inner inner' : Nat → Rule Expr} {n m : Nat}
  (h : ∀ rank, Agrees false b n 1 (inner rank) (inner' rank)) (hm : n + b.length ≤ m)

include h hm

theorem unary_agrees : Agrees false b (n + 1) 1 (unary inner n) (unary inner' m) := by
  refine agrees_take?_bind (fun operator _ _ => ?_) ?_ (by simp)
  · exact (h 0).andThen (fun e _ => agrees_pure _) (Nat.zero_le _)
  · refine (primary_agrees (h assignmentRank)).andThen (fun e _ => ?_) (Nat.le_refl _)
    exact suffixes_agrees (h assignmentRank) (by omega) (by omega) (by omega) e

theorem operation_agrees (rank : Nat) :
    Agrees false b (n + 1) 1 (operation inner n rank) (operation inner' m rank) := by
  induction rank with
  | zero => exact unary_agrees h hm
  | succ rank ih =>
    refine ih.andThen (fun e _ => ?_) (Nat.le_refl _)
    exact chain_agrees (h rank) (rank + 1) (by omega) (by omega) (by omega) e

omit h hm in
theorem assignTo_agrees (target : Expr) (equal : Token) (value : Expr) :
    Agrees c b k 0 (assignTo target equal value) (assignTo target equal value) := by
  match target with
  | .variable node name => exact agrees_pure _
  | .get object name => exact agrees_pure _
  | .literal _ | .grouping _ | .unary _ _ | .binary _ _ _ | .logical _ _ _ | .assign _ _ _
  | .call _ _ _ | .set _ _ _ | .this _ _ | .super _ _ _ =>
    exact (agrees_report _ _).bind (fun _ _ => agrees_pure _) (Nat.le_refl _) (fun h => .inl h)

theorem assignment_agrees : Agrees false b (n + 1) 1 (assignment inner n) (assignment inner' m) := by
  refine (operation_agrees h hm _).andThen (fun target _ => ?_) (Nat.le_refl _)
  refine agrees_take?_bind (fun equal _ _ => ?_) (agrees_pure _) (by simp)
  refine ((h assignmentRank).weaken (by omega) (Nat.le_refl _) id).andThen
    (fun value _ => ?_) (Nat.zero_le _)
  exact assignTo_agrees target equal value

end Operations

theorem ranked_agrees {n m : Nat} (hm : n + b.length ≤ m) (rank : Nat) :
    Agrees false b n 1 (ranked n rank) (ranked m rank) := by
  induction n generalizing m rank with
  | zero => exact agrees_error_of_nil (ranked_failsAtEnd 0 rank) (ranked_failsAtEnd m rank)
  | succ n ih =>
    obtain ⟨m, rfl⟩ : ∃ m', m = m' + 1 := ⟨m - 1, by omega⟩
    have hm : n + b.length ≤ m := by omega
    unfold ranked
    split
    · exact operation_agrees (ih hm) hm rank
    · exact assignment_agrees (ih hm) hm

theorem expression_agrees {n m : Nat} (hm : n + b.length ≤ m) :
    Agrees false b n 1 (expression n) (expression m) :=
  ranked_agrees hm assignmentRank

end Expressions
end Rule
end Treewalk
