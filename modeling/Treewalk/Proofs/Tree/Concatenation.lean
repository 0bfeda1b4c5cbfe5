import Treewalk.Proofs.Tree.Closing
import Treewalk.Proofs.Tree.Flat
import Treewalk.Proofs.Tree.Sound
/-!
# Reading what is put together

Tokens that are read without an error, or that are flat, are read as they are alone whatever is behind
them, but for an `else`, at the top as well as in a block: reading goes on exactly behind them, and
their errors are reported as ever (`parseTokens_append`).
-/

namespace Treewalk
namespace Rule

variable {b : List Token} {n m : Nat}

/-- The tokens are read as far as they go: they are flat, or all used up, or without an error. -/
def Complete (n : Nat) (u : List Token) (finish : Token) (next : NodeId)
    (errors : List SyntaxError) : Prop :=
  Flat u ∨ u = [] ∨ (program n ⟨u, finish, next, errors⟩).2.errors = errors

theorem resume_flat {previous : Token} {u : List Token} (h : Flat u ∨
    u = [] ∧ previous.kind = .mark .semicolon) : resume previous (u ++ b) = resume previous u ++ b ∧
      (Flat (resume previous u) ∨ resume previous u = []) := by
  induction u generalizing previous with
  | nil =>
    have hp := (h.resolve_left fun h => h.ne_nil rfl).2
    refine ⟨?_, .inr rfl⟩
    cases b with
    | nil => rfl
    | cons t b => simp [resume, hp]
  | cons t u ih =>
    have hflat := h.resolve_right fun h => nomatch h.1
    rw [List.cons_append]
    unfold resume
    split
    · exact ⟨rfl, .inl hflat⟩
    · exact ih (hflat.tail.symm)

/-- Behind an error among flat tokens reading goes on at one of them or behind them. -/
theorem resync_flat {u : List Token} (h : Flat u) : resync (u ++ b) = resync u ++ b ∧
    (Flat (resync u) ∨ resync u = []) := by
  cases u with
  | nil => exact absurd rfl h.ne_nil
  | cons t u => exact resume_flat h.tail.symm

/-- What the first declaration of some tokens comes to, it also comes to with others behind them. -/
structure First (b : List Token) (m : Nat) (u : List Token) (finish finish' : Token) (next : NodeId)
    (errors : List SyntaxError) (r : Option Stmt × Reading) : Prop where
  finish : r.2.finish = finish
  length : r.2.rest.length < u.length
  errors : ∃ new, r.2.errors = new ++ errors ∧ ∀ errors',
    declaration ⟨m, statement m, declarations m⟩ ⟨u ++ b, finish', next, errors'⟩ =
      (r.1, ⟨r.2.rest ++ b, finish', r.2.next, new ++ errors'⟩)

variable {u : List Token} {finish finish' : Token} {next : NodeId} {errors : List SyntaxError}

/-- A declaration that is abandoned must be so among flat tokens, or there must be no others. -/
theorem declaration_first (helse : NotNext (.keyword .else) b) (hm : n + b.length ≤ m)
    (hu : u.length ≤ n + 1) (hne : u ≠ []) (hf : finish.kind = .eof) (hf' : finish'.kind = .eof)
    {r : Option Stmt × Reading}
    (hr : declaration ⟨n, statement n, declarations n⟩ ⟨u, finish, next, errors⟩ = r)
    (h : r.1 ≠ none ∨ Flat u ∨ b = [] ∧ finish = finish') :
    First b m u finish finish' next errors r := by
  have hagree := declarationOf_agrees (parts_agree helse hm) helse u finish next errors hu hf
  have hpos := List.length_pos_of_ne_nil hne
  unfold AgreesAt at hagree
  unfold declaration at hr
  cases hx : declarationOf ⟨n, statement n, declarations n⟩ ⟨u, finish, next, errors⟩ with
  | ok stmt s =>
    simp only [hx] at hagree hr
    subst hr
    obtain ⟨hfinish, hlength, new, herrors, hy⟩ := hagree
    refine ⟨hfinish, hlength, new, herrors, fun errors' => ?_⟩
    unfold declaration
    rw [hy finish' errors' hf' (.inr (.inl rfl))]
  | error e s =>
    simp only [hx] at hagree hr
    subst hr
    obtain ⟨hfinish, hlength, new, herrors, hy⟩ := hagree
    have hresync := resync_length_le s.rest
    have hseen : Unseen false b finish finish' s.rest ∧
        resync (s.rest ++ b) = resync s.rest ++ b := by
      rcases h with hsome | hflat | ⟨rfl, hfinish'⟩
      · exact absurd rfl hsome
      · have hrest := declarationOf_stays (p := ⟨n, statement n, declarations n⟩) (statement_stays n)
          ⟨u, finish, next, errors⟩ hflat
        rw [hx] at hrest
        exact ⟨.inl hrest.ne_nil, (resync_flat hrest).1⟩
      · exact ⟨.inr (.inr ⟨rfl, hfinish'⟩), by rw [List.append_nil, List.append_nil]⟩
    refine ⟨hfinish, by simp only; omega, e :: new, by rw [herrors, List.cons_append], ?_⟩
    intro errors'
    unfold declaration
    rw [hy finish' errors' hf' hseen.1]
    simp only [hseen.2, List.cons_append]

theorem declaration_flat (n : Nat) (h : Flat u) {r : Option Stmt × Reading}
    (hr : declaration ⟨n, statement n, declarations n⟩ ⟨u, finish, next, errors⟩ = r) :
    Flat r.2.rest ∨ r.2.rest = [] := by
  have hstays := declarationOf_stays (p := ⟨n, statement n, declarations n⟩) (statement_stays n)
    ⟨u, finish, next, errors⟩ h
  unfold declaration at hr
  cases hx : declarationOf ⟨n, statement n, declarations n⟩ ⟨u, finish, next, errors⟩ with
  | ok stmt s =>
    simp only [hx] at hstays hr
    subst hr
    exact hstays.imp_right And.right
  | error e s =>
    simp only [hx] at hstays hr
    subst hr
    exact (resync_flat (b := []) hstays).2

theorem program_nil (n : Nat) : program n ⟨[], finish, next, errors⟩ =
    ([], ⟨[], finish, next, errors⟩) := by
  cases n <;> rfl

theorem program_step (hne : u ≠ []) {first : Option Stmt} {s : Reading}
    (hr : declaration ⟨n, statement n, declarations n⟩ ⟨u, finish, next, errors⟩ = (first, s)) :
    program (n + 1) ⟨u, finish, next, errors⟩ =
      (first.toList ++ (program n s).1, (program n s).2) := by
  rw [program, if_neg (by simpa using hne), hr]

/-- A program is read alike with any bound that is large enough, and behind any errors. -/
theorem program_shift (hu : u.length ≤ n) (hm : n ≤ m) (hf : finish.kind = .eof) (next : NodeId)
    (errors : List SyntaxError) :
    ∃ new, (program n ⟨u, finish, next, errors⟩).2.errors = new ++ errors ∧ ∀ errors',
      program m ⟨u, finish, next, errors'⟩ = ((program n ⟨u, finish, next, errors⟩).1,
        { (program n ⟨u, finish, next, errors⟩).2 with errors := new ++ errors' }) := by
  induction n generalizing u m next errors with
  | zero =>
    obtain rfl := List.eq_nil_of_length_eq_zero (Nat.le_zero.1 hu)
    exact ⟨[], rfl, fun errors' => program_nil m⟩
  | succ n ih =>
    obtain ⟨m, rfl⟩ : ∃ m', m = m' + 1 := ⟨m - 1, by omega⟩
    by_cases hne : u = []
    · subst hne
      exact ⟨[], rfl, fun errors' => rfl⟩
    cases hr : declaration ⟨n, statement n, declarations n⟩ ⟨u, finish, next, errors⟩ with
    | mk first s =>
      obtain ⟨rest, finish', next', errors'⟩ := s
      obtain ⟨hfinish, hlength, new, herrors, hy⟩ := declaration_first (b := []) (m := m)
        (by simp [NotNext]) (by simp; omega) hu hne hf hf hr (.inr (.inr ⟨rfl, rfl⟩))
      simp only [List.append_nil] at hfinish hlength herrors hy
      subst hfinish
      obtain ⟨new', herrors', hy'⟩ := ih (u := rest) (m := m) (by omega) (by omega) next' errors'
      rw [program_step hne hr]
      refine ⟨new' ++ new, by rw [herrors', herrors, List.append_assoc], fun errors'' => ?_⟩
      rw [program_step hne (hy errors''), hy' (new ++ errors''), List.append_assoc]

/-- A declaration without an error is one, and it does not begin with a closing brace. -/
theorem declaration_errors (n : Nat) (hf : finish.kind = .eof) {r : Option Stmt × Reading}
    (hr : declaration ⟨n, statement n, declarations n⟩ ⟨u, finish, next, errors⟩ = r) :
    r.2.finish = finish ∧ ∃ new, r.2.errors = new ++ errors ∧ (new = [] → r.1 ≠ none ∧
      ∃ t v, u = t :: v ∧ t.kind ≠ .mark .rightBrace) := by
  obtain ⟨hfinish, -, new, herrors, hsound⟩ := declaration_sound (parts_yield n)
    (s := ⟨u, finish, next, errors⟩) hf
  rw [hr] at hfinish herrors hsound
  refine ⟨hfinish, new, herrors, fun hnew => ?_⟩
  obtain ⟨w, stmt, hfirst, hu, hd⟩ := hsound hnew
  obtain ⟨t, v, rfl, ht⟩ := hd.1.head
  refine ⟨by simp [hfirst], t, v ++ r.2.rest, hu, ?_⟩
  intro hk
  rw [hk] at ht
  cases ht

theorem Complete.step (hne : u ≠ []) (hf : finish.kind = .eof)
    (h : Complete (n + 1) u finish next errors) {first : Option Stmt} {s : Reading}
    (hr : declaration ⟨n, statement n, declarations n⟩ ⟨u, finish, next, errors⟩ = (first, s)) :
    (first ≠ none ∨ Flat u) ∧ (∃ t v, u = t :: v ∧ t.kind ≠ .mark .rightBrace) ∧
      Complete n s.rest s.finish s.next s.errors := by
  rcases h with hflat | hnil | hnone
  · obtain ⟨t, v, rfl⟩ := List.exists_cons_of_ne_nil hne
    refine ⟨.inr hflat, ⟨t, v, rfl, (hflat.plain t List.mem_cons_self).2.1⟩, ?_⟩
    exact (declaration_flat n hflat hr).imp_right .inl
  · exact absurd hnil hne
  · obtain ⟨hfinish, new, herrors, hd⟩ := declaration_errors n hf hr
    obtain ⟨-, new', herrors', -⟩ := program_sound n (s := s) (by rw [hfinish]; exact hf)
    rw [program_step hne hr] at hnone
    have hnew : new' ++ new = [] := by
      rw [herrors, ← List.append_assoc] at herrors'
      exact List.append_left_eq_self.1 (herrors'.symm.trans hnone)
    obtain ⟨rfl, rfl⟩ := List.append_eq_nil_iff.1 hnew
    obtain ⟨hfirst, hhead⟩ := hd rfl
    exact ⟨.inl hfirst, hhead, .inr (.inr herrors')⟩

/-- Declarations that begin with no closing brace begin with a first one. -/
theorem declarations_step {t : Token} (ht : t.kind ≠ .mark .rightBrace) {first : Option Stmt}
    {s : Reading}
    (hr : declaration ⟨n, statement n, declarations n⟩ ⟨t :: u, finish, next, errors⟩ = (first, s)) :
    declarations (n + 1) ⟨t :: u, finish, next, errors⟩ =
      (do return first.toList ++ (← declarations n)) s := by
  have hend : atBlockEnd ⟨t :: u, finish, next, errors⟩ = .ok false ⟨t :: u, finish, next, errors⟩ := by
    show EStateM.Result.ok (decide (t.kind = .mark .rightBrace)) _ = _
    rw [decide_eq_false ht]
  have hfirst : (modifyGet (declaration ⟨n, statement n, declarations n⟩) : Rule (Option Stmt))
      ⟨t :: u, finish, next, errors⟩ = .ok first s := by
    show EStateM.Result.ok (declaration _ _).1 (declaration _ _).2 = _
    rw [hr]
  rw [declarations, bind_run, hend]
  show ((modifyGet (declaration ⟨n, statement n, declarations n⟩) : Rule (Option Stmt)) >>= _) _ = _
  rw [bind_run, hfirst]

/-- Rules that agree with nothing behind the tokens do the same. -/
theorem Agrees.eq {α : Type} {c : Bool} {k d : Nat} {x y : Rule α} (h : Agrees c [] k d x y)
    (hu : u.length ≤ k) (hf : finish.kind = .eof) :
    y ⟨u, finish, next, errors⟩ = x ⟨u, finish, next, errors⟩ := by
  have := h u finish next errors hu hf
  unfold AgreesAt at this
  cases hx : x ⟨u, finish, next, errors⟩ with
  | error e s | ok a s =>
    simp only [hx, List.append_nil] at this
    obtain ⟨hfinish, -, new, herrors, hy⟩ := this
    rw [hy finish errors hf (.inr (.inr ⟨rfl, rfl⟩)), ← herrors, ← hfinish]

/-- The bound does not matter to a program or to declarations if it is large enough. -/
theorem program_bound (hu : u.length ≤ n) (hm : n ≤ m) (hf : finish.kind = .eof) (next : NodeId)
    (errors : List SyntaxError) :
    program m ⟨u, finish, next, errors⟩ = program n ⟨u, finish, next, errors⟩ ∧
      declarations m ⟨u, finish, next, errors⟩ = declarations n ⟨u, finish, next, errors⟩ := by
  constructor
  · obtain ⟨new, herrors, hy⟩ := program_shift hu hm hf next errors
    rw [hy errors, ← herrors]
  · exact (parts_agree (by simp [NotNext]) (Nat.add_zero n ▸ hm)).declarations.eq hu hf

/-- Tokens that are read as far as they go are read alike with others behind them, at the top and in a
block. -/
theorem program_append (helse : NotNext (.keyword .else) b) (hu : u.length ≤ n)
    (hm : n + b.length ≤ m) (hf : finish.kind = .eof) (hf' : finish'.kind = .eof)
    (h : Complete n u finish next errors) {ss : List Stmt} {s : Reading}
    (hr : program n ⟨u, finish, next, errors⟩ = (ss, s)) :
    ∃ new, s.errors = new ++ errors ∧ ∀ errors',
      program m ⟨u ++ b, finish', next, errors'⟩ =
        (ss ++ (program b.length ⟨b, finish', s.next, new ++ errors'⟩).1,
          (program b.length ⟨b, finish', s.next, new ++ errors'⟩).2) ∧
      declarations m ⟨u ++ b, finish', next, errors'⟩ =
        (do return ss ++ (← declarations b.length)) ⟨b, finish', s.next, new ++ errors'⟩ := by
  induction n generalizing u m next errors ss with
  | zero =>
    obtain rfl := List.eq_nil_of_length_eq_zero (Nat.le_zero.1 hu)
    rw [program_nil] at hr
    obtain ⟨rfl, rfl⟩ := Prod.mk.inj hr
    refine ⟨[], rfl, fun errors' => ?_⟩
    obtain ⟨hprogram, hdeclarations⟩ := program_bound (m := m) (Nat.le_refl b.length) (by omega) hf'
      next errors'
    refine ⟨hprogram, hdeclarations.trans ?_⟩
    simp only [List.nil_append, bind_pure]
  | succ n ih =>
    obtain ⟨m, rfl⟩ : ∃ m', m = m' + 1 := ⟨m - 1, by omega⟩
    by_cases hne : u = []
    · subst hne
      rw [program_nil] at hr
      exact ih (u := []) (Nat.zero_le n) (by omega) (.inr (.inl rfl)) ((program_nil n).trans hr)
    cases hfirst : declaration ⟨n, statement n, declarations n⟩ ⟨u, finish, next, errors⟩ with
    | mk first s₁ =>
      obtain ⟨hsome, ⟨t, v, rfl, ht⟩, hcomplete⟩ := h.step hne hf hfirst
      obtain ⟨hfinish, hlength, new, herrors, hy⟩ := declaration_first (m := m) helse (by omega) hu hne
        hf hf' hfirst (by rcases hsome with h | h; exacts [.inl h, .inr (.inl h)])
      obtain ⟨rest, finish₁, next₁, errors₁⟩ := s₁
      simp only at hfinish hlength herrors hy hcomplete
      subst hfinish
      rw [program_step hne hfirst] at hr
      obtain ⟨rfl, rfl⟩ := Prod.mk.inj hr
      obtain ⟨new', herrors', hrest⟩ := ih (m := m) (by omega) (by omega) hcomplete rfl
      refine ⟨new' ++ new, by rw [herrors', herrors, List.append_assoc], fun errors' => ?_⟩
      obtain ⟨hprogram, hdeclarations⟩ := hrest (new ++ errors')
      rw [List.append_assoc new' new errors']
      constructor
      · rw [program_step (by simp) (hy errors'), hprogram, List.append_assoc]
      · refine (declarations_step (u := v ++ b) ht (hy errors')).trans ?_
        rw [bind_run, hdeclarations]
        simp only [bind_run]
        cases declarations b.length ⟨b, finish', _, new' ++ (new ++ errors')⟩ with
        | error e s => rfl
        | ok body s => exact congrArg (EStateM.Result.ok · s) (List.append_assoc _ _ body).symm

/-! ### Blocks -/

theorem declarationOf_leftBrace {p : Parts} {brace : Token} (hbrace : brace.kind = .mark .leftBrace) :
    declarationOf p ⟨brace :: u, finish, next, errors⟩ =
      (do return Stmt.block (← block p)) ⟨u, finish, next, errors⟩ := by
  have hnot {k : Kind} (hk : k ≠ .mark .leftBrace) (f : Bool → Rule Stmt) :
      (accept k >>= f) ⟨brace :: u, finish, next, errors⟩ =
        f false ⟨brace :: u, finish, next, errors⟩ := by
    rw [bind_run, accept_cons_of_ne (by rw [hbrace]; exact hk.symm)]
  have hpeek (f : Token → Rule Stmt) : (peek >>= f) ⟨brace :: u, finish, next, errors⟩ =
      f brace ⟨brace :: u, finish, next, errors⟩ := rfl
  simp [declarationOf, statementOf, hnot, hpeek, bind_run (accept (.mark .leftBrace)),
    accept_cons hbrace]

/-- What comes first in a block, whether or not the block is closed. -/
theorem declaration_prepend {p : Parts} {brace : Token} (hbrace : brace.kind = .mark .leftBrace)
    {ss : List Stmt} {next' : NodeId} {errors' : List SyntaxError}
    (h : p.declarations ⟨u ++ b, finish, next, errors⟩ =
      (do return ss ++ (← p.declarations)) ⟨b, finish, next', errors'⟩) :
    ∃ (kept : Option (List Stmt)) (s : Reading),
      declaration p ⟨brace :: b, finish, next', errors'⟩ = (kept.map .block, s) ∧
      declaration p ⟨brace :: (u ++ b), finish, next, errors⟩ =
        (kept.map fun body => .block (ss ++ body), s) := by
  have hblock : block p ⟨u ++ b, finish, next, errors⟩ =
      (do return ss ++ (← block p)) ⟨b, finish, next', errors'⟩ := by
    unfold block
    rw [bind_run, h]
    simp only [bind_run]
    cases p.declarations ⟨b, finish, next', errors'⟩ with
    | error e s => rfl
    | ok body s =>
      simp only [pure, EStateM.pure]
      cases expect (.mark .rightBrace) .blockClosing s <;> rfl
  unfold declaration
  rw [declarationOf_leftBrace hbrace, declarationOf_leftBrace hbrace]
  simp only [bind_run] at hblock ⊢
  rw [hblock]
  cases block p ⟨b, finish, next', errors'⟩ with
  | error e s => exact ⟨none, _, rfl, rfl⟩
  | ok body s => exact ⟨some body, s, rfl, rfl⟩

/-- Behind an opening brace, what comes first is at the head of the first block if that is kept. -/
theorem program_leftBrace_append (helse : NotNext (.keyword .else) b) (hf : finish.kind = .eof)
    (hf' : finish'.kind = .eof) (h : Complete u.length u finish next []) {ss : List Stmt} {s : Reading}
    (hr : program u.length ⟨u, finish, next, []⟩ = (ss, s)) {brace : Token}
    (hbrace : brace.kind = .mark .leftBrace) :
    ∃ (kept : Option (List Stmt)) (others : List Stmt) (s' : Reading),
      (declaration ⟨b.length, statement b.length, declarations b.length⟩
        ⟨brace :: b, finish', s.next, []⟩).1 = kept.map .block ∧
      program (b.length + 1) ⟨brace :: b, finish', s.next, []⟩ =
        ((kept.map .block).toList ++ others, s') ∧
      program ((u ++ b).length + 1) ⟨brace :: (u ++ b), finish', next, []⟩ =
        ((kept.map fun body => .block (ss ++ body)).toList ++ others,
          { s' with errors := s'.errors ++ s.errors }) := by
  obtain ⟨new, hnew, hy⟩ := program_append (m := (u ++ b).length) helse (Nat.le_refl _) (by simp) hf hf'
    h hr
  rw [List.append_nil] at hnew
  have hdeclarations := (hy []).2
  generalize hk : (u ++ b).length = k at hdeclarations ⊢
  have hbk : b.length ≤ k := by rw [← hk, List.length_append]; omega
  simp only [bind_run, List.append_nil, ← (program_bound (Nat.le_refl _) hbk hf' _ _).2] at hdeclarations
  obtain ⟨kept, s₁, hc, hd⟩ := declaration_prepend (p := ⟨k, statement k, declarations k⟩) hbrace
    (hdeclarations.trans (bind_run _ _ _).symm)
  cases hfirst : declaration ⟨b.length, statement b.length, declarations b.length⟩
      ⟨brace :: b, finish', s.next, []⟩ with
  | mk first s₂ =>
    obtain ⟨hfinish, hlength, new', herrors, hshift⟩ := declaration_first (b := []) (m := k)
      (by simp [NotNext]) (by simpa using hbk) (by simp) (by simp) hf' hf' hfirst (.inr (.inr ⟨rfl, rfl⟩))
    obtain ⟨rest, finish₂, next₂, errors₂⟩ := s₂
    simp only [List.append_nil, List.length_cons] at hfinish hlength herrors hshift
    subst hfinish herrors
    obtain ⟨rfl, rfl⟩ := Prod.mk.inj (hc.symm.trans (hshift new))
    obtain ⟨new'', herrors', hrest⟩ := program_shift (Nat.le_of_lt_succ hlength) hbk hf' next₂
      errors₂
    refine ⟨kept, _, _, rfl, program_step (by simp) hfirst, ?_⟩
    rw [program_step (by simp) hd, hrest, herrors', hnew, List.append_assoc]

end Rule

/-- What the first declaration of some tokens is read as, if it is kept. -/
def firstDeclaration (tokens : List Token) (next : NodeId) : Option Stmt :=
  let rest := beforeFinish tokens
  (Rule.declaration ⟨rest.length - 1, Rule.statement (rest.length - 1),
    Rule.declarations (rest.length - 1)⟩ ⟨rest, finishOf tokens, next, []⟩).1

section Tokens

variable {A B : List Token} {finish : Token}

theorem beforeFinish_append (hA : ∀ t ∈ A, t.kind ≠ .eof) :
    beforeFinish (A ++ B) = A ++ beforeFinish B :=
  List.takeWhile_append_of_pos fun t ht => decide_eq_true (hA t ht)

theorem beforeFinish_of_forall (hA : ∀ t ∈ A, t.kind ≠ .eof) : beforeFinish A = A := by
  simpa [beforeFinish] using hA

theorem finishOf_append (hA : ∀ t ∈ A, t.kind ≠ .eof) (hB : ∃ t ∈ B, t.kind = .eof) :
    finishOf (A ++ B) = finishOf B := by
  have hnone : A.find? (·.kind = .eof) = none := by simpa using hA
  have hsome : (B.find? (·.kind = .eof)).isSome := by simpa using hB
  obtain ⟨t, ht⟩ := Option.isSome_iff_exists.1 hsome
  unfold finishOf
  rw [List.find?_append, hnone, Option.none_or, ht]

theorem notNext_beforeFinish {k : Kind} (h : ∀ t ∈ B.head?, t.kind ≠ k) :
    Rule.NotNext k (beforeFinish B) := by
  cases B with
  | nil => exact h
  | cons t B =>
    by_cases ht : t.kind = .eof
    · simp [beforeFinish, Rule.NotNext, ht]
    · simpa [beforeFinish, Rule.NotNext, ht] using h

theorem beforeFinish_finish (hA : ∀ t ∈ A, t.kind ≠ .eof) (hfinish : finish.kind = .eof) :
    beforeFinish (A ++ [finish]) = A ∧ finishOf (A ++ [finish]) = finish := by
  rw [beforeFinish_append hA, finishOf_append hA ⟨finish, by simp, hfinish⟩]
  simp [beforeFinish, finishOf, hfinish]

/-- What is read without an error, or flat, is as complete as a program can be. -/
theorem complete_of_parseTokens {next : NodeId} (hA : ∀ t ∈ A, t.kind ≠ .eof)
    (hfinish : finish.kind = .eof)
    (h : (parseTokens (A ++ [finish]) next).errors = [] ∨ Flat A) :
    Rule.Complete A.length A finish next [] := by
  obtain ⟨hbefore, hlast⟩ := beforeFinish_finish hA hfinish
  rcases h with hnone | hflat
  · refine .inr (.inr (List.reverse_eq_nil_iff.1 ?_))
    simpa only [parseTokens, hbefore, hlast] using hnone
  · exact .inl hflat

/-- At the top, what is behind complete tokens is read as it is alone. -/
theorem parseTokens_behind {next : NodeId} (hA : ∀ t ∈ A, t.kind ≠ .eof)
    (hfinish : finish.kind = .eof) (h : (parseTokens (A ++ [finish]) next).errors = [] ∨ Flat A)
    (hB : ∃ t ∈ B, t.kind = .eof) (helse : ∀ t ∈ B.head?, t.kind ≠ .keyword .else) :
    let a := parseTokens (A ++ [finish]) next
    let b := parseTokens B a.next
    parseTokens (A ++ B) next = ⟨a.statements ++ b.statements, a.errors ++ b.errors, b.next⟩ := by
  obtain ⟨hbefore, hlast⟩ := beforeFinish_finish hA hfinish
  have hf' := finishOf_kind B
  obtain ⟨new, hnew, hy⟩ := Rule.program_append (m := (A ++ beforeFinish B).length)
    (notNext_beforeFinish helse) (Nat.le_refl _) (by simp) hfinish hf'
    (complete_of_parseTokens hA hfinish h) rfl
  rw [List.append_nil] at hnew
  obtain ⟨new', herrors', hshift⟩ := Rule.program_shift (Nat.le_refl (beforeFinish B).length)
    (Nat.le_refl _) hf' (Rule.program A.length ⟨A, finish, next, []⟩).2.next []
  rw [List.append_nil] at herrors'
  simp only [parseTokens, beforeFinish_append (B := B) hA, finishOf_append hA hB, hbefore, hlast,
    (hy []).1, hnew, hshift new, herrors', List.append_nil, List.reverse_append]

end Tokens

/-- Tokens that are read without an error, or that are flat, whatever errors they hold, are read as
they are alone whatever is behind them, but for an `else`: their statements are followed by the ones of
what is behind, and so are their errors. Behind an opening brace they are at the head of the first
block, if that is kept, and nothing else changes. -/
theorem parseTokens_append {A B : List Token} (next : NodeId) (hA : ∀ t ∈ A, t.kind ≠ .eof)
    (h : (parseTokens A next).errors = [] ∨ Flat A) (hB : ∃ t ∈ B, t.kind = .eof)
    (helse : ∀ t ∈ B.head?, t.kind ≠ .keyword .else) :
    let a := parseTokens A next
    (let b := parseTokens B a.next
     parseTokens (A ++ B) next = ⟨a.statements ++ b.statements, a.errors ++ b.errors, b.next⟩) ∧
    ∀ brace : Token, brace.kind = .mark .leftBrace →
      let alone := parseTokens (brace :: B) a.next
      ∃ (kept : Option (List Stmt)) (others : List Stmt),
        firstDeclaration (brace :: B) a.next = kept.map .block ∧
        alone.statements = (kept.map .block).toList ++ others ∧
        parseTokens (brace :: (A ++ B)) next =
          ⟨(kept.map fun body => .block (a.statements ++ body)).toList ++ others,
            a.errors ++ alone.errors, alone.next⟩ := by
  have hf := finishOf_kind A
  have halone : parseTokens (A ++ [finishOf A]) next = parseTokens A next := by
    obtain ⟨hbefore, hlast⟩ := beforeFinish_finish hA hf
    simp only [parseTokens, hbefore, hlast, beforeFinish_of_forall hA]
  rw [← halone] at h
  constructor
  · have hbehind := parseTokens_behind hA hf h hB helse
    rwa [halone] at hbehind
  · intro brace hbrace
    have hne : brace.kind ≠ .eof := by rw [hbrace]; decide
    obtain ⟨kept, others, s', hfirst, halone, hblock⟩ := Rule.program_leftBrace_append
      (notNext_beforeFinish helse) hf (finishOf_kind B) (complete_of_parseTokens hA hf h) rfl hbrace
    have hbefore (C : List Token) : beforeFinish (brace :: C) = brace :: beforeFinish C :=
      List.takeWhile_cons_of_pos (decide_eq_true hne)
    have hfinish (C : List Token) (hC : ∀ t ∈ C, t.kind ≠ .eof) :
        finishOf (brace :: (C ++ B)) = finishOf B :=
      finishOf_append (A := brace :: C) (List.forall_mem_cons.2 ⟨hne, hC⟩) hB
    have hbraceFinish := hfinish [] (by simp)
    rw [List.nil_append] at hbraceFinish
    refine ⟨kept, others, ?_, ?_, ?_⟩
    · simpa only [firstDeclaration, parseTokens, hbefore, hbraceFinish, beforeFinish_of_forall hA,
        List.length_cons, Nat.add_sub_cancel] using hfirst
    · simp only [parseTokens, hbefore, hbraceFinish, beforeFinish_of_forall hA, List.length_cons, halone]
    · simp only [parseTokens, hbefore, hbraceFinish, hfinish A hA, beforeFinish_append hA,
        beforeFinish_of_forall hA, List.length_cons, halone, hblock, List.reverse_append]

/-- A variable without a name in front of `print x; y; }`: the error stays in front, and the broken
declaration costs nothing else, also behind an opening brace, where the closing one is no error. -/
theorem parseTokens_append_unnamed :
    let A : List Token := [⟨.keyword .var, "var", 1⟩, ⟨.mark .semicolon, ";", 1⟩,
      ⟨.keyword .print, "print", 2⟩, ⟨.identifier, "x", 2⟩, ⟨.mark .semicolon, ";", 2⟩]
    let B : List Token := [⟨.identifier, "y", 3⟩, ⟨.mark .semicolon, ";", 3⟩,
      ⟨.mark .rightBrace, "\x7d", 3⟩, ⟨.eof, "", 3⟩]
    let x : Stmt := .print (.variable 0 ⟨.identifier, "x", 2⟩)
    let y : Stmt := .expression (.variable 1 ⟨.identifier, "y", 3⟩)
    let unnamed : SyntaxError := ⟨⟨.mark .semicolon, ";", 1⟩, .expected .variableName⟩
    parseTokens (A ++ B) 0 =
      ⟨[x, y], [unnamed, ⟨⟨.mark .rightBrace, "\x7d", 3⟩, .expected .expression⟩], 2⟩ ∧
    parseTokens (⟨.mark .leftBrace, "\x7b", 1⟩ :: (A ++ B)) 0 = ⟨[.block [x, y]], [unnamed], 2⟩ := by
  intro A B x y unnamed
  have hflat : Flat A := ⟨⟨A.take 4, ⟨.mark .semicolon, ";", 2⟩, rfl, rfl⟩, by simp [A]⟩
  obtain ⟨happend, hblock⟩ := parseTokens_append (A := A) (B := B) 0 (by simp [A])
    (.inr hflat) (by simp [B]) (by simp [B])
  constructor
  · rw [happend]
    rfl
  · obtain ⟨kept, others, hfirst, hstatements, hall⟩ := hblock ⟨.mark .leftBrace, "\x7b", 1⟩ rfl
    have hkept : kept = some [y] := by
      have hread : kept.map Stmt.block = some (.block [y]) := hfirst.symm
      cases kept with
      | none => cases hread
      | some body => rw [Option.map_some, Option.some.injEq, Stmt.block.injEq] at hread; rw [hread]
    subst hkept
    obtain rfl : others = [] := (List.cons.inj hstatements).2.symm
    rw [hall]
    rfl

end Treewalk
