import Treewalk.Proofs.Tree.Complete
/-!
# The reader accepts its grammar

Statements and declarations that are derived are read to their end as their trees, an open statement
only if no `else` stands behind it. So the reader gives no error exactly on the sentences of the
grammar, and their trees are what it gives then (`parseTokens_accepts_iff`).
-/

namespace Treewalk
namespace Rule

variable {α β γ : Type}

section Parts

variable {x : Rule α} {y : β → Rule α} {l r r' : List Token} {Q : β → Prop} {t : Token} {k : Kind}

theorem GoesOn.behind? {rule : Rule γ} {f : Option γ → Rule α} {P : γ → Prop} (ht : t.kind = k)
    (h : Completes rule l r P) (hf : ∀ c, P c → GoesOn (f (some c)) r y r' Q) :
    GoesOn (behind? k rule >>= f) (t :: l) y r' Q := by
  unfold Rule.behind?
  rw [bind_assoc]
  refine GoesOn.accept ht ?_
  simp only [if_true, bind_assoc, pure_bind]
  exact h.bind hf

theorem GoesOn.behind?_not {rule : Rule γ} {f : Option γ → Rule α} (ht : NotNext k l)
    (h : GoesOn (f none) l y r Q) : GoesOn (Rule.behind? k rule >>= f) l y r Q := by
  unfold Rule.behind?
  rw [bind_assoc]
  exact GoesOn.accept_not ht (by simpa using h)

theorem notNext_cons {k k' : Kind} (ht : t.kind = k') (h : k' ≠ k) : NotNext k (t :: l) := by
  intro t' ht'
  obtain rfl := Option.some.inj ht'
  rwa [ht]

end Parts

/-! ### Parts of statements -/

theorem expression_completes {u rest : List Token} {e : Expr} (h : Grammar.Expression u e) {n : Nat}
    (hlength : (u ++ rest).length ≤ n) (hrest : BehindExpression rest) :
    Completes (expression n) (u ++ rest) rest (·.anonymous = e) := by
  have hu := List.length_pos_of_ne_nil h.leads.ne_nil
  rw [List.length_append] at hlength
  obtain ⟨n, rfl⟩ := exists_eq_succ (show 0 < n by omega)
  exact expression_reads h (by simpa) hrest

theorem terminated_completes {u rest : List Token} {e : Expr} {semicolon : Token}
    (h : Grammar.Expression u e) (hs : semicolon.kind = .mark .semicolon) {n : Nat}
    (hlength : (u ++ semicolon :: rest).length ≤ n) (missing : Expected) :
    Completes (terminated n missing) (u ++ semicolon :: rest) rest (·.anonymous = e) :=
  (expression_completes h hlength (behindExpression_cons (.inr (.inr hs)))).bind fun _ he =>
    GoesOn.expect hs (goesOn_refl he)

theorem expressionUnless_completes {u rest : List Token} {o : Option Expr} {t : Token} {k : Kind}
    (h : Grammar.Optional u o) (ht : t.kind = k)
    (hk : k = .mark .semicolon ∨ k = .mark .rightParen) {n : Nat}
    (hlength : (u ++ t :: rest).length ≤ n) :
    Completes (expressionUnless k n) (u ++ t :: rest) (t :: rest) (·.map Expr.anonymous = o) := by
  cases h with
  | none => exact GoesOn.nextIs ht (goesOn_refl rfl)
  | some h =>
    refine GoesOn.nextIs_not (notNext_of_leads h.leads ?_) ?_
    · rcases hk with rfl | rfl <;> rfl
    · refine (expression_completes h hlength (behindExpression_cons ?_)).bind fun _ he => ?_
      · rw [ht]
        tauto
      · exact goesOn_refl (by simp [he])

theorem varDeclaration_completes {u rest : List Token} {s : Stmt} (h : Grammar.Variable u s)
    {p : Parts} (hlength : (u ++ rest).length ≤ p.bound + 1) :
    ∃ keyword v, u = keyword :: v ∧ keyword.kind = .keyword .var ∧
      Completes (varDeclaration p) (v ++ rest) rest (·.anonymous = s) := by
  cases h with
  | plain hk hn hs =>
    refine ⟨_, _, rfl, hk, GoesOn.expect hn <| GoesOn.behind?_not (notNext_cons hs (by decide)) ?_⟩
    exact GoesOn.expect hs (goesOn_refl rfl)
  | @initial keyword name equal semicolon u e hk hn heq he hs =>
    refine ⟨keyword, name :: equal :: u ++ [semicolon], rfl, hk, ?_⟩
    simp only [List.cons_append, List.append_assoc, List.nil_append, List.length_cons] at hlength ⊢
    refine GoesOn.expect hn <| GoesOn.behind? heq
      (expression_completes he ?_ (behindExpression_cons (.inr (.inr hs)))) fun e he => ?_
    · omega
    · exact GoesOn.expect hs (goesOn_refl (by simp [he]))

theorem forInitial_completes {u rest : List Token} {o : Option Stmt} (h : Grammar.Initial u o)
    {p : Parts} (hlength : (u ++ rest).length ≤ p.bound) :
    Completes (forInitial p) (u ++ rest) rest (·.map Stmt.anonymous = o) := by
  cases h with
  | none hs => exact GoesOn.accept hs (goesOn_refl rfl)
  | «variable» h =>
    obtain ⟨keyword, v, rfl, hk, hv⟩ := varDeclaration_completes h (Nat.le_succ_of_le hlength)
    refine GoesOn.accept_not (notNext_cons hk (by decide)) <| GoesOn.accept hk ?_
    exact hv.bind fun s hs => goesOn_refl (by simp [hs])
  | expression h =>
    obtain ⟨he, hs⟩ := h
    rw [List.append_assoc] at hlength ⊢
    refine GoesOn.accept_not (notNext_of_leads he.leads (by decide)) <|
      GoesOn.accept_not (notNext_of_leads he.leads (by decide)) ?_
    exact (terminated_completes he hs hlength _).bind fun e he => goesOn_refl (by simp [he])

theorem names_complete {u names rest : List Token} {closing : Token} (h : Grammar.Names u names)
    (hc : closing.kind = .mark .rightParen) {fuel count : Nat} (hfuel : u.length ≤ fuel)
    (hcount : count + names.length ≤ 255) :
    Completes (commaSeparated (fun count => do
        if maxArity ≤ count then
          report (← peek) .tooManyParameters
        expect .identifier .parameterName) fuel count) (u ++ closing :: rest) (closing :: rest)
      (· = names) := by
  induction h generalizing fuel count with
  | one hn =>
    obtain ⟨fuel, rfl⟩ := exists_eq_succ hfuel
    unfold commaSeparated
    rw [if_neg (by simp only [maxArity]; simp at hcount; omega)]
    exact GoesOn.expect hn <| GoesOn.accept_not (notNext_cons hc (by decide)) (goesOn_refl rfl)
  | more hn hcomma _ ih =>
    simp only [List.length_cons] at hfuel hcount
    obtain ⟨fuel, rfl⟩ := exists_eq_succ hfuel
    unfold commaSeparated
    rw [if_neg (by simp only [maxArity]; omega)]
    refine GoesOn.expect hn <| GoesOn.accept hcomma ?_
    refine (ih (by omega) (by omega)).bind fun l hl => goesOn_refl (by rw [hl])

theorem parameters_complete {u parameters rest : List Token} {closing : Token}
    (h : Grammar.Parameters u parameters) (hc : closing.kind = .mark .rightParen) {fuel : Nat}
    (hfuel : u.length ≤ fuel) :
    Completes (items (expect .identifier .parameterName) .tooManyParameters fuel)
      (u ++ closing :: rest) (closing :: rest) (· = parameters) := by
  cases h with
  | none => exact GoesOn.nextIs hc (goesOn_refl rfl)
  | some h hcount =>
    refine GoesOn.nextIs_not ?_ (names_complete h hc hfuel (by omega))
    cases h with
    | one hn | more hn => exact notNext_cons hn (by decide)

/-! ### Statements and declarations -/

theorem GoesOn.peek_any {x : Token → Rule α} {y : β → Rule α} {l r : List Token} {Q : β → Prop}
    (h : ∀ t, GoesOn (x t) l y r Q) : GoesOn (Rule.peek >>= x) l y r Q :=
  fun finish next errors => h (l.headD finish) finish next errors

theorem expressionStatement_completes {u rest : List Token} {s : Stmt}
    (h : Grammar.ExpressionStatement u s) {p : Parts}
    (hlength : (u ++ rest).length ≤ p.bound + 1) :
    Completes (statementOf p) (u ++ rest) rest (·.anonymous = s) := by
  obtain @⟨semicolon, u, e, he, hs⟩ := h
  rw [List.append_assoc] at hlength ⊢
  have hk : ∀ k, Grammar.leads k = false → NotNext k (u ++ ([semicolon] ++ rest)) :=
    fun k => notNext_of_leads he.leads
  refine GoesOn.peek_any fun t => ?_
  iterate 6 refine GoesOn.accept_not (hk _ (by decide)) ?_
  exact (terminated_completes he hs hlength _).bind fun e he => goesOn_refl (by simp [he])

theorem printStatement_completes {u rest : List Token} {e : Expr} {keyword semicolon : Token}
    (hk : keyword.kind = .keyword .print) (h : Grammar.Expression u e)
    (hs : semicolon.kind = .mark .semicolon) {p : Parts}
    (hlength : (u ++ semicolon :: rest).length ≤ p.bound) :
    Completes (statementOf p) (keyword :: (u ++ semicolon :: rest)) rest
      (·.anonymous = .print e) := by
  refine GoesOn.peek_any fun t => ?_
  iterate 2 refine GoesOn.accept_not (notNext_cons hk (by decide)) ?_
  refine GoesOn.accept hk ?_
  exact (terminated_completes h hs hlength _).bind fun e he => goesOn_refl (by simp [he])

theorem returnStatement_completes {u rest : List Token} {o : Option Expr}
    {keyword semicolon : Token} (hk : keyword.kind = .keyword .return) (h : Grammar.Optional u o)
    (hs : semicolon.kind = .mark .semicolon) {p : Parts}
    (hlength : (u ++ semicolon :: rest).length ≤ p.bound) :
    Completes (statementOf p) (keyword :: (u ++ semicolon :: rest)) rest
      (·.anonymous = .return keyword o) := by
  refine GoesOn.peek ?_
  iterate 3 refine GoesOn.accept_not (notNext_cons hk (by decide)) ?_
  refine GoesOn.accept hk ?_
  refine (expressionUnless_completes h hs (.inl rfl) hlength).bind fun o ho => ?_
  exact GoesOn.expect hs (goesOn_refl (by rw [anonymous_return, ho]))

theorem superclassReference_completes {name : Token} {l : List Token}
    (h : name.kind = .identifier) :
    Completes superclassReference (name :: l) l fun e => ∃ i, e = .variable i name :=
  GoesOn.expect h <| GoesOn.fresh fun i => goesOn_refl ⟨i, rfl⟩

/-- Whether no declaration of a block is next. -/
def AtEnd (rest : List Token) : Prop :=
  rest = [] ∨ ∃ t w, rest = t :: w ∧ t.kind = .mark .rightBrace

theorem GoesOn.atBlockEnd {f : Bool → Rule α} {y : β → Rule α} {l r : List Token} {Q : β → Prop}
    (hl : AtEnd l) (h : GoesOn (f true) l y r Q) : GoesOn (atBlockEnd >>= f) l y r Q := by
  intro finish next errors
  obtain ⟨b, next', hb, hx⟩ := h finish next errors
  refine ⟨b, next', hb, ?_⟩
  rw [← hx]
  obtain rfl | ⟨t, w, rfl, ht⟩ := hl
  · rfl
  · rw [← decide_eq_true ht]
    rfl

theorem GoesOn.atBlockEnd_not {f : Bool → Rule α} {y : β → Rule α} {t : Token} {l r : List Token}
    {Q : β → Prop} (ht : t.kind ≠ .mark .rightBrace) (h : GoesOn (f false) (t :: l) y r Q) :
    GoesOn (Rule.atBlockEnd >>= f) (t :: l) y r Q := by
  intro finish next errors
  obtain ⟨b, next', hb, hx⟩ := h finish next errors
  refine ⟨b, next', hb, ?_⟩
  rw [← hx, ← decide_eq_false ht]
  rfl

theorem declaration_completes {p : Parts} {l r : List Token} {s : Stmt}
    (h : Completes (declarationOf p) l r (·.anonymous = s)) (finish : Token) (next : NodeId)
    (errors : List SyntaxError) : ∃ s' next', s'.anonymous = s ∧
      declaration p ⟨l, finish, next, errors⟩ = (some s', ⟨r, finish, next', errors⟩) := by
  obtain ⟨s', next', hs, hx⟩ := h finish next errors
  refine ⟨s', next', hs, ?_⟩
  unfold declaration
  rw [hx]
  rfl

theorem notNext_declarations {u rest : List Token} {ss : List Stmt} (h : Grammar.Declarations u ss)
    (hrest : AtEnd rest) {k : Kind} (hk : Grammar.leadsDeclaration k = false)
    (hb : k ≠ .mark .rightBrace) : NotNext k (u ++ rest) := by
  cases h with
  | nil =>
    obtain rfl | ⟨t, w, rfl, ht⟩ := hrest
    · simp [NotNext]
    · exact notNext_cons ht hb.symm
  | cons h _ =>
    obtain ⟨t, v, rfl, ht⟩ := h.head
    refine notNext_cons rfl fun h => ?_
    rw [h, hk] at ht
    cases ht

mutual

theorem statement_reads {isOpen : Bool} {u : List Token} {s : Stmt} :
    Grammar.Statement isOpen u s → ∀ {n r}, (u ++ r).length ≤ n + 1 →
      (isOpen = true → NotNext (.keyword .else) r) →
      Completes (statement (n + 1)) (u ++ r) r (·.anonymous = s)
  | .expression h, n, rest, hlength, _ => expressionStatement_completes h hlength
  | @Grammar.Statement.for _ keyword opening semicolon closing u v w x condition increment body
      initial hk ho hu hv hs hw hc h, n, rest, hlength, hrest => by
    simp only [List.cons_append, List.append_assoc, List.length_cons, List.length_append] at hlength ⊢
    obtain ⟨n, rfl⟩ := exists_eq_succ (show 0 < n by omega)
    refine GoesOn.peek_any fun _ => GoesOn.accept hk <| GoesOn.expect ho ?_
    refine (forInitial_completes hu (by simp; omega)).bind fun initial' hinitial => ?_
    refine (expressionUnless_completes hv hs (.inl rfl) (by simp; omega)).bind fun c hcondition => ?_
    refine GoesOn.expect hs ?_
    refine (expressionUnless_completes hw hc (.inr rfl) (by simp; omega)).bind fun i hincrement => ?_
    refine GoesOn.expect hc ?_
    refine (statement_reads h (by simp; omega) hrest).bind fun body' hbody => ?_
    exact goesOn_refl (by rw [desugarFor_anonymous, hinitial, hcondition, hincrement, hbody])
  | @Grammar.Statement.if _ keyword opening closing u v e consequent hk ho he hc h, n, rest,
      hlength, hrest => by
    simp only [List.cons_append, List.append_assoc, List.length_cons, List.length_append] at hlength ⊢
    obtain ⟨n, rfl⟩ := exists_eq_succ (show 0 < n by omega)
    refine GoesOn.peek_any fun _ => GoesOn.accept_not (notNext_cons hk (by decide)) ?_
    refine GoesOn.accept hk <| GoesOn.expect ho ?_
    refine (expression_completes he (by simp; omega) (behindExpression_cons (.inl hc))).bind ?_
    refine fun condition' hcondition => GoesOn.expect hc ?_
    refine (statement_reads h (by simp; omega) fun _ => hrest rfl).bind fun s hs => ?_
    exact GoesOn.behind?_not (hrest rfl) (goesOn_refl (by simp [hcondition, hs]))
  | @Grammar.Statement.ifElse _ keyword opening closing otherwise u v w e consequent alternative
      hk ho he hc h hotherwise h', n, rest, hlength, hrest => by
    simp only [List.cons_append, List.append_assoc, List.length_cons, List.length_append] at hlength ⊢
    obtain ⟨n, rfl⟩ := exists_eq_succ (show 0 < n by omega)
    refine GoesOn.peek_any fun _ => GoesOn.accept_not (notNext_cons hk (by decide)) ?_
    refine GoesOn.accept hk <| GoesOn.expect ho ?_
    refine (expression_completes he (by simp; omega) (behindExpression_cons (.inl hc))).bind ?_
    refine fun condition' hcondition => GoesOn.expect hc ?_
    refine (statement_reads h (by simp; omega) fun h => nomatch h).bind fun s hs => ?_
    refine GoesOn.behind? hotherwise (statement_reads h' (by simp; omega) hrest) fun s' hs' => ?_
    exact goesOn_refl (by simp [hcondition, hs, hs'])
  | .print hk he hs, n, rest, hlength, _ => by
    simp only [List.cons_append, List.append_assoc, List.nil_append, List.length_cons] at hlength ⊢
    exact printStatement_completes hk he hs (Nat.le_of_succ_le_succ hlength)
  | .return hk he hs, n, rest, hlength, _ => by
    simp only [List.cons_append, List.append_assoc, List.nil_append, List.length_cons] at hlength ⊢
    exact returnStatement_completes hk he hs (Nat.le_of_succ_le_succ hlength)
  | @Grammar.Statement.while _ keyword opening closing u v e body hk ho he hc h, n, rest,
      hlength, hrest => by
    simp only [List.cons_append, List.append_assoc, List.length_cons, List.length_append] at hlength ⊢
    obtain ⟨n, rfl⟩ := exists_eq_succ (show 0 < n by omega)
    refine GoesOn.peek_any fun _ => ?_
    iterate 4 refine GoesOn.accept_not (notNext_cons hk (by decide)) ?_
    refine GoesOn.accept hk <| GoesOn.expect ho ?_
    refine (expression_completes he (by simp; omega) (behindExpression_cons (.inl hc))).bind ?_
    refine fun condition' hcondition => GoesOn.expect hc ?_
    refine (statement_reads h (by simp; omega) hrest).bind fun body' hbody => ?_
    exact goesOn_refl (by simp [hcondition, hbody])
  | .block h, n, rest, hlength, _ => by
    obtain ⟨opening, v, rfl, ho, hv⟩ := block_reads h hlength
    refine GoesOn.peek_any fun _ => ?_
    iterate 5 refine GoesOn.accept_not (notNext_cons ho (by decide)) ?_
    exact GoesOn.accept ho (hv.bind fun ss hss => goesOn_refl (by simp [hss]))

theorem block_reads {u : List Token} {ss : List Stmt} : Grammar.Block u ss →
    ∀ {n r}, (u ++ r).length ≤ n + 1 → ∃ opening v, u = opening :: v ∧
      opening.kind = .mark .leftBrace ∧
      Completes (block ⟨n, statement n, declarations n⟩) (v ++ r) r
        (Stmt.anonymousAll · = ss)
  | @Grammar.Block.intro opening closing u ss ho h hc, n, rest, hlength => by
    refine ⟨opening, u ++ [closing], rfl, ho, ?_⟩
    simp only [List.cons_append, List.append_assoc, List.nil_append, List.length_cons] at hlength ⊢
    refine (declarations_read h (Nat.le_of_succ_le_succ hlength) (.inr ⟨_, _, rfl, hc⟩)).bind ?_
    exact fun ss' hss => GoesOn.expect hc (goesOn_refl hss)

theorem declaration_reads {u : List Token} {s : Stmt} : Grammar.Declaration u s →
    ∀ {n r}, (u ++ r).length ≤ n + 1 → NotNext (.keyword .else) r →
      Completes (declarationOf ⟨n, statement n, declarations n⟩) (u ++ r) r
        (·.anonymous = s)
  | .class hk hn hs ho h hc, n, rest, hlength, _ => by
    simp only [List.cons_append, List.append_assoc, List.nil_append, List.length_cons,
      List.length_append] at hlength ⊢
    refine GoesOn.accept hk <| GoesOn.expect hn ?_
    have hbody := functions_read h (n := n) (m := n) (r := rest) (by simp; omega) (by omega) hc
    cases hs with
    | none =>
      refine GoesOn.behind?_not (notNext_cons ho (by decide)) <| GoesOn.expect ho ?_
      exact hbody.bind fun fs hfs => GoesOn.expect hc (goesOn_refl (by simp [hfs]))
    | some hless hsuper =>
      refine GoesOn.behind? hless (superclassReference_completes hsuper) ?_
      rintro _ ⟨i, rfl⟩
      refine GoesOn.expect ho ?_
      exact hbody.bind fun fs hfs => GoesOn.expect hc (goesOn_refl (by simp [hfs]))
  | .function hk h, n, rest, hlength, _ => by
    refine GoesOn.accept_not (notNext_cons hk (by decide)) <| GoesOn.accept hk ?_
    refine (function_reads h (Nat.le_of_succ_le_succ hlength) _).bind fun f hf => ?_
    exact goesOn_refl (by simp [hf])
  | .variable h, n, rest, hlength, _ => by
    obtain ⟨keyword, v, rfl, hk, hv⟩ := varDeclaration_completes h
      (p := ⟨n, statement n, declarations n⟩) hlength
    iterate 2 refine GoesOn.accept_not (notNext_cons hk (by decide)) ?_
    exact GoesOn.accept hk hv
  | .statement h, n, rest, hlength, hrest => by
    have hs := statement_reads h hlength fun _ => hrest
    obtain ⟨t, v, rfl, ht⟩ := h.head
    have hk : ∀ k, Grammar.leadsStatement k = false → NotNext k (t :: v ++ rest) :=
      fun k hk => notNext_cons rfl fun h => by rw [h, hk] at ht; cases ht
    iterate 3 refine GoesOn.accept_not (hk _ (by decide)) ?_
    exact hs

theorem declarations_read {u : List Token} {ss : List Stmt} : Grammar.Declarations u ss →
    ∀ {n r}, (u ++ r).length ≤ n → AtEnd r →
      Completes (declarations n) (u ++ r) r (Stmt.anonymousAll · = ss)
  | .nil, n, rest, hlength, hrest => by
    cases n with
    | zero => exact goesOn_refl rfl
    | succ n => exact GoesOn.atBlockEnd hrest (goesOn_refl rfl)
  | @Grammar.Declarations.cons u v s ss h hs, n, rest, hlength, hrest => by
    have hdeclaration := declaration_reads h (n := n - 1) (r := v ++ rest)
    obtain ⟨t, w, rfl, ht⟩ := h.head
    simp only [List.cons_append, List.append_assoc, List.length_cons, List.length_append] at *
    obtain ⟨n, rfl⟩ := exists_eq_succ (show 0 < n by omega)
    rw [Nat.add_sub_cancel] at hdeclaration
    replace hdeclaration := hdeclaration (by simp; omega)
      (notNext_declarations hs hrest (by decide) (by decide))
    unfold declarations
    refine GoesOn.atBlockEnd_not (fun hk => by rw [hk] at ht; cases ht) ?_
    have hfirst : Completes (modifyGet (declaration ⟨n, statement n, declarations n⟩))
        (t :: (w ++ (v ++ rest))) (v ++ rest) fun o => ∃ s', o = some s' ∧ s'.anonymous = s := by
      intro finish next errors
      obtain ⟨s', next', hs', hx⟩ := declaration_completes hdeclaration finish next errors
      refine ⟨some s', next', ⟨s', rfl, hs'⟩, ?_⟩
      show EStateM.modifyGet (declaration _) _ = _
      unfold EStateM.modifyGet
      rw [hx]
      rfl
    refine hfirst.bind ?_
    rintro _ ⟨s', rfl, hs'⟩
    refine (declarations_read hs (by simp; omega) hrest).bind fun ss' hss' => ?_
    exact goesOn_refl (by simp [hs', hss'])

theorem function_reads {u : List Token} {f : FunctionDecl} : Grammar.Function u f →
    ∀ {n r}, (u ++ r).length ≤ n → ∀ form,
      Completes (function ⟨n, statement n, declarations n⟩ form) (u ++ r) r (·.anonymous = f)
  | @Grammar.Function.intro name opening closing u v parameters ss hn ho hp hc h, n, rest,
      hlength, form => by
    simp only [List.cons_append, List.append_assoc, List.length_cons, List.length_append] at hlength ⊢
    have hfuel : u.length ≤ n := by omega
    obtain ⟨brace, v, rfl, hb, hv⟩ := block_reads h (n := n) (r := rest) (by simp; omega)
    refine GoesOn.expect hn <| GoesOn.expect ho ?_
    refine (parameters_complete hp hc hfuel).bind fun ps hps => ?_
    refine GoesOn.expect hc <| GoesOn.expect hb ?_
    exact hv.bind fun ss hss => goesOn_refl (by simp [hps, hss])

theorem functions_read {u : List Token} {fs : List FunctionDecl} : Grammar.Functions u fs →
    ∀ {n m closing r}, (u ++ closing :: r).length ≤ n → u.length ≤ m →
      closing.kind = .mark .rightBrace →
      Completes (methods ⟨n, statement n, declarations n⟩ m) (u ++ closing :: r)
        (closing :: r) (Stmt.anonymousMethods · = fs)
  | .nil, n, m, closing, rest, hlength, hm, hc => by
    cases m with
    | zero => exact goesOn_refl rfl
    | succ m => exact GoesOn.atBlockEnd (.inr ⟨_, _, rfl, hc⟩) (goesOn_refl rfl)
  | @Grammar.Functions.cons u v f fs h hs, n, m, closing, rest, hlength, hm, hc => by
    have hf := function_reads h (n := n) (r := v ++ closing :: rest)
    obtain ⟨t, w, rfl, ht⟩ := h.head
    simp only [List.cons_append, List.append_assoc, List.length_cons, List.length_append] at hlength hm ⊢
    obtain ⟨m, rfl⟩ := exists_eq_succ (show 0 < m by omega)
    refine GoesOn.atBlockEnd_not (by rw [ht]; decide) ?_
    refine (hf (by simp; omega) .method).bind fun f' hf' => ?_
    refine (functions_read hs (by simp; omega) (by omega) hc).bind fun fs' hfs' => ?_
    exact goesOn_refl (by simp [hf', hfs'])

end

theorem program_complete {u : List Token} {ss : List Stmt} : Grammar.Declarations u ss →
    ∀ {n}, u.length ≤ n → ∀ finish next errors, ∃ ss' next', Stmt.anonymousAll ss' = ss ∧
      program n ⟨u, finish, next, errors⟩ = (ss', ⟨[], finish, next', errors⟩)
  | .nil, n, _, finish, next, errors => ⟨[], next, rfl, by cases n <;> rfl⟩
  | @Grammar.Declarations.cons u v s ss h hs, n, hlength, finish, next, errors => by
    have hdeclaration := declaration_reads h (r := v) (n := n - 1)
    obtain ⟨t, w, rfl, -⟩ := h.head
    simp only [List.cons_append, List.length_cons, List.length_append] at *
    obtain ⟨n, rfl⟩ := exists_eq_succ (show 0 < n by omega)
    rw [Nat.add_sub_cancel] at hdeclaration
    have helse : NotNext (.keyword .else) v := by
      simpa using notNext_declarations hs (.inl rfl) (by decide) (by decide)
    obtain ⟨s', next', hs', hx⟩ := declaration_completes
      (hdeclaration (by simp; omega) helse) finish next errors
    obtain ⟨ss', next'', hss', hy⟩ := program_complete hs (n := n) (by omega) finish next' errors
    refine ⟨s' :: ss', next'', by simp [hs', hss'], ?_⟩
    rw [program, if_neg (by simp), hx]
    show ([s'] ++ (program n ⟨v, finish, next', errors⟩).1, (program n ⟨v, finish, next', errors⟩).2) = _
    rw [hy]
    rfl

end Rule

/-- The reader gives no error on the tokens in front of the first end of input if and only if they
are derived in the grammar, and then it gives their tree. -/
theorem parseTokens_accepts_iff (tokens : List Token) (next : NodeId) (trees : List Stmt) :
    ((parseTokens tokens next).errors = [] ∧
      Stmt.anonymousAll (parseTokens tokens next).statements = trees) ↔
      Grammar.Program (beforeFinish tokens) trees := by
  constructor
  · rintro ⟨he, rfl⟩
    exact ((parseTokens_sound tokens next).2 he).1
  · intro h
    obtain ⟨ss, next', hss, hx⟩ := Rule.program_complete h (Nat.le_refl _) (finishOf tokens) next []
    unfold parseTokens
    simp only [hx, List.reverse_nil, true_and]
    exact hss

end Treewalk
