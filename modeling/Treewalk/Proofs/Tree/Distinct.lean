import Treewalk.Proofs.Tree.Legible
import Treewalk.Proofs.Tree.Progress
import Treewalk.Proofs.Tree.Scanned
/-!
# The prefix form determines the tree

Derived trees are legible if their tokens are (`Grammar.Declarations.legible`), so that they can be taken
back from their prefix form. Two sources without strings that are read without an error, and whose
statements have the same prefix form, therefore have the same statements, but for identities and lines
(`Source.read_eq_of_prefixTexts`).
-/

namespace Treewalk

/-! ### Derived trees -/

namespace Grammar

/-- A number that is scanned is finite, unless it has overflowed. -/
theorem exists_finite {t : Token} {x : Float} (h : t.Legible) (hkind : t.kind = .number x) :
    ∃ b, Decimal.magnitude x = .finite b := by
  obtain ⟨hlexeme, hlegible⟩ := h
  rw [hkind] at hlexeme hlegible
  have hnan : Decimal.magnitude x ≠ .nan := by
    generalize t.lexeme.toList = w at hlexeme
    cases hlexeme with
    | integer | fraction => exact Decimal.magnitude_ofScientific_ne _ _
  cases hx : Decimal.magnitude x with
  | nan => exact absurd hx hnan
  | infinite => exact absurd hx hlegible
  | finite b => exact ⟨b, rfl⟩

mutual

theorem Expression.legible {u : List Token} {e : Expr} : Expression u e → (∀ t ∈ u, t.Legible) →
    e.Legible
  | .assign hn _ hv, ht => by
    simp only [List.forall_mem_cons] at ht
    exact (hv.legible ht.2.2).assign ht.1 hn
  | .set ho _ hn _ hv, ht => by
    simp only [List.forall_mem_append, List.forall_mem_cons] at ht
    exact (ho.legible ht.1).set ht.2.2.1 hn (hv.legible ht.2.2.2.2)
  | .operation h, ht => h.legible ht

theorem Operation.legible {level : Nat} {u : List Token} {e : Expr} : Operation level u e →
    (∀ t ∈ u, t.Legible) → e.Legible
  | .unary h, ht => h.legible ht
  | .operand h, ht => h.legible ht
  | .operation hl ho hr, ht => by
    simp only [List.forall_mem_append, List.forall_mem_cons] at ht
    exact .operation ht.2.1 ho (hl.legible ht.1) (hr.legible ht.2.2)

theorem Unary.legible {u : List Token} {e : Expr} : Unary u e → (∀ t ∈ u, t.Legible) →
    e.Legible
  | .operator ho h, ht => by
    simp only [List.forall_mem_cons] at ht
    exact .unary ht.1 ho (h.legible ht.2)
  | .call h, ht => h.legible ht

theorem Call.legible {u : List Token} {e : Expr} : Call u e → (∀ t ∈ u, t.Legible) →
    e.Legible
  | .primary h, ht => h.legible ht
  | .call h _ ha hc, ht => by
    simp only [List.forall_mem_append, List.forall_mem_cons] at ht
    exact (h.legible ht.1.1).call ht.2.1 hc (ha.legible ht.1.2.2)
  | .get h _ hn, ht => by
    simp only [List.forall_mem_append, List.forall_mem_cons] at ht
    exact (h.legible ht.1).get ht.2.2.1 hn

theorem Arguments.legible {u : List Token} {es : List Expr} : Arguments u es →
    (∀ t ∈ u, t.Legible) → Expr.AllLegible es
  | .none, _ => .nil
  | .some h _, ht => h.legible ht

theorem Expressions.legible {u : List Token} {es : List Expr} : Expressions u es →
    (∀ t ∈ u, t.Legible) → Expr.AllLegible es
  | .one h, ht => .cons (h.legible ht) .nil
  | .more h _ hs, ht => by
    simp only [List.forall_mem_append, List.forall_mem_cons] at ht
    exact .cons (h.legible ht.1) (hs.legible ht.2.2)

theorem Primary.legible {u : List Token} {e : Expr} : Primary u e → (∀ t ∈ u, t.Legible) →
    e.Legible
  | .number h, ht => by
    obtain ⟨b, hb⟩ := exists_finite (ht _ List.mem_cons_self) h
    exact Expr.legible_number hb
  | .string h, ht => by
    have hkind := (ht _ List.mem_cons_self).kind
    rw [h] at hkind
    exact hkind.elim
  | .true _, _ => Expr.legible_true
  | .false _, _ => Expr.legible_false
  | .nil _, _ => Expr.legible_nil
  | .this h, ht => Expr.legible_this (ht _ List.mem_cons_self) h
  | .variable h, ht => Expr.legible_variable (ht _ List.mem_cons_self) h
  | .grouping _ h _, ht => by
    simp only [List.forall_mem_append, List.forall_mem_cons] at ht
    exact (h.legible ht.1.2).grouping
  | .super hk _ hm, ht => by
    simp only [List.forall_mem_cons] at ht
    exact Expr.legible_super ht.1 ht.2.2.1 hk hm

end

theorem Optional.legible {u : List Token} {o : Option Expr} (h : Optional u o)
    (ht : ∀ t ∈ u, t.Legible) : ∀ e ∈ o, e.Legible := by
  cases h with
  | none => exact nofun
  | some h =>
    rintro _ ⟨⟩
    exact h.legible ht

theorem ExpressionStatement.legible {u : List Token} {s : Stmt} (h : ExpressionStatement u s)
    (ht : ∀ t ∈ u, t.Legible) : s.Legible := by
  cases h with
  | intro h _ =>
    rw [List.forall_mem_append] at ht
    exact .expression (h.legible ht.1)

theorem Variable.legible {u : List Token} {s : Stmt} (h : Variable u s)
    (ht : ∀ t ∈ u, t.Legible) : s.Legible := by
  cases h with
  | plain _ hn _ =>
    simp only [List.forall_mem_cons] at ht
    exact .var ht.2.1 hn nofun
  | initial _ hn _ h _ =>
    simp only [List.forall_mem_append, List.forall_mem_cons] at ht
    refine .var ht.1.2.1 hn ?_
    rintro _ ⟨⟩
    exact h.legible ht.1.2.2.2

theorem Initial.legible {u : List Token} {o : Option Stmt} (h : Initial u o)
    (ht : ∀ t ∈ u, t.Legible) : ∀ s ∈ o, s.Legible := by
  cases h with
  | none => exact nofun
  | «variable» h =>
    rintro _ ⟨⟩
    exact h.legible ht
  | expression h =>
    rintro _ ⟨⟩
    exact h.legible ht

/-- What a loop is lowered to is legible, as all that is added to it is a keyword. -/
theorem lowered_legible {initial : Option Stmt} {condition increment : Option Expr} {body : Stmt}
    (hi : ∀ s ∈ initial, s.Legible) (hc : ∀ e ∈ condition, e.Legible)
    (hn : ∀ e ∈ increment, e.Legible) (hb : body.Legible) :
    (lowered initial condition increment body).Legible := by
  have hcondition : (condition.getD (.literal (.bool true))).Legible := by
    cases condition with
    | none => exact Expr.legible_true
    | some e => exact hc e rfl
  have hloop {step : Stmt} (hstep : step.Legible) :
      (lowered initial condition none step).Legible := by
    cases initial with
    | none => exact .while hcondition hstep
    | some s => exact .block (.cons (hi s rfl) (.cons (.while hcondition hstep) .nil))
  cases increment with
  | none => exact hloop hb
  | some e => exact hloop (.block (.cons hb (.cons (.expression (hn e rfl)) .nil)))

theorem Names.legible {u names : List Token} (h : Names u names) (ht : ∀ t ∈ u, t.Legible) :
    ∀ p ∈ names, p.Legible ∧ p.kind = .identifier := by
  induction h with
  | one hn => simpa using ⟨by simpa using ht, hn⟩
  | more hn _ _ ih =>
    simp only [List.forall_mem_cons] at ht ⊢
    exact ⟨⟨ht.1, hn⟩, ih ht.2.2⟩

theorem Parameters.legible {u parameters : List Token} (h : Parameters u parameters)
    (ht : ∀ t ∈ u, t.Legible) : ∀ p ∈ parameters, p.Legible ∧ p.kind = .identifier := by
  cases h with
  | none => exact nofun
  | some h _ => exact h.legible ht

theorem Superclass.legible {u : List Token} {o : Option Expr} (h : Superclass u o)
    (ht : ∀ t ∈ u, t.Legible) : ∀ e ∈ o, e.Legible := by
  cases h with
  | none => exact nofun
  | some _ hn =>
    rintro _ ⟨⟩
    simp only [List.forall_mem_cons] at ht
    exact Expr.legible_variable ht.2.1 hn

mutual

theorem Statement.legible {isOpen : Bool} {u : List Token} {s : Stmt} : Statement isOpen u s →
    (∀ t ∈ u, t.Legible) → s.Legible
  | .expression h, ht => h.legible ht
  | .for _ _ hi hc _ hn _ h, ht => by
    simp only [List.forall_mem_append, List.forall_mem_cons] at ht
    exact lowered_legible (hi.legible ht.1.1.1.2.2) (hc.legible ht.1.1.2) (hn.legible ht.1.2.2)
      (h.legible ht.2.2)
  | .if _ _ he _ h, ht => by
    simp only [List.forall_mem_append, List.forall_mem_cons] at ht
    exact .if (he.legible ht.1.2.2) (h.legible ht.2.2) nofun
  | .ifElse _ _ he _ h _ h', ht => by
    simp only [List.forall_mem_append, List.forall_mem_cons] at ht
    refine .if (he.legible ht.1.1.2.2) (h.legible ht.1.2.2) ?_
    rintro _ ⟨⟩
    exact h'.legible ht.2.2
  | .print _ h _, ht => by
    simp only [List.forall_mem_append, List.forall_mem_cons] at ht
    exact .print (h.legible ht.1.2)
  | .return hk h _, ht => by
    simp only [List.forall_mem_append, List.forall_mem_cons] at ht
    exact .return ht.1.1 hk (h.legible ht.1.2)
  | .while _ _ he _ h, ht => by
    simp only [List.forall_mem_append, List.forall_mem_cons] at ht
    exact .while (he.legible ht.1.2.2) (h.legible ht.2.2)
  | .block h, ht => .block (h.legible ht)

theorem Block.legible {u : List Token} {ss : List Stmt} : Block u ss → (∀ t ∈ u, t.Legible) →
    Stmt.AllLegible ss
  | .intro _ h _, ht => by
    simp only [List.forall_mem_append, List.forall_mem_cons] at ht
    exact h.legible ht.1.2

theorem Declaration.legible {u : List Token} {s : Stmt} : Declaration u s →
    (∀ t ∈ u, t.Legible) → s.Legible
  | .class _ hn hs _ h _, ht => by
    simp only [List.forall_mem_append, List.forall_mem_cons] at ht
    exact .class ht.1.1.2.1 hn (hs.legible ht.1.1.2.2) (h.legible ht.1.2.2)
  | .function _ h, ht => by
    simp only [List.forall_mem_cons] at ht
    exact .function (h.legible ht.2)
  | .variable h, ht => h.legible ht
  | .statement h, ht => h.legible ht

theorem Declarations.legible {u : List Token} {ss : List Stmt} : Declarations u ss →
    (∀ t ∈ u, t.Legible) → Stmt.AllLegible ss
  | .nil, _ => .nil
  | .cons h hs, ht => by
    rw [List.forall_mem_append] at ht
    exact .cons (h.legible ht.1) (hs.legible ht.2)

theorem Function.legible {u : List Token} {f : FunctionDecl} : Function u f →
    (∀ t ∈ u, t.Legible) → f.Legible
  | .intro hn _ hp _ h, ht => by
    simp only [List.forall_mem_append, List.forall_mem_cons] at ht
    exact FunctionDecl.legible ht.1.1 hn (hp.legible ht.1.2.2) (h.legible ht.2.2)

theorem Functions.legible {u : List Token} {fs : List FunctionDecl} : Functions u fs →
    (∀ t ∈ u, t.Legible) → Stmt.MethodsLegible fs
  | .nil, _ => .nil
  | .cons h hs, ht => by
    rw [List.forall_mem_append] at ht
    exact .cons (h.legible ht.1) (hs.legible ht.2)

end

end Grammar

/-! ### Sources -/

theorem Stmt.AllLegible.eq_of_prefixTexts {ss ss' : List Stmt} (h : AllLegible ss)
    (h' : AllLegible ss') (heq : prefixTexts ss = prefixTexts ss') :
    renameAll .unlined ss = renameAll .unlined ss' := by
  rw [← texts_nestedAll, ← texts_nestedAll] at heq
  rw [← h.ofNestedAll_eq, ← h'.ofNestedAll_eq, Nested.map_text_injective h.proper h'.proper heq]

/-- Of what is scanned everything but the end of the input is a lexeme. -/
theorem Lexes.lexeme {line : Nat} {cs : List Char} {items : List Item} (h : Lexes line cs items)
    {t : Token} (ht : .token t ∈ items) (hkind : t.kind ≠ .eof) :
    Lexeme t.kind t.lexeme.toList := by
  induction h with
  | finish =>
    obtain rfl : t = _ := by simpa using ht
    exact absurd rfl hkind
  | token hw _ _ _ ih =>
    rcases List.mem_cons.1 ht with ht | ht
    · obtain rfl := Item.token.inj ht
      rw [String.toList_ofList]
      exact hw
    · exact ih ht
  | blank _ _ ih | newline _ ih | comment _ _ _ ih => exact ih ht
  | unterminated _ _ _ _ ih | unexpected _ _ _ _ ih =>
    rcases List.mem_cons.1 ht with ht | ht
    · cases ht
    · exact ih ht

namespace Source

variable {source a b : String} {next next' : NodeId}

/-- What is read without an error is legible. -/
theorem read_legible (hread : (read source next).errors = [])
    (h : ∀ t ∈ (scan source).filterMap Item.token?, t.kind.Legible) :
    Stmt.AllLegible (Stmt.anonymousAll (read source next).statements) := by
  have herrors : (parseTokens ((scan source).filterMap Item.token?) next).errors = [] :=
    List.map_eq_nil_iff.1 (List.append_eq_nil_iff.1 hread).2
  obtain ⟨hprogram, -⟩ := (parseTokens_sound _ next).2 herrors
  refine hprogram.legible fun t ht => ?_
  have hmem : t ∈ (scan source).filterMap Item.token? := List.takeWhile_subset _ ht
  refine ⟨?_, h t hmem⟩
  obtain ⟨item, hitem, htoken⟩ := List.mem_filterMap.1 hmem
  cases item with
  | token t' =>
    obtain rfl := Option.some.inj htoken
    exact ((scan_eq_iff_lexes source).1 _ |>.1 rfl).lexeme hitem (ne_eof_of_mem_beforeFinish ht)
  | error _ => cases htoken

/-- Sources whose trees have the same prefix form have the same trees, but for identities and lines, if
they have no strings and no number in them has overflowed. -/
theorem read_eq_of_prefixTexts (ha : (read a next).errors = []) (hb : (read b next').errors = [])
    (hla : ∀ t ∈ (scan a).filterMap Item.token?, t.kind.Legible)
    (hlb : ∀ t ∈ (scan b).filterMap Item.token?, t.kind.Legible)
    (h : Stmt.prefixTexts (read a next).statements = Stmt.prefixTexts (read b next').statements) :
    (Stmt.anonymousAll (read a next).statements).map (Stmt.rename .unlined) =
      (Stmt.anonymousAll (read b next').statements).map (Stmt.rename .unlined) := by
  have heq := (read_legible ha hla).eq_of_prefixTexts (read_legible hb hlb) ?_
  · simpa using heq
  · rw [← Stmt.texts_nestedAll, ← Stmt.texts_nestedAll, Stmt.nestedAll_anonymous,
      Stmt.nestedAll_anonymous, Stmt.texts_nestedAll, Stmt.texts_nestedAll, h]

/-- The same statement on one line and on two, with the number written differently. -/
theorem read_eq_of_prefixTexts_respaced :
    let a := read "if (group) x = -1;" 0
    let b := read "if (group)\nx = - 1.0;" 3
    Stmt.prefixTexts a.statements = Stmt.prefixTexts b.statements ∧
      (Stmt.anonymousAll a.statements).map (Stmt.rename .unlined) =
        (Stmt.anonymousAll b.statements).map (Stmt.rename .unlined) := by
  have htexts : Stmt.prefixTexts (read "if (group) x = -1;" 0).statements =
      Stmt.prefixTexts (read "if (group)\nx = - 1.0;" 3).statements := by decide +kernel
  exact ⟨htexts, read_eq_of_prefixTexts (by decide +kernel) (by decide +kernel) (by decide +kernel)
    (by decide +kernel) htexts⟩

end Source

end Treewalk
