import Treewalk.Proofs.Token.Munch
import Treewalk.Proofs.Tree.Form
import Treewalk.Proofs.Tree.Sound
import Treewalk.Session
/-!
# Derived trees are well formed

The trees of sentences are well formed (`Grammar.Declarations.formed`), and in what is scanned keywords
and names are spelled differently (`spelled_of_mem_scan`). So what is read from a source without an
error is as `Accepted` programs are supposed to be (`Source.read_formed`).
-/

namespace Treewalk

/-! ### Identities do not matter -/

section Anonymous

variable {T : Token → Prop}

mutual

theorem Expr.formed_anonymous : (e : Expr) → (e.anonymous.Formed T ↔ e.Formed T)
  | .literal _ | .variable _ _ | .this _ _ | .super _ _ _ => by simp [Expr.Formed]
  | .grouping inner => by simpa [Expr.Formed] using Expr.formed_anonymous inner
  | .unary _ operand => by simp [Expr.Formed, Expr.formed_anonymous operand]
  | .binary left _ right => by
    simp [Expr.Formed, Expr.formed_anonymous left, Expr.formed_anonymous right]
  | .logical left _ right => by
    simp [Expr.Formed, Expr.formed_anonymous left, Expr.formed_anonymous right]
  | .assign _ _ value => by simp [Expr.Formed, Expr.formed_anonymous value]
  | .call callee _ arguments => by
    simp [Expr.Formed, Expr.formed_anonymous callee, Expr.allFormed_anonymous arguments]
  | .get object _ => by simp [Expr.Formed, Expr.formed_anonymous object]
  | .set object _ value => by
    simp [Expr.Formed, Expr.formed_anonymous object, Expr.formed_anonymous value]

theorem Expr.allFormed_anonymous : (es : List Expr) →
    (Expr.AllFormed T (Expr.anonymousAll es) ↔ Expr.AllFormed T es)
  | [] => Iff.rfl
  | e :: rest => by
    simp [Expr.AllFormed, Expr.formed_anonymous e, Expr.allFormed_anonymous rest]

end

theorem Stmt.declared?_anonymous (s : Stmt) : s.anonymous.declared? = s.declared? := by
  match s with
  | .var _ none | .var _ (some _) | .class _ none _ | .class _ (some _) _ | .if _ _ none
  | .if _ _ (some _) | .return _ none | .return _ (some _) => rfl
  | .function ⟨_, _, _⟩ => rfl
  | .expression _ | .print _ | .block _ | .while _ _ => rfl

mutual

theorem Stmt.formed_anonymous : (s : Stmt) → (s.anonymous.Formed T ↔ s.Formed T)
  | .expression e => by simp [Stmt.Formed, Expr.formed_anonymous e]
  | .print e => by simp [Stmt.Formed, Expr.formed_anonymous e]
  | .var _ none => by simp [Stmt.Formed]
  | .var _ (some e) => by simp [Stmt.Formed, Expr.formed_anonymous e]
  | .block body => by simp [Stmt.Formed, Stmt.allFormed_anonymous body]
  | .if condition consequent none => by
    simp [Stmt.Formed, Expr.formed_anonymous condition, Stmt.formed_anonymous consequent,
      Stmt.declared?_anonymous]
  | .if condition consequent (some alternative) => by
    simp [Stmt.Formed, Expr.formed_anonymous condition, Stmt.formed_anonymous consequent,
      Stmt.formed_anonymous alternative, Stmt.declared?_anonymous]
  | .while condition body => by
    simp [Stmt.Formed, Expr.formed_anonymous condition, Stmt.formed_anonymous body,
      Stmt.declared?_anonymous]
  | .function f => by simpa [Stmt.Formed] using FunctionDecl.formed_anonymous f
  | .return _ none => by simp [Stmt.Formed]
  | .return _ (some e) => by simp [Stmt.Formed, Expr.formed_anonymous e]
  | .class _ none methods => by simp [Stmt.Formed, Stmt.methodsFormed_anonymous methods]
  | .class _ (some superclass) methods => by
    cases superclass <;> simp [Stmt.Formed, Stmt.methodsFormed_anonymous methods]

theorem Stmt.allFormed_anonymous : (ss : List Stmt) →
    (Stmt.AllFormed T (Stmt.anonymousAll ss) ↔ Stmt.AllFormed T ss)
  | [] => Iff.rfl
  | s :: rest => by simp [Stmt.AllFormed, Stmt.formed_anonymous s, Stmt.allFormed_anonymous rest]

theorem FunctionDecl.formed_anonymous : (f : FunctionDecl) →
    (f.anonymous.Formed T ↔ f.Formed T)
  | ⟨_, _, body⟩ => by simp [FunctionDecl.Formed, Stmt.allFormed_anonymous body]

theorem Stmt.methodsFormed_anonymous : (ms : List FunctionDecl) →
    (Stmt.MethodsFormed T (Stmt.anonymousMethods ms) ↔ Stmt.MethodsFormed T ms)
  | [] => Iff.rfl
  | m :: rest => by
    simp [Stmt.MethodsFormed, FunctionDecl.formed_anonymous m, Stmt.methodsFormed_anonymous rest]

end

end Anonymous

/-! ### Derived trees -/

namespace Grammar

variable {T : Token → Prop}

theorem operation_formed {level : Nat} {operator : Token} {left right : Expr}
    (ho : operator.kind ∈ operators level) (hT : T operator) (hl : left.Formed T)
    (hr : right.Formed T) : (operation level left operator right).Formed T := by
  have hrank := Rule.operatorRank?_of_mem _ ho
  unfold operation
  split
  · simp only [Expr.Formed]
    exact ⟨hl, ⟨hT, level, by omega, hrank⟩, hr⟩
  · simp only [Expr.Formed]
    refine ⟨hl, ⟨hT, ?_⟩, hr⟩
    unfold Rule.operatorRank? at hrank
    split at hrank <;> cases hrank <;> simp_all

mutual

theorem Expression.formed {u : List Token} {e : Expr} : Expression u e → (∀ t ∈ u, T t) →
    e.Formed T
  | .assign hn _ hv, hT => by
    simp only [List.forall_mem_cons] at hT
    simp only [Expr.Formed]
    exact ⟨⟨hT.1, hn⟩, hv.formed hT.2.2⟩
  | .set ho _ hn _ hv, hT => by
    simp only [List.forall_mem_append, List.forall_mem_cons] at hT
    simp only [Expr.Formed]
    exact ⟨ho.formed hT.1, ⟨hT.2.2.1, hn⟩, hv.formed hT.2.2.2.2⟩
  | .operation h, hT => h.formed hT

theorem Operation.formed {level : Nat} {u : List Token} {e : Expr} : Operation level u e →
    (∀ t ∈ u, T t) → e.Formed T
  | .unary h, hT => h.formed hT
  | .operand h, hT => h.formed hT
  | .operation hl ho hr, hT => by
    simp only [List.forall_mem_append, List.forall_mem_cons] at hT
    exact operation_formed ho hT.2.1 (hl.formed hT.1) (hr.formed hT.2.2)

theorem Unary.formed {u : List Token} {e : Expr} : Unary u e → (∀ t ∈ u, T t) → e.Formed T
  | .operator ho h, hT => by
    simp only [List.forall_mem_cons] at hT
    simp only [Expr.Formed]
    exact ⟨⟨hT.1, by simpa [Rule.isUnaryOperator] using ho⟩, h.formed hT.2⟩
  | .call h, hT => h.formed hT

theorem Call.formed {u : List Token} {e : Expr} : Call u e → (∀ t ∈ u, T t) → e.Formed T
  | .primary h, hT => h.formed hT
  | .call h _ ha _, hT => by
    simp only [List.forall_mem_append, List.forall_mem_cons] at hT
    simp only [Expr.Formed]
    exact ⟨h.formed hT.1.1, hT.2.1, ha.formed hT.1.2.2⟩
  | .get h _ hn, hT => by
    simp only [List.forall_mem_append, List.forall_mem_cons] at hT
    simp only [Expr.Formed]
    exact ⟨h.formed hT.1, hT.2.2.1, hn⟩

theorem Arguments.formed {u : List Token} {es : List Expr} : Arguments u es →
    (∀ t ∈ u, T t) → Expr.AllFormed T es
  | .none, _ => trivial
  | .some h _, hT => h.formed hT

theorem Expressions.formed {u : List Token} {es : List Expr} : Expressions u es →
    (∀ t ∈ u, T t) → Expr.AllFormed T es
  | .one h, hT => ⟨h.formed hT, trivial⟩
  | .more h _ hs, hT => by
    simp only [List.forall_mem_append, List.forall_mem_cons] at hT
    exact ⟨h.formed hT.1, hs.formed hT.2.2⟩

theorem Primary.formed {u : List Token} {e : Expr} : Primary u e → (∀ t ∈ u, T t) →
    e.Formed T
  | .number _, _ | .string _, _ | .true _, _ | .false _, _ | .nil _, _ => by simp [Expr.Formed]
  | .this hk, hT | .variable hk, hT => by
    simp only [List.forall_mem_cons] at hT
    simp only [Expr.Formed]
    exact ⟨hT.1, hk⟩
  | .grouping _ h _, hT => by
    simp only [List.cons_append, List.forall_mem_append, List.forall_mem_cons] at hT
    simpa only [Expr.Formed] using h.formed hT.2.1
  | .super hk _ hm, hT => by
    simp only [List.forall_mem_cons] at hT
    simp only [Expr.Formed]
    exact ⟨⟨hT.1, hk⟩, hT.2.2.1, hm⟩

end

theorem Names.formed {u names : List Token} (h : Names u names) (hT : ∀ t ∈ u, T t) :
    ∀ t ∈ names, t.Names T := by
  induction h with
  | one hn =>
    simp only [List.forall_mem_cons] at hT ⊢
    exact ⟨⟨hT.1, hn⟩, by simp⟩
  | more hn _ _ ih =>
    simp only [List.forall_mem_cons] at hT ⊢
    exact ⟨⟨hT.1, hn⟩, ih hT.2.2⟩

theorem Parameters.formed {u parameters : List Token} (h : Parameters u parameters)
    (hT : ∀ t ∈ u, T t) : ∀ t ∈ parameters, t.Names T := by
  cases h with
  | none => simp
  | some h _ => exact h.formed hT

theorem Variable.formed {u : List Token} {s : Stmt} (h : Variable u s) (hT : ∀ t ∈ u, T t) :
    s.Formed T := by
  cases h with
  | plain _ hn _ =>
    simp only [List.forall_mem_cons] at hT
    simp only [Stmt.Formed]
    exact ⟨hT.2.1, hn⟩
  | initial _ hn _ he _ =>
    simp only [List.cons_append, List.forall_mem_append, List.forall_mem_cons] at hT
    simp only [Stmt.Formed]
    exact ⟨⟨hT.2.1, hn⟩, he.formed hT.2.2.2.1⟩

theorem Statement.declared?_eq_none {isOpen : Bool} {u : List Token} {s : Stmt}
    (h : Statement isOpen u s) : s.declared? = none := by
  cases h with
  | expression h => obtain ⟨-, -⟩ := h; rfl
  | @«for» _ _ _ _ _ _ _ _ _ _ _ _ initial => cases initial <;> rfl
  | _ => rfl

theorem lowered_formed {initial : Option Stmt} {condition increment : Option Expr} {body : Stmt}
    (hi : ∀ s ∈ initial, s.Formed T) (hc : ∀ e ∈ condition, e.Formed T)
    (hn : ∀ e ∈ increment, e.Formed T) (hd : body.declared? = none) (hb : body.Formed T) :
    (lowered initial condition increment body).Formed T := by
  cases initial <;> cases condition <;> cases increment <;>
    simp_all [lowered, Stmt.Formed, Stmt.AllFormed, Expr.Formed, Stmt.declared?]

mutual

theorem Statement.formed {isOpen : Bool} {u : List Token} {s : Stmt} : Statement isOpen u s →
    (∀ t ∈ u, T t) → s.Formed T
  | .expression (.intro h _), hT => by
    simp only [List.forall_mem_append] at hT
    simpa only [Stmt.Formed] using h.formed hT.1
  | .for _ _ hu hv _ hw _ h, hT => by
    simp only [List.cons_append, List.append_assoc, List.forall_mem_append,
      List.forall_mem_cons] at hT
    obtain ⟨-, -, hTu, hTv, -, hTw, -, hTx⟩ := hT
    refine lowered_formed (fun s hs => ?_) (fun e he => ?_) (fun e he => ?_)
      h.declared?_eq_none (h.formed hTx)
    · cases hu with
      | none => cases hs
      | «variable» h => cases hs; exact h.formed hTu
      | expression h =>
        cases hs
        obtain ⟨h, -⟩ := h
        simp only [List.forall_mem_append] at hTu
        simpa only [Stmt.Formed] using h.formed hTu.1
    · cases hv with
      | none => cases he
      | some h => cases he; exact h.formed hTv
    · cases hw with
      | none => cases he
      | some h => cases he; exact h.formed hTw
  | .if _ _ he _ h, hT => by
    simp only [List.cons_append, List.forall_mem_append, List.forall_mem_cons] at hT
    simp only [Stmt.Formed]
    exact ⟨he.formed hT.2.2.1, h.declared?_eq_none, h.formed hT.2.2.2.2⟩
  | .ifElse _ _ he _ h _ h', hT => by
    simp only [List.cons_append, List.append_assoc, List.forall_mem_append,
      List.forall_mem_cons] at hT
    obtain ⟨-, -, hTu, -, hTv, -, hTw⟩ := hT
    simp only [Stmt.Formed]
    exact ⟨he.formed hTu, ⟨h.declared?_eq_none, h.formed hTv⟩, h'.declared?_eq_none,
      h'.formed hTw⟩
  | .print _ h _, hT => by
    simp only [List.cons_append, List.forall_mem_append, List.forall_mem_cons] at hT
    simpa only [Stmt.Formed] using h.formed hT.2.1
  | .return _ h _, hT => by
    simp only [List.cons_append, List.forall_mem_append, List.forall_mem_cons] at hT
    cases h with
    | none => simpa only [Stmt.Formed] using hT.1
    | some h =>
      simp only [Stmt.Formed]
      exact ⟨hT.1, h.formed hT.2.1⟩
  | .while _ _ he _ h, hT => by
    simp only [List.cons_append, List.forall_mem_append, List.forall_mem_cons] at hT
    simp only [Stmt.Formed]
    exact ⟨he.formed hT.2.2.1, h.declared?_eq_none, h.formed hT.2.2.2.2⟩
  | .block h, hT => by
    simpa only [Stmt.Formed] using h.formed hT

theorem Block.formed {u : List Token} {ss : List Stmt} : Block u ss → (∀ t ∈ u, T t) →
    Stmt.AllFormed T ss
  | .intro _ h _, hT => by
    simp only [List.cons_append, List.forall_mem_append, List.forall_mem_cons] at hT
    exact h.formed hT.2.1

theorem Declaration.formed {u : List Token} {s : Stmt} : Declaration u s → (∀ t ∈ u, T t) →
    s.Formed T
  | .class _ hn hs _ h _, hT => by
    simp only [List.cons_append, List.append_assoc, List.forall_mem_append,
      List.forall_mem_cons] at hT
    obtain ⟨-, hTn, hTs, -, hTv, -⟩ := hT
    cases hs with
    | none =>
      simp only [Stmt.Formed]
      exact ⟨⟨hTn, hn⟩, h.formed hTv⟩
    | some _ hsuper =>
      simp only [List.forall_mem_cons] at hTs
      simp only [Stmt.Formed]
      exact ⟨⟨hTn, hn⟩, ⟨_, _, rfl, hTs.2.1, hsuper⟩, h.formed hTv⟩
  | .function _ h, hT => by
    simp only [List.forall_mem_cons] at hT
    simpa only [Stmt.Formed] using h.formed hT.2
  | .variable h, hT => h.formed hT
  | .statement h, hT => h.formed hT

theorem Declarations.formed {u : List Token} {ss : List Stmt} : Declarations u ss →
    (∀ t ∈ u, T t) → Stmt.AllFormed T ss
  | .nil, _ => by simp [Stmt.AllFormed]
  | .cons h hs, hT => by
    simp only [List.forall_mem_append] at hT
    simp only [Stmt.AllFormed]
    exact ⟨h.formed hT.1, hs.formed hT.2⟩

theorem Function.formed {u : List Token} {f : FunctionDecl} : Function u f →
    (∀ t ∈ u, T t) → f.Formed T
  | .intro hn _ hp _ h, hT => by
    simp only [List.cons_append, List.forall_mem_append, List.forall_mem_cons] at hT
    simp only [FunctionDecl.Formed]
    exact ⟨⟨hT.1, hn⟩, hp.formed hT.2.2.1, h.formed hT.2.2.2.2⟩

theorem Functions.formed {u : List Token} {fs : List FunctionDecl} : Functions u fs →
    (∀ t ∈ u, T t) → Stmt.MethodsFormed T fs
  | .nil, _ => by simp [Stmt.MethodsFormed]
  | .cons h hs, hT => by
    simp only [List.forall_mem_append] at hT
    simp only [Stmt.MethodsFormed]
    exact ⟨h.formed hT.1, hs.formed hT.2⟩

end

end Grammar

/-! ### Spelling -/

/-- The text of a word is as its kind says. -/
def Span.Spelled (s : Span) : Prop :=
  ∀ kind, s.piece = .token kind → (∃ k, kind = .keyword k) ∨ kind = .identifier →
    kind = Lexer.wordKind s.text

namespace Lexer

/-- The piece is neither a keyword nor a name. -/
def NoWord (p : Piece) : Prop :=
  (∀ k, p ≠ .token (.keyword k)) ∧ p ≠ .token .identifier

/-- Only a word is cut off as a keyword or a name. -/
theorem cut_eq_word (c : Char) (rest : List Char) :
    cut c rest = word c rest ∨ NoWord (cut c rest).1 := by
  have hmark (alone withEqual : Mark) : NoWord (orEqual alone withEqual rest).1 := by
    unfold orEqual
    split <;> exact ⟨nofun, nofun⟩
  have hslash : NoWord (slash rest).1 := by
    unfold slash
    split <;> exact ⟨nofun, nofun⟩
  have hquoted : NoWord (quoted rest).1 := by
    unfold quoted
    dsimp only
    split <;> exact ⟨nofun, nofun⟩
  unfold cut
  split
  case h_18 =>
    split_ifs
    · exact .inr ⟨nofun, nofun⟩
    · exact .inr ⟨nofun, nofun⟩
    · exact .inl rfl
    · exact .inr ⟨nofun, nofun⟩
  all_goals first
    | exact .inr (hmark _ _)
    | exact .inr hslash
    | exact .inr hquoted
    | exact .inr ⟨nofun, nofun⟩

theorem cut_spelled (c : Char) (rest : List Char) :
    Span.Spelled ⟨(cut c rest).1, c :: rest.take (cut c rest).2⟩ := by
  intro kind hkind hword
  rcases cut_eq_word c rest with hcut | hcut
  case inr =>
    rcases hword with ⟨k, rfl⟩ | rfl
    · exact absurd hkind (hcut.1 k)
    · exact absurd hkind hcut.2
  rw [hcut] at hkind ⊢
  obtain rfl := Piece.token.inj hkind
  have htail := List.prefix_iff_eq_take.1 (List.takeWhile_prefix (l := rest) isNamePart)
  exact congrArg wordKind (congrArg (c :: ·) htail)

theorem spans_spelled (cs : List Char) : ∀ s ∈ spans cs, s.Spelled := by
  fun_induction spans cs with
  | case1 => simp
  | case2 c rest piece more h ih =>
    rw [List.forall_mem_cons]
    refine ⟨?_, ih⟩
    have := cut_spelled c rest
    rwa [h] at this

end Lexer

theorem spelled_of_mem_ofSpans {spans : List Span} (hs : ∀ s ∈ spans, s.Spelled) {line : Nat}
    {t : Token} (h : .token t ∈ Item.ofSpans spans line) : t.Spelled := by
  induction spans generalizing line with
  | nil =>
    obtain rfl : t = ⟨.eof, "", line⟩ := by simpa [Item.ofSpans] using h
    exact ⟨nofun, nofun⟩
  | cons s rest ih =>
    rw [Item.ofSpans, List.mem_append] at h
    rcases h with h | h
    · have hitem := Option.mem_toList.1 h
      unfold Span.item? at hitem
      have hspelled := hs s List.mem_cons_self
      split at hitem <;> cases hitem
      next kind hkind =>
      refine ⟨fun k hk => ?_, fun hk k heq => ?_⟩
      · have := hspelled kind hkind (.inl ⟨k, hk⟩)
        show String.ofList s.text = _
        rw [Lexer.wordKind_eq_keyword (this.symm.trans hk), String.ofList_toList]
      · have := hspelled kind hkind (.inr hk)
        refine Lexer.wordKind_eq_identifier (this.symm.trans hk) k ?_
        rw [← heq, String.toList_ofList]
    · exact ih (fun s' hs' => hs s' (List.mem_cons_of_mem s hs')) h

/-- What is scanned as a keyword has its spelling, and what is scanned as a name has that of none. -/
theorem spelled_of_mem_scan {source : String} {t : Token} (h : .token t ∈ scan source) :
    t.Spelled :=
  spelled_of_mem_ofSpans (Lexer.spans_spelled _) h

/-- What is read from a source without an error is well formed, and its references have identities of
their own. -/
theorem Source.read_sound (source : String) (next : NodeId) :
    next ≤ (Source.read source next).next ∧ ((Source.read source next).errors = [] →
      Stmt.AllFormed Token.Spelled (Source.read source next).statements ∧
        Fresh next (Source.read source next).next
          (Stmt.nodesOfAll (Source.read source next).statements)) := by
  obtain ⟨hn, hsound⟩ := parseTokens_sound ((scan source).filterMap Item.token?) next
  refine ⟨hn, fun h => ?_⟩
  have herrors : (parseTokens ((scan source).filterMap Item.token?) next).errors = [] := by
    have := (List.append_eq_nil_iff.1 h).2
    simpa using this
  obtain ⟨hprogram, hfresh⟩ := hsound herrors
  refine ⟨Stmt.allFormed_anonymous _ |>.1 (hprogram.formed fun t ht => ?_), hfresh⟩
  obtain ⟨item, hitem, hti⟩ := List.mem_filterMap.1 ((List.takeWhile_subset _) ht)
  cases item with
  | token t' =>
    obtain rfl := Option.some.inj hti
    exact spelled_of_mem_scan hitem
  | error _ => cases hti

end Treewalk
