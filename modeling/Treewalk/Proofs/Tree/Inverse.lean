import Treewalk.Proofs.Tree.Reread
import Treewalk.Proofs.Tree.Scanned
/-!
# Reading and writing out are inverse

Derived trees fit, and unless they come from a `for` the tokens they are derived from are those they
are written out as (`Grammar.Declarations.written`). With the other direction reading takes back what
writing out does, and the other way round (`parseTokens_inverse`).
-/

namespace Treewalk

open Slot (kept match_nil match_kept match_implied match_append)

/-! ### Identities do not matter -/

theorem Expr.rank_anonymous (e : Expr) : e.anonymous.rank = e.rank := by
  cases e <;> rfl

theorem Expr.isCall_anonymous (e : Expr) : e.anonymous.isCall = e.isCall := by
  cases e <;> rfl

mutual

theorem Expr.slots_anonymous : (e : Expr) → e.anonymous.slots = e.slots
  | .literal _ | .variable _ _ | .this _ _ | .super _ _ _ => by simp [Expr.slots]
  | .grouping inner => by simp [Expr.slots, Expr.slots_anonymous inner]
  | .unary _ operand => by simp [Expr.slots, Expr.slots_anonymous operand]
  | .binary left _ right => by
    simp [Expr.slots, Expr.slots_anonymous left, Expr.slots_anonymous right]
  | .logical left _ right => by
    simp [Expr.slots, Expr.slots_anonymous left, Expr.slots_anonymous right]
  | .assign _ _ value => by simp [Expr.slots, Expr.slots_anonymous value]
  | .call callee _ arguments => by
    simp [Expr.slots, Expr.slots_anonymous callee, Expr.slotsAll_anonymous arguments]
  | .get object _ => by simp [Expr.slots, Expr.slots_anonymous object]
  | .set object _ value => by
    simp [Expr.slots, Expr.slots_anonymous object, Expr.slots_anonymous value]

theorem Expr.slotsAll_anonymous : (es : List Expr) →
    Expr.slotsAll (Expr.anonymousAll es) = Expr.slotsAll es
  | [] => rfl
  | e :: rest => by simp [Expr.slotsAll, Expr.slots_anonymous e, Expr.slotsAll_anonymous rest]

end

mutual

theorem Expr.fitting_anonymous : (e : Expr) → (e.anonymous.Fitting ↔ e.Fitting)
  | .literal _ | .variable _ _ | .this _ _ | .super _ _ _ => by simp [Expr.Fitting]
  | .grouping inner => by simpa [Expr.Fitting] using Expr.fitting_anonymous inner
  | .unary _ operand => by
    simp [Expr.Fitting, Expr.rank_anonymous, Expr.fitting_anonymous operand]
  | .binary left _ right => by
    simp [Expr.Fitting, Expr.rank_anonymous, Expr.fitting_anonymous left,
      Expr.fitting_anonymous right]
  | .logical left _ right => by
    simp [Expr.Fitting, Expr.rank_anonymous, Expr.fitting_anonymous left,
      Expr.fitting_anonymous right]
  | .assign _ _ value => by simp [Expr.Fitting, Expr.fitting_anonymous value]
  | .call callee _ arguments => by
    simp [Expr.Fitting, Expr.isCall_anonymous, Expr.fitting_anonymous callee,
      Expr.allFitting_anonymous arguments]
  | .get object _ => by
    simp [Expr.Fitting, Expr.isCall_anonymous, Expr.fitting_anonymous object]
  | .set object _ value => by
    simp [Expr.Fitting, Expr.isCall_anonymous, Expr.fitting_anonymous object,
      Expr.fitting_anonymous value]

theorem Expr.allFitting_anonymous : (es : List Expr) →
    (Expr.AllFitting (Expr.anonymousAll es) ↔ Expr.AllFitting es)
  | [] => Iff.rfl
  | e :: rest => by
    simp [Expr.AllFitting, Expr.fitting_anonymous e, Expr.allFitting_anonymous rest]

end

mutual

theorem Stmt.slots_anonymous : (s : Stmt) → s.anonymous.slots = s.slots
  | .expression e => by simp [Stmt.slots, Expr.slots_anonymous e]
  | .print e => by simp [Stmt.slots, Expr.slots_anonymous e]
  | .var _ none => by simp [Stmt.slots]
  | .var _ (some e) => by simp [Stmt.slots, Expr.slots_anonymous e]
  | .block body => by simp [Stmt.slots, Stmt.slotsAll_anonymous body]
  | .if condition consequent none => by
    simp [Stmt.slots, Expr.slots_anonymous condition, Stmt.slots_anonymous consequent]
  | .if condition consequent (some alternative) => by
    simp [Stmt.slots, Expr.slots_anonymous condition, Stmt.slots_anonymous consequent,
      Stmt.slots_anonymous alternative]
  | .while condition body => by
    simp [Stmt.slots, Expr.slots_anonymous condition, Stmt.slots_anonymous body]
  | .function f => by simp [Stmt.slots, FunctionDecl.slots_anonymous f]
  | .return _ none => by simp [Stmt.slots]
  | .return _ (some e) => by simp [Stmt.slots, Expr.slots_anonymous e]
  | .class _ none methods => by simp [Stmt.slots, Stmt.methodSlots_anonymous methods]
  | .class _ (some superclass) methods => by
    simp [Stmt.slots, Expr.slots_anonymous superclass, Stmt.methodSlots_anonymous methods]

theorem Stmt.slotsAll_anonymous : (ss : List Stmt) →
    Stmt.slotsAll (Stmt.anonymousAll ss) = Stmt.slotsAll ss
  | [] => rfl
  | s :: rest => by simp [Stmt.slotsAll, Stmt.slots_anonymous s, Stmt.slotsAll_anonymous rest]

theorem FunctionDecl.slots_anonymous : (f : FunctionDecl) → f.anonymous.slots = f.slots
  | ⟨_, _, body⟩ => by simp [FunctionDecl.slots, Stmt.slotsAll_anonymous body]

theorem Stmt.methodSlots_anonymous : (ms : List FunctionDecl) →
    Stmt.methodSlots (Stmt.anonymousMethods ms) = Stmt.methodSlots ms
  | [] => rfl
  | m :: rest => by
    simp [Stmt.methodSlots, FunctionDecl.slots_anonymous m, Stmt.methodSlots_anonymous rest]

end

theorem Stmt.endsOpen_anonymous : (s : Stmt) → s.anonymous.endsOpen = s.endsOpen
  | .if _ _ none | .var _ none | .var _ (some _) | .return _ none | .return _ (some _)
  | .class _ none _ | .class _ (some _) _ | .expression _ | .print _ | .block _ | .function _ => by
    simp [Stmt.endsOpen]
  | .if _ _ (some alternative) => by simp [Stmt.endsOpen, Stmt.endsOpen_anonymous alternative]
  | .while _ body => by simp [Stmt.endsOpen, Stmt.endsOpen_anonymous body]

mutual

theorem Stmt.fitting_anonymous : (s : Stmt) → (s.anonymous.Fitting ↔ s.Fitting)
  | .expression e => by simp [Stmt.Fitting, Expr.fitting_anonymous e]
  | .print e => by simp [Stmt.Fitting, Expr.fitting_anonymous e]
  | .var _ none => by simp [Stmt.Fitting]
  | .var _ (some e) => by simp [Stmt.Fitting, Expr.fitting_anonymous e]
  | .block body => by simp [Stmt.Fitting, Stmt.allFitting_anonymous body]
  | .if condition consequent none => by
    simp [Stmt.Fitting, Expr.fitting_anonymous condition, Stmt.declared?_anonymous,
      Stmt.fitting_anonymous consequent]
  | .if condition consequent (some alternative) => by
    simp [Stmt.Fitting, Expr.fitting_anonymous condition, Stmt.declared?_anonymous,
      Stmt.endsOpen_anonymous, Stmt.fitting_anonymous consequent,
      Stmt.fitting_anonymous alternative]
  | .while condition body => by
    simp [Stmt.Fitting, Expr.fitting_anonymous condition, Stmt.declared?_anonymous,
      Stmt.fitting_anonymous body]
  | .function f => by simp [Stmt.Fitting, FunctionDecl.fitting_anonymous f]
  | .return _ none => by simp [Stmt.Fitting]
  | .return _ (some e) => by simp [Stmt.Fitting, Expr.fitting_anonymous e]
  | .class _ none methods => by simp [Stmt.Fitting, Stmt.methodsFitting_anonymous methods]
  | .class _ (some superclass) methods => by
    cases superclass <;> simp [Stmt.Fitting, Stmt.methodsFitting_anonymous methods]

theorem Stmt.allFitting_anonymous : (ss : List Stmt) →
    (Stmt.AllFitting (Stmt.anonymousAll ss) ↔ Stmt.AllFitting ss)
  | [] => Iff.rfl
  | s :: rest => by
    simp [Stmt.AllFitting, Stmt.fitting_anonymous s, Stmt.allFitting_anonymous rest]

theorem FunctionDecl.fitting_anonymous : (f : FunctionDecl) → (f.anonymous.Fitting ↔ f.Fitting)
  | ⟨_, _, body⟩ => by simp [FunctionDecl.Fitting, Stmt.allFitting_anonymous body]

theorem Stmt.methodsFitting_anonymous : (ms : List FunctionDecl) →
    (Stmt.MethodsFitting (Stmt.anonymousMethods ms) ↔ Stmt.MethodsFitting ms)
  | [] => Iff.rfl
  | m :: rest => by
    simp [Stmt.MethodsFitting, FunctionDecl.fitting_anonymous m, Stmt.methodsFitting_anonymous rest]

end

/-! ### What is derived is written out as it was -/

namespace Grammar

theorem operation_slots {level : Nat} (left : Expr) (operator : Token) (right : Expr) :
    (operation level left operator right).slots = left.slots ++ kept operator :: right.slots := by
  unfold operation
  split <;> simp only [Expr.slots]

theorem operation_rank {level : Nat} {operator : Token} (ho : operator.kind ∈ operators level)
    (left right : Expr) : (operation level left operator right).rank = level := by
  have := Rule.operatorRank?_of_mem _ ho
  unfold operation
  split <;> simp [Expr.rank, this]

theorem operation_fitting {level : Nat} {operator : Token} (ho : operator.kind ∈ operators level)
    {left right : Expr} (hl : left.Fitting) (hr : right.Fitting) (hleft : left.rank ≤ level)
    (hright : right.rank < level) : (operation level left operator right).Fitting := by
  have hrank := Rule.operatorRank?_of_mem _ ho
  unfold operation
  split
  next hlt =>
    simp only [Expr.Fitting]
    exact ⟨⟨level, hlt, hrank, hleft, hright⟩, hl, hr⟩
  next hge =>
    simp only [Expr.Fitting]
    exact ⟨⟨level, Nat.not_lt.1 hge, hrank, hleft, hright⟩, hl, hr⟩

theorem rank_of_isCall {e : Expr} (h : e.isCall = true) : e.rank = 0 := by
  cases e <;> first | rfl | cases h

mutual

theorem Expression.written {u : List Token} {e : Expr} : Expression u e →
    e.Fitting ∧ Slot.Match e.slots u
  | .assign hn he hv => by
    simp only [Expr.Fitting, Expr.slots, match_kept, match_implied]
    exact ⟨⟨hn, hv.written.1⟩, _, rfl, _, _, rfl, he, hv.written.2⟩
  | .set ho hd hn he hv => by
    obtain ⟨hcall, hobject, hu⟩ := ho.written
    simp only [Expr.Fitting, Expr.slots, match_append, match_kept, match_implied]
    exact ⟨⟨⟨hcall, hobject⟩, hn, hv.written.1⟩, _, _, rfl, hu, _, _, rfl, hd, _, rfl, _, _, rfl,
      he, hv.written.2⟩
  | .operation h => h.written.2

theorem Operation.written {level : Nat} {u : List Token} {e : Expr} : Operation level u e →
    e.rank ≤ level ∧ e.Fitting ∧ Slot.Match e.slots u
  | .unary h => ⟨Nat.le_of_eq h.written.1, h.written.2⟩
  | .operand h => ⟨Nat.le_succ_of_le h.written.1, h.written.2⟩
  | .operation hl ho hr => by
    obtain ⟨hleft, hfl, hu⟩ := hl.written
    obtain ⟨hright, hfr, hw⟩ := hr.written
    refine ⟨Nat.le_of_eq (operation_rank ho _ _),
      operation_fitting ho hfl hfr hleft (Nat.lt_succ_of_le hright), ?_⟩
    rw [operation_slots, match_append]
    exact ⟨_, _, rfl, hu, match_kept.2 ⟨_, rfl, hw⟩⟩

theorem Unary.written {u : List Token} {e : Expr} : Unary u e →
    e.rank = 0 ∧ e.Fitting ∧ Slot.Match e.slots u
  | .operator ho h => by
    obtain ⟨hrank, hf, hu⟩ := h.written
    simp only [Expr.Fitting, Expr.slots, match_kept]
    exact ⟨rfl, ⟨by simpa [Rule.isUnaryOperator] using ho, hrank, hf⟩, _, rfl, hu⟩
  | .call h => ⟨rank_of_isCall h.written.1, h.written.2⟩

theorem Call.written {u : List Token} {e : Expr} : Call u e →
    e.isCall = true ∧ e.Fitting ∧ Slot.Match e.slots u
  | .primary h => h.written
  | .call h ho ha hc => by
    obtain ⟨hcall, hcallee, hu⟩ := h.written
    obtain ⟨hlength, harguments, hw⟩ := ha.written
    simp only [Expr.Fitting, Expr.slots, List.append_assoc, List.cons_append, match_append,
      match_kept, match_implied, match_nil]
    exact ⟨rfl, ⟨⟨hcall, hcallee⟩, hc, hlength, harguments⟩, _, _, rfl, hu, _, _, rfl, ho, _, _,
      rfl, hw, _, rfl, rfl⟩
  | .get h hd hn => by
    obtain ⟨hcall, hobject, hu⟩ := h.written
    simp only [Expr.Fitting, Expr.slots, match_append, match_kept, match_implied, match_nil]
    exact ⟨rfl, ⟨⟨hcall, hobject⟩, hn⟩, _, _, rfl, hu, _, _, rfl, hd, _, rfl, rfl⟩

theorem Arguments.written {u : List Token} {es : List Expr} : Arguments u es →
    es.length ≤ maxArity ∧ Expr.AllFitting es ∧ Slot.Match (Slot.separated (Expr.slotsAll es)) u
  | .none => ⟨Nat.zero_le _, trivial, .nil⟩
  | .some h hlength => ⟨hlength, h.written⟩

theorem Expressions.written {u : List Token} {es : List Expr} : Expressions u es →
    Expr.AllFitting es ∧ Slot.Match (Slot.separated (Expr.slotsAll es)) u
  | .one h => ⟨⟨h.written.1, trivial⟩, h.written.2⟩
  | .more h hc hs => by
    obtain ⟨hf, hw⟩ := hs.written
    refine ⟨⟨h.written.1, hf⟩, ?_⟩
    cases hs with
    | one | more =>
      simp only [Expr.slotsAll, Slot.separated, match_append, match_implied]
      exact ⟨_, _, rfl, h.written.2, _, _, rfl, hc, hw⟩

theorem Primary.written {u : List Token} {e : Expr} : Primary u e →
    e.isCall = true ∧ e.Fitting ∧ Slot.Match e.slots u
  | .number h | .string h | .true h | .false h | .nil h => by
    simp only [Expr.Fitting, Expr.slots, match_implied, match_nil]
    exact ⟨rfl, trivial, _, _, rfl, h, rfl⟩
  | .this h | .variable h => by
    simp only [Expr.Fitting, Expr.slots, match_kept, match_nil]
    exact ⟨rfl, h, _, rfl, rfl⟩
  | .grouping ho h hc => by
    simp only [Expr.Fitting, Expr.slots, List.cons_append, match_append, match_implied, match_nil]
    exact ⟨rfl, h.written.1, _, _, rfl, ho, _, _, rfl, h.written.2, _, _, rfl, hc, rfl⟩
  | .super hk hd hm => by
    simp only [Expr.Fitting, Expr.slots, match_kept, match_implied, match_nil]
    exact ⟨rfl, ⟨hk, hm⟩, _, rfl, _, _, rfl, hd, _, rfl, rfl⟩

end

theorem Names.written {u names : List Token} (h : Names u names) :
    (∀ t ∈ names, t.kind = .identifier) ∧
      Slot.Match (Slot.separated (names.map fun t => [kept t])) u := by
  induction h with
  | one hn => exact ⟨by simpa using hn, match_kept.2 ⟨_, rfl, .nil⟩⟩
  | more hn hc hs ih =>
    refine ⟨by simpa using ⟨hn, ih.1⟩, ?_⟩
    cases hs with
    | one | more => exact match_kept.2 ⟨_, rfl, match_implied.2 ⟨_, _, rfl, hc, ih.2⟩⟩

theorem Parameters.written {u names : List Token} (h : Parameters u names) :
    (∀ t ∈ names, t.kind = .identifier) ∧ names.length ≤ maxArity ∧
      Slot.Match (Slot.separated (names.map fun t => [kept t])) u := by
  cases h with
  | none => exact ⟨by simp, Nat.zero_le _, .nil⟩
  | some h hlength => exact ⟨h.written.1, hlength, h.written.2⟩

theorem Variable.written {u : List Token} {s : Stmt} (h : Variable u s) :
    s.Fitting ∧ Slot.Match s.slots u := by
  cases h with
  | plain hk hn hs =>
    simp only [Stmt.Fitting, Stmt.slots, match_kept, match_implied, match_nil]
    exact ⟨hn, _, _, rfl, hk, _, rfl, _, _, rfl, hs, rfl⟩
  | initial hk hn he h hs =>
    simp only [Stmt.Fitting, Stmt.slots, List.cons_append, match_append, match_kept, match_implied,
      match_nil]
    exact ⟨⟨hn, h.written.1⟩, _, _, rfl, hk, _, rfl, _, _, rfl, he, _, _, rfl, h.written.2, _, _,
      rfl, hs, rfl⟩

/-- No token is the keyword of a counting loop, which no tree stands for. -/
def NoFor (u : List Token) : Prop :=
  ∀ t ∈ u, t.kind ≠ .keyword .for

theorem noFor_append {u w : List Token} : NoFor (u ++ w) ↔ NoFor u ∧ NoFor w :=
  List.forall_mem_append

theorem noFor_cons {t : Token} {u : List Token} :
    NoFor (t :: u) ↔ t.kind ≠ .keyword .for ∧ NoFor u :=
  List.forall_mem_cons

mutual

theorem Statement.written {isOpen : Bool} {u : List Token} {s : Stmt} : Statement isOpen u s →
    NoFor u → s.endsOpen = isOpen ∧ s.Fitting ∧ Slot.Match s.slots u
  | .expression (.intro h hs), _ => by
    simp only [Stmt.Fitting, Stmt.slots, match_append, match_implied, match_nil]
    exact ⟨rfl, h.written.1, _, _, rfl, h.written.2, _, _, rfl, hs, rfl⟩
  | .for hk _ _ _ _ _ _ _, hfor => by
    simp only [List.cons_append, noFor_cons] at hfor
    exact absurd hk hfor.1
  | .if hk ho he hc h, hfor => by
    simp only [List.cons_append, noFor_cons, noFor_append] at hfor
    obtain ⟨-, hf, hw⟩ := h.written hfor.2.2.2.2
    simp only [Stmt.Fitting, Stmt.slots, List.cons_append, match_append, match_implied]
    exact ⟨rfl, ⟨he.written.1, h.declared?_eq_none, hf⟩, _, _, rfl, hk, _, _, rfl, ho, _, _, rfl,
      he.written.2, _, _, rfl, hc, hw⟩
  | .ifElse hk ho he hc h hotherwise h', hfor => by
    simp only [List.cons_append, List.append_assoc, noFor_cons, noFor_append] at hfor
    obtain ⟨-, -, -, -, hforw, -, hforx⟩ := hfor
    obtain ⟨hclosed, hf, hw⟩ := h.written hforw
    obtain ⟨hopen, hf', hx⟩ := h'.written hforx
    rw [Stmt.endsOpen]
    simp only [Stmt.Fitting, Stmt.slots, List.cons_append, List.append_assoc, match_append,
      match_implied]
    exact ⟨hopen, ⟨he.written.1, ⟨h.declared?_eq_none, hclosed, hf⟩, h'.declared?_eq_none, hf'⟩,
      _, _, rfl, hk, _, _, rfl, ho, _, _, rfl, he.written.2, _, _, rfl, hc, _, _, rfl, hw, _, _,
      rfl, hotherwise, hx⟩
  | .print hk h hs, _ => by
    simp only [Stmt.Fitting, Stmt.slots, List.cons_append, match_append, match_implied, match_nil]
    exact ⟨rfl, h.written.1, _, _, rfl, hk, _, _, rfl, h.written.2, _, _, rfl, hs, rfl⟩
  | .return hk h hs, _ => by
    cases h with
    | none =>
      simp only [Stmt.Fitting, Stmt.slots, List.cons_append, List.nil_append, match_kept,
        match_implied, match_nil]
      exact ⟨rfl, hk, _, rfl, _, _, rfl, hs, rfl⟩
    | some h =>
      simp only [Stmt.Fitting, Stmt.slots, List.cons_append, match_append, match_kept,
        match_implied, match_nil]
      exact ⟨rfl, ⟨hk, h.written.1⟩, _, rfl, _, _, rfl, h.written.2, _, _, rfl, hs, rfl⟩
  | .while hk ho he hc h, hfor => by
    simp only [List.cons_append, noFor_cons, noFor_append] at hfor
    obtain ⟨hopen, hf, hw⟩ := h.written hfor.2.2.2.2
    rw [Stmt.endsOpen]
    simp only [Stmt.Fitting, Stmt.slots, List.cons_append, match_append, match_implied]
    exact ⟨hopen, ⟨he.written.1, h.declared?_eq_none, hf⟩, _, _, rfl, hk, _, _, rfl, ho, _, _, rfl,
      he.written.2, _, _, rfl, hc, hw⟩
  | .block h, hfor => by
    simp only [Stmt.Fitting, Stmt.slots]
    exact ⟨rfl, h.written hfor⟩

theorem Block.written {u : List Token} {ss : List Stmt} : Block u ss → NoFor u →
    Stmt.AllFitting ss ∧
      Slot.Match (.mark .leftBrace :: Stmt.slotsAll ss ++ [.mark .rightBrace]) u
  | .intro ho h hc, hfor => by
    simp only [List.cons_append, noFor_cons, noFor_append] at hfor
    obtain ⟨hf, hu⟩ := h.written hfor.2.1
    simp only [List.cons_append, match_append, match_implied, match_nil]
    exact ⟨hf, _, _, rfl, ho, _, _, rfl, hu, _, _, rfl, hc, rfl⟩

theorem Declaration.written {u : List Token} {s : Stmt} : Declaration u s → NoFor u →
    s.Fitting ∧ Slot.Match s.slots u
  | .class hk hn hs ho h hc, hfor => by
    simp only [List.cons_append, List.append_assoc, noFor_cons, noFor_append] at hfor
    obtain ⟨hf, hu⟩ := h.written hfor.2.2.2.2.1
    cases hs with
    | none =>
      simp only [Stmt.Fitting, Stmt.slots, List.cons_append, List.nil_append, match_append,
        match_kept, match_implied, match_nil]
      exact ⟨⟨hn, hf⟩, _, _, rfl, hk, _, rfl, _, _, rfl, ho, _, _, rfl, hu, _, _, rfl, hc, rfl⟩
    | some hl hsuper =>
      simp only [Stmt.Fitting, Stmt.slots, Expr.slots, List.cons_append, List.nil_append,
        match_append, match_kept, match_implied, match_nil]
      exact ⟨⟨hn, ⟨_, _, rfl, hsuper⟩, hf⟩, _, _, rfl, hk, _, rfl, _, _, rfl, hl, _, rfl, _, _, rfl,
        ho, _, _, rfl, hu, _, _, rfl, hc, rfl⟩
  | .function hk h, hfor => by
    obtain ⟨hf, hu⟩ := h.written (noFor_cons.1 hfor).2
    simp only [Stmt.Fitting, Stmt.slots, match_implied]
    exact ⟨hf, _, _, rfl, hk, hu⟩
  | .variable h, _ => h.written
  | .statement h, hfor => (h.written hfor).2

/-- Unless they come from counting loops, derived trees fit, and they are written out as the tokens
they are derived from. -/
theorem Declarations.written {u : List Token} {ss : List Stmt} : Declarations u ss → NoFor u →
    Stmt.AllFitting ss ∧ Slot.Match (Stmt.slotsAll ss) u
  | .nil, _ => by
    simp only [Stmt.AllFitting, Stmt.slotsAll, match_nil]
    exact ⟨trivial, trivial⟩
  | .cons h hs, hfor => by
    rw [noFor_append] at hfor
    obtain ⟨hf, hu⟩ := h.written hfor.1
    obtain ⟨hf', hw⟩ := hs.written hfor.2
    simp only [Stmt.AllFitting, Stmt.slotsAll, match_append]
    exact ⟨⟨hf, hf'⟩, _, _, rfl, hu, hw⟩

theorem Function.written {u : List Token} {f : FunctionDecl} : Function u f → NoFor u →
    f.Fitting ∧ Slot.Match f.slots u
  | .intro hn ho hp hc h, hfor => by
    simp only [List.cons_append, noFor_cons, noFor_append] at hfor
    obtain ⟨hnames, hlength, hw⟩ := hp.written
    obtain ⟨hf, hu⟩ := h.written hfor.2.2.2.2
    simp only [FunctionDecl.Fitting, FunctionDecl.slots, List.cons_append, List.append_assoc,
      match_append, match_kept, match_implied]
    simp only [List.cons_append, match_implied, match_append] at hu
    exact ⟨⟨hn, hnames, hlength, hf⟩, _, rfl, _, _, rfl, ho, _, _, rfl, hw, _, _, rfl, hc, hu⟩

theorem Functions.written {u : List Token} {fs : List FunctionDecl} : Functions u fs → NoFor u →
    Stmt.MethodsFitting fs ∧ Slot.Match (Stmt.methodSlots fs) u
  | .nil, _ => by
    simp only [Stmt.MethodsFitting, Stmt.methodSlots, match_nil]
    exact ⟨trivial, trivial⟩
  | .cons h hs, hfor => by
    rw [noFor_append] at hfor
    obtain ⟨hf, hu⟩ := h.written hfor.1
    obtain ⟨hf', hw⟩ := hs.written hfor.2
    simp only [Stmt.MethodsFitting, Stmt.methodSlots, match_append]
    exact ⟨⟨hf, hf'⟩, _, _, rfl, hu, hw⟩

end

end Grammar

/-! ### Nothing written out ends the input -/

/-- The slot is not that of an end of input. -/
def Slot.Inner (s : Slot) : Prop :=
  s.kind ≠ .eof

theorem Slot.inner_of_kind {t : Token} {k : Kind} (h : t.kind = k) (hk : k ≠ .eof) :
    (kept t).Inner :=
  fun ht => hk (h.symm.trans ht)

theorem Slot.inner_mark (m : Mark) : (Slot.mark m).Inner := nofun

theorem Slot.inner_keyword (k : Keyword) : (Slot.keyword k).Inner := nofun

theorem Slot.inner_of_mem_separated : (parts : List (List Slot)) →
    (∀ part ∈ parts, ∀ s ∈ part, s.Inner) → ∀ s ∈ Slot.separated parts, s.Inner
  | [], _ => by simp [Slot.separated]
  | [part], h => by simpa [Slot.separated] using h
  | part :: part' :: rest, h => by
    rw [List.forall_mem_cons] at h
    rw [Slot.separated, List.forall_mem_append, List.forall_mem_cons]
    exact ⟨h.1, Slot.inner_mark _, Slot.inner_of_mem_separated (part' :: rest) h.2⟩

theorem Rule.isUnaryOperator_ne_eof {k : Kind} (h : Rule.isUnaryOperator k = true) : k ≠ .eof := by
  rintro rfl
  cases h

theorem Rule.operatorRank?_ne_eof {k : Kind} {rank : Nat} (h : Rule.operatorRank? k = some rank) :
    k ≠ .eof := by
  rintro rfl
  cases h

mutual

theorem Expr.Fitting.inner : (e : Expr) → e.Fitting → ∀ s ∈ e.slots, s.Inner
  | .literal value, _ => by
    have : value.kind ≠ .eof := by
      match value with
      | .nil | .bool true | .bool false | .number _ | .string _ => nofun
    simpa [Expr.slots, Slot.Inner, Slot.kind] using this
  | .grouping inner, h => by
    simp only [Expr.Fitting] at h
    simp only [Expr.slots, List.cons_append, List.forall_mem_append, List.forall_mem_cons]
    exact ⟨Slot.inner_mark _, Expr.Fitting.inner inner h, Slot.inner_mark _, by simp⟩
  | .unary operator operand, h => by
    simp only [Expr.Fitting] at h
    simp only [Expr.slots, List.forall_mem_cons]
    exact ⟨Rule.isUnaryOperator_ne_eof h.1, Expr.Fitting.inner operand h.2.2⟩
  | .binary left operator right, h | .logical left operator right, h => by
    simp only [Expr.Fitting] at h
    obtain ⟨⟨rank, -, ho, -⟩, hl, hr⟩ := h
    simp only [Expr.slots, List.forall_mem_append, List.forall_mem_cons]
    exact ⟨Expr.Fitting.inner left hl, Rule.operatorRank?_ne_eof ho, Expr.Fitting.inner right hr⟩
  | .variable _ name, h | .this _ name, h => by
    simp only [Expr.Fitting] at h
    simpa [Expr.slots] using Slot.inner_of_kind h (by decide)
  | .assign _ name value, h => by
    simp only [Expr.Fitting] at h
    simp only [Expr.slots, List.forall_mem_cons]
    exact ⟨Slot.inner_of_kind h.1 (by decide), Slot.inner_mark _, Expr.Fitting.inner value h.2⟩
  | .call callee closing arguments, h => by
    simp only [Expr.Fitting] at h
    obtain ⟨⟨-, hcallee⟩, hc, -, harguments⟩ := h
    simp only [Expr.slots, List.forall_mem_append, List.forall_mem_cons]
    exact ⟨⟨Expr.Fitting.inner callee hcallee, Slot.inner_mark _, Slot.inner_of_mem_separated _
      (Expr.AllFitting.inner arguments harguments)⟩, Slot.inner_of_kind hc (by decide), by simp⟩
  | .get object name, h => by
    simp only [Expr.Fitting] at h
    simp only [Expr.slots, List.forall_mem_append, List.forall_mem_cons]
    exact ⟨Expr.Fitting.inner object h.1.2, Slot.inner_mark _, Slot.inner_of_kind h.2 (by decide),
      by simp⟩
  | .set object name value, h => by
    simp only [Expr.Fitting] at h
    simp only [Expr.slots, List.forall_mem_append, List.forall_mem_cons]
    exact ⟨Expr.Fitting.inner object h.1.2, Slot.inner_mark _,
      Slot.inner_of_kind h.2.1 (by decide), Slot.inner_mark _, Expr.Fitting.inner value h.2.2⟩
  | .super _ keyword method, h => by
    simp only [Expr.Fitting] at h
    simp only [Expr.slots, List.forall_mem_cons]
    exact ⟨Slot.inner_of_kind h.1 (by decide), Slot.inner_mark _,
      Slot.inner_of_kind h.2 (by decide), by simp⟩

theorem Expr.AllFitting.inner : (es : List Expr) → Expr.AllFitting es →
    ∀ part ∈ Expr.slotsAll es, ∀ s ∈ part, s.Inner
  | [], _ => by simp [Expr.slotsAll]
  | e :: rest, h => by
    rw [Expr.slotsAll, List.forall_mem_cons]
    exact ⟨Expr.Fitting.inner e h.1, Expr.AllFitting.inner rest h.2⟩

end

mutual

theorem Stmt.Fitting.inner : (s : Stmt) → s.Fitting → ∀ slot ∈ s.slots, slot.Inner
  | .expression e, h => by
    simp only [Stmt.Fitting] at h
    simp only [Stmt.slots, List.forall_mem_append, List.forall_mem_cons]
    exact ⟨h.inner e, Slot.inner_mark _, by simp⟩
  | .print e, h => by
    simp only [Stmt.Fitting] at h
    simp only [Stmt.slots, List.cons_append, List.forall_mem_append, List.forall_mem_cons]
    exact ⟨Slot.inner_keyword _, h.inner e, Slot.inner_mark _, by simp⟩
  | .var name none, h => by
    simp only [Stmt.Fitting] at h
    simp only [Stmt.slots, List.forall_mem_cons]
    exact ⟨Slot.inner_keyword _, Slot.inner_of_kind h (by decide), Slot.inner_mark _, by simp⟩
  | .var name (some e), h => by
    simp only [Stmt.Fitting] at h
    simp only [Stmt.slots, List.cons_append, List.forall_mem_append, List.forall_mem_cons]
    exact ⟨Slot.inner_keyword _, Slot.inner_of_kind h.1 (by decide), Slot.inner_mark _,
      h.2.inner e, Slot.inner_mark _, by simp⟩
  | .block body, h => by
    simp only [Stmt.Fitting] at h
    simp only [Stmt.slots, List.cons_append, List.forall_mem_append, List.forall_mem_cons]
    exact ⟨Slot.inner_mark _, Stmt.AllFitting.inner body h, Slot.inner_mark _, by simp⟩
  | .if condition consequent none, h | .while condition consequent, h => by
    simp only [Stmt.Fitting] at h
    simp only [Stmt.slots, List.cons_append, List.forall_mem_append, List.forall_mem_cons]
    exact ⟨Slot.inner_keyword _, Slot.inner_mark _, h.1.inner condition, Slot.inner_mark _,
      Stmt.Fitting.inner consequent h.2.2⟩
  | .if condition consequent (some alternative), h => by
    simp only [Stmt.Fitting] at h
    simp only [Stmt.slots, List.cons_append, List.append_assoc, List.forall_mem_append,
      List.forall_mem_cons]
    exact ⟨Slot.inner_keyword _, Slot.inner_mark _, h.1.inner condition, Slot.inner_mark _,
      Stmt.Fitting.inner consequent h.2.1.2.2, Slot.inner_keyword _,
      Stmt.Fitting.inner alternative h.2.2.2⟩
  | .function f, h => by
    simp only [Stmt.Fitting] at h
    simp only [Stmt.slots, List.forall_mem_cons]
    exact ⟨Slot.inner_keyword _, FunctionDecl.Fitting.inner f h⟩
  | .return keyword none, h => by
    simp only [Stmt.Fitting] at h
    simp only [Stmt.slots, List.forall_mem_cons]
    exact ⟨Slot.inner_of_kind h (by decide), Slot.inner_mark _, by simp⟩
  | .return keyword (some e), h => by
    simp only [Stmt.Fitting] at h
    simp only [Stmt.slots, List.cons_append, List.forall_mem_append, List.forall_mem_cons]
    exact ⟨Slot.inner_of_kind h.1 (by decide), h.2.inner e, Slot.inner_mark _, by simp⟩
  | .class name none methods, h => by
    simp only [Stmt.Fitting] at h
    simp only [Stmt.slots, List.cons_append, List.forall_mem_append, List.forall_mem_cons]
    exact ⟨Slot.inner_keyword _, Slot.inner_of_kind h.1 (by decide), Slot.inner_mark _,
      Stmt.MethodsFitting.inner methods h.2, Slot.inner_mark _, by simp⟩
  | .class name (some superclass) methods, h => by
    simp only [Stmt.Fitting] at h
    obtain ⟨hn, ⟨node, superName, rfl, hsuper⟩, hmethods⟩ := h
    simp only [Stmt.slots, Expr.slots, List.cons_append, List.nil_append, List.forall_mem_append,
      List.forall_mem_cons]
    exact ⟨Slot.inner_keyword _, Slot.inner_of_kind hn (by decide), Slot.inner_mark _,
      Slot.inner_of_kind hsuper (by decide), Slot.inner_mark _,
      Stmt.MethodsFitting.inner methods hmethods, Slot.inner_mark _, by simp⟩

theorem Stmt.AllFitting.inner : (ss : List Stmt) → Stmt.AllFitting ss →
    ∀ slot ∈ Stmt.slotsAll ss, slot.Inner
  | [], _ => by simp [Stmt.slotsAll]
  | s :: rest, h => by
    simp only [Stmt.AllFitting] at h
    rw [Stmt.slotsAll, List.forall_mem_append]
    exact ⟨Stmt.Fitting.inner s h.1, Stmt.AllFitting.inner rest h.2⟩

theorem FunctionDecl.Fitting.inner : (f : FunctionDecl) → f.Fitting →
    ∀ slot ∈ f.slots, slot.Inner
  | ⟨name, parameters, body⟩, h => by
    simp only [FunctionDecl.Fitting] at h
    obtain ⟨hn, hparameters, -, hbody⟩ := h
    simp only [FunctionDecl.slots, List.cons_append, List.append_assoc, List.forall_mem_append,
      List.forall_mem_cons]
    refine ⟨Slot.inner_of_kind hn (by decide), Slot.inner_mark _,
      Slot.inner_of_mem_separated _ ?_, Slot.inner_mark _, Slot.inner_mark _,
      Stmt.AllFitting.inner body hbody, Slot.inner_mark _, by simp⟩
    simpa using fun p hp => Slot.inner_of_kind (hparameters p hp) (by decide)

theorem Stmt.MethodsFitting.inner : (ms : List FunctionDecl) → Stmt.MethodsFitting ms →
    ∀ slot ∈ Stmt.methodSlots ms, slot.Inner
  | [], _ => by simp [Stmt.methodSlots]
  | m :: rest, h => by
    simp only [Stmt.MethodsFitting] at h
    rw [Stmt.methodSlots, List.forall_mem_append]
    exact ⟨FunctionDecl.Fitting.inner m h.1, Stmt.MethodsFitting.inner rest h.2⟩

end

/-- All tokens that fitting statements are written out as are in front of the end of the input. -/
theorem Stmt.AllFitting.beforeFinish_tokensAll {ss : List Stmt} (h : Stmt.AllFitting ss) :
    beforeFinish (Stmt.tokensAll ss) = Stmt.tokensAll ss := by
  refine List.takeWhile_eq_self_iff.2 fun t ht => ?_
  obtain ⟨slot, hslot, rfl⟩ := List.mem_map.1 ht
  rw [(Slot.holds_token slot).kind_eq]
  exact decide_eq_true (h.inner ss slot hslot)

/-- Reading and writing out are inverse. Fitting statements are read back from the tokens they are
written out as, whatever the tokens are like of which the trees tell the kind alone; and tokens that
are read without an error, none of them a `for`, are those that their statements, which fit, are
written out as. -/
theorem parseTokens_inverse (next : NodeId) :
    (∀ ss, Stmt.AllFitting ss → Stmt.Written (beforeFinish (Stmt.tokensAll ss)) ss ∧
      ∀ tokens, Stmt.Written (beforeFinish tokens) ss → (parseTokens tokens next).errors = [] ∧
        Stmt.anonymousAll (parseTokens tokens next).statements = Stmt.anonymousAll ss) ∧
    ∀ tokens, (parseTokens tokens next).errors = [] →
      (∀ t ∈ beforeFinish tokens, t.kind ≠ .keyword .for) →
        Stmt.Written (beforeFinish tokens) (parseTokens tokens next).statements ∧
          Stmt.AllFitting (parseTokens tokens next).statements := by
  refine ⟨fun ss h => ⟨?_, fun tokens hu => ?_⟩, fun tokens he hfor => ?_⟩
  · rw [h.beforeFinish_tokensAll]
    exact Slot.match_tokens _
  · obtain ⟨ss', next', hss, hx⟩ := Rule.program_complete (h.derived ss hu) (Nat.le_refl _)
      (finishOf tokens) next []
    unfold parseTokens
    simp only [hx, List.reverse_nil, true_and]
    exact hss
  · obtain ⟨hf, hu⟩ := ((parseTokens_sound tokens next).2 he).1.written hfor
    rw [Stmt.slotsAll_anonymous] at hu
    exact ⟨hu, (Stmt.allFitting_anonymous _).1 hf⟩

end Treewalk
