import Treewalk.Proofs.Tree.Accepts
import Treewalk.Proofs.Tree.Written
/-!
# Trees that are written out are derived

The tokens that a fitting tree is written out as are a sentence of its symbol of the grammar, with the
tree as it is but for the identities (`Stmt.AllFitting.derived`). By recursion on the tree: what an
expression is derived as depends on how loosely it binds, so `Expr.Derived` says all of it at once.
-/

namespace Treewalk

open Slot (kept)


/-- The tokens are a sentence of the expression's symbol with its tree. -/
structure Expr.Derived (u : List Token) (e : Expr) : Prop where
  expression : Grammar.Expression u e.anonymous
  operation : ∀ rank, e.rank ≤ rank → rank < Rule.assignmentRank →
    Grammar.Operation rank u e.anonymous
  call : e.isCall = true → Grammar.Call u e.anonymous

namespace Grammar

theorem Operation.mono {u : List Token} {e : Expr} {rank rank' : Nat} (h : Operation rank u e)
    (hr : rank ≤ rank') : Operation rank' u e := by
  induction hr with
  | refl => exact h
  | step _ ih => exact .operand ih

end Grammar

namespace Expr

theorem derived_of_call {u : List Token} {e : Expr} (h : Grammar.Call u e.anonymous) :
    e.Derived u where
  expression := .operation ((Grammar.Operation.unary (.call h)).mono (Nat.zero_le _))
  operation _ _ _ := (Grammar.Operation.unary (.call h)).mono (Nat.zero_le _)
  call _ := h

theorem derived_of_operation {u : List Token} {e : Expr} (hr : e.rank < Rule.assignmentRank)
    (h : Grammar.Operation e.rank u e.anonymous) (hc : e.isCall = false) : e.Derived u where
  expression := .operation (h.mono (Nat.le_of_lt_succ hr))
  operation _ hrank _ := h.mono hrank
  call hcall := absurd hcall (by simp [hc])

theorem derived_of_assignment {u : List Token} {e : Expr} (hr : e.rank = Rule.assignmentRank)
    (h : Grammar.Expression u e.anonymous) (hc : e.isCall = false) : e.Derived u where
  expression := h
  operation _ hrank hlt := absurd (hr ▸ hrank) (Nat.not_le.2 hlt)
  call hcall := absurd hcall (by simp [hc])

theorem Derived.operand {u w : List Token} {left right : Expr} {operator : Token} {rank : Nat}
    (hl : left.Derived u) (ho : Rule.operatorRank? operator.kind = some rank)
    (hr : right.Derived w) (hleft : left.rank ≤ rank) (hright : right.rank < rank) :
    Grammar.Operation rank (u ++ operator :: w)
      (Grammar.operation rank left.anonymous operator right.anonymous) := by
  have hrank := Rule.operatorRank?_lt ho
  obtain ⟨level, rfl⟩ : ∃ level, rank = level + 1 := ⟨rank - 1, by omega⟩
  exact .operation (hl.operation _ hleft hrank) (Rule.mem_operators ho)
    (hr.operation _ (Nat.le_of_lt_succ hright) (Nat.lt_of_succ_lt hrank))

end Expr

theorem Literal.primary {value : Literal} {t : Token} (h : t.kind = value.kind) :
    Grammar.Primary [t] (.literal value) := by
  match value with
  | .nil => exact .nil h
  | .bool true => exact .true h
  | .bool false => exact .false h
  | .number x => exact .number h
  | .string s => exact .string h

/-- The tokens are a declaration with the statement as its tree. -/
structure Stmt.Derived (u : List Token) (s : Stmt) : Prop where
  declaration : Grammar.Declaration u s.anonymous
  statement : s.declared? = none → Grammar.Statement s.endsOpen u s.anonymous

namespace Stmt

theorem derived_of_statement {u : List Token} {s : Stmt}
    (h : Grammar.Statement s.endsOpen u s.anonymous) : s.Derived u :=
  ⟨.statement h, fun _ => h⟩

theorem derived_of_declaration {u : List Token} {s : Stmt} {name : Token}
    (h : Grammar.Declaration u s.anonymous) (hs : s.declared? = some name) : s.Derived u :=
  ⟨h, fun hnone => nomatch hs.symm.trans hnone⟩

end Stmt

section Derived

open Slot (match_nil match_kept match_implied match_append)

open Treewalk.Expr (derived_of_call derived_of_operation derived_of_assignment)

mutual

theorem Expr.Fitting.derived : (e : Expr) → e.Fitting → ∀ {u}, Slot.Match e.slots u → e.Derived u
  | .literal value, _, u, hu => by
    simp only [Expr.slots, match_implied, match_nil] at hu
    obtain ⟨t, _, rfl, ht, rfl⟩ := hu
    exact derived_of_call (.primary (Literal.primary ht))
  | .grouping inner, h, u, hu => by
    simp only [Expr.Fitting] at h
    simp only [Expr.slots, List.cons_append, match_implied, match_append, match_nil] at hu
    obtain ⟨opening, _, rfl, ho, v, _, rfl, hv, closing, _, rfl, hc, rfl⟩ := hu
    exact derived_of_call (.primary (.grouping ho (Expr.Fitting.derived inner h hv).expression hc))
  | .unary operator operand, h, u, hu => by
    simp only [Expr.Fitting] at h
    obtain ⟨ho, hrank, h⟩ := h
    simp only [Expr.slots, match_kept] at hu
    obtain ⟨v, rfl, hv⟩ := hu
    have hoperand := (Expr.Fitting.derived operand h hv).operation 0 (Nat.le_of_eq hrank) (by decide)
    refine derived_of_operation (by simp [Expr.rank, Rule.assignmentRank])
      (.unary (.operator ?_ hoperand.unary_of_zero)) rfl
    simpa [Rule.isUnaryOperator] using ho
  | .binary left operator right, h, u, hu => by
    simp only [Expr.Fitting] at h
    obtain ⟨⟨rank, hlt, ho, hleft, hright⟩, hl, hr⟩ := h
    simp only [Expr.slots, match_append, match_kept] at hu
    obtain ⟨v, _, rfl, hv, w, rfl, hw⟩ := hu
    have := (Expr.Fitting.derived left hl hv).operand ho (Expr.Fitting.derived right hr hw) hleft
      hright
    rw [Grammar.operation, if_pos hlt] at this
    have hrank : (Expr.binary left operator right).rank = rank := by simp [Expr.rank, ho]
    exact derived_of_operation (hrank ▸ Rule.operatorRank?_lt ho) (hrank ▸ this) rfl
  | .logical left operator right, h, u, hu => by
    simp only [Expr.Fitting] at h
    obtain ⟨⟨rank, hge, ho, hleft, hright⟩, hl, hr⟩ := h
    simp only [Expr.slots, match_append, match_kept] at hu
    obtain ⟨v, _, rfl, hv, w, rfl, hw⟩ := hu
    have := (Expr.Fitting.derived left hl hv).operand ho (Expr.Fitting.derived right hr hw) hleft
      hright
    rw [Grammar.operation, if_neg (Nat.not_lt.2 hge)] at this
    have hrank : (Expr.logical left operator right).rank = rank := by simp [Expr.rank, ho]
    exact derived_of_operation (hrank ▸ Rule.operatorRank?_lt ho) (hrank ▸ this) rfl
  | .variable _ name, h, u, hu => by
    simp only [Expr.Fitting] at h
    simp only [Expr.slots, match_kept, match_nil] at hu
    obtain ⟨_, rfl, rfl⟩ := hu
    exact derived_of_call (.primary (.variable h))
  | .assign _ name value, h, u, hu => by
    simp only [Expr.Fitting] at h
    simp only [Expr.slots, match_kept, match_implied] at hu
    obtain ⟨_, rfl, equal, v, rfl, he, hv⟩ := hu
    exact derived_of_assignment rfl (.assign h.1 he (Expr.Fitting.derived value h.2 hv).expression)
      rfl
  | .call callee closing arguments, h, u, hu => by
    simp only [Expr.Fitting] at h
    obtain ⟨⟨hcall, hcallee⟩, hc, hlength, harguments⟩ := h
    simp only [Expr.slots, List.append_assoc, List.cons_append, match_append, match_implied,
      match_kept, match_nil] at hu
    obtain ⟨v, _, rfl, hv, opening, _, rfl, ho, w, _, rfl, hw, _, rfl, rfl⟩ := hu
    have hall : Grammar.Arguments w (Expr.anonymousAll arguments) := by
      by_cases hne : arguments = []
      · subst hne
        obtain rfl := match_nil.1 hw
        exact .none
      · exact .some (Expr.AllFitting.derived arguments hne harguments hw) (by simpa)
    exact derived_of_call (by
      simpa using Grammar.Call.call ((Expr.Fitting.derived callee hcallee hv).call hcall) ho hall hc)
  | .get object name, h, u, hu => by
    simp only [Expr.Fitting] at h
    obtain ⟨⟨hcall, hobject⟩, hn⟩ := h
    simp only [Expr.slots, match_append, match_implied, match_kept, match_nil] at hu
    obtain ⟨v, _, rfl, hv, dot, _, rfl, hd, _, rfl, rfl⟩ := hu
    exact derived_of_call (.get ((Expr.Fitting.derived object hobject hv).call hcall) hd hn)
  | .set object name value, h, u, hu => by
    simp only [Expr.Fitting] at h
    obtain ⟨⟨hcall, hobject⟩, hn, hvalue⟩ := h
    simp only [Expr.slots, match_append, match_implied, match_kept] at hu
    obtain ⟨v, _, rfl, hv, dot, _, rfl, hd, _, rfl, equal, w, rfl, he, hw⟩ := hu
    exact derived_of_assignment rfl (.set ((Expr.Fitting.derived object hobject hv).call hcall) hd
      hn he (Expr.Fitting.derived value hvalue hw).expression) rfl
  | .this _ keyword, h, u, hu => by
    simp only [Expr.Fitting] at h
    simp only [Expr.slots, match_kept, match_nil] at hu
    obtain ⟨_, rfl, rfl⟩ := hu
    exact derived_of_call (.primary (.this h))
  | .super _ keyword method, h, u, hu => by
    simp only [Expr.Fitting] at h
    simp only [Expr.slots, match_kept, match_implied, match_nil] at hu
    obtain ⟨_, rfl, dot, _, rfl, hd, _, rfl, rfl⟩ := hu
    exact derived_of_call (.primary (.super h.1 hd h.2))

theorem Expr.AllFitting.derived : (es : List Expr) → es ≠ [] → Expr.AllFitting es →
    ∀ {u}, Slot.Match (Slot.separated (Expr.slotsAll es)) u →
      Grammar.Expressions u (Expr.anonymousAll es)
  | [], hne, _, _, _ => absurd rfl hne
  | [e], _, h, u, hu => .one (Expr.Fitting.derived e h.1 hu).expression
  | e :: e' :: rest, _, h, u, hu => by
    simp only [Expr.slotsAll, Slot.separated, match_append, match_implied] at hu
    obtain ⟨v, _, rfl, hv, comma, w, rfl, hc, hw⟩ := hu
    exact .more (Expr.Fitting.derived e h.1 hv).expression hc
      (Expr.AllFitting.derived (e' :: rest) (List.cons_ne_nil _ _) h.2 hw)

end

theorem names_of_match : (names : List Token) → names ≠ [] → (∀ t ∈ names, t.kind = .identifier) →
    ∀ {u}, Slot.Match (Slot.separated (names.map fun t => [kept t])) u → Grammar.Names u names
  | [], hne, _, _, _ => absurd rfl hne
  | [name], _, h, u, hu => by
    simp only [List.map, Slot.separated, match_kept, match_nil] at hu
    obtain ⟨_, rfl, rfl⟩ := hu
    exact .one (h name List.mem_cons_self)
  | name :: name' :: rest, _, h, u, hu => by
    simp only [List.map, Slot.separated, List.cons_append, List.nil_append, match_kept,
      match_implied] at hu
    obtain ⟨_, rfl, comma, w, rfl, hc, hw⟩ := hu
    exact .more (h name List.mem_cons_self) hc (names_of_match (name' :: rest)
      (List.cons_ne_nil _ _) (fun t ht => h t (List.mem_cons_of_mem _ ht)) hw)

open Treewalk.Stmt (derived_of_statement derived_of_declaration)

mutual

theorem Stmt.Fitting.derived : (s : Stmt) → s.Fitting → ∀ {u}, Slot.Match s.slots u → s.Derived u
  | .expression e, h, u, hu => by
    simp only [Stmt.Fitting] at h
    simp only [Stmt.slots, match_append, match_implied, match_nil] at hu
    obtain ⟨v, _, rfl, hv, semicolon, _, rfl, hs, rfl⟩ := hu
    exact derived_of_statement (.expression (.intro (h.derived e hv).expression hs))
  | .print e, h, u, hu => by
    simp only [Stmt.Fitting] at h
    simp only [Stmt.slots, List.cons_append, match_append, match_implied, match_nil] at hu
    obtain ⟨print, _, rfl, hp, v, _, rfl, hv, semicolon, _, rfl, hs, rfl⟩ := hu
    exact derived_of_statement (.print hp (h.derived e hv).expression hs)
  | .var name none, h, u, hu => by
    simp only [Stmt.Fitting] at h
    simp only [Stmt.slots, match_kept, match_implied, match_nil] at hu
    obtain ⟨var, _, rfl, hvar, _, rfl, semicolon, _, rfl, hs, rfl⟩ := hu
    exact derived_of_declaration (.variable (.plain hvar h hs)) rfl
  | .var name (some e), h, u, hu => by
    simp only [Stmt.Fitting] at h
    simp only [Stmt.slots, List.cons_append, match_append, match_kept, match_implied,
      match_nil] at hu
    obtain ⟨var, _, rfl, hvar, _, rfl, equal, _, rfl, he, v, _, rfl, hv, semicolon, _, rfl, hs,
      rfl⟩ := hu
    exact derived_of_declaration
      (.variable (.initial hvar h.1 he (h.2.derived e hv).expression hs)) rfl
  | .block body, h, u, hu => by
    simp only [Stmt.Fitting] at h
    simp only [Stmt.slots, List.cons_append, match_append, match_implied, match_nil] at hu
    obtain ⟨opening, _, rfl, ho, v, _, rfl, hv, closing, _, rfl, hc, rfl⟩ := hu
    exact derived_of_statement (.block (.intro ho (Stmt.AllFitting.derived body h hv) hc))
  | .if condition consequent none, h, u, hu => by
    simp only [Stmt.Fitting] at h
    obtain ⟨hcondition, hd, hconsequent⟩ := h
    simp only [Stmt.slots, List.cons_append, match_append, match_implied] at hu
    obtain ⟨keyword, _, rfl, hk, opening, _, rfl, ho, v, _, rfl, hv, closing, w, rfl, hc, hw⟩ := hu
    exact derived_of_statement (.if hk ho (hcondition.derived condition hv).expression hc
      ((Stmt.Fitting.derived consequent hconsequent hw).statement hd))
  | .if condition consequent (some alternative), h, u, hu => by
    simp only [Stmt.Fitting] at h
    obtain ⟨hcondition, ⟨hd, hclosed, hconsequent⟩, hd', halternative⟩ := h
    simp only [Stmt.slots, List.cons_append, List.append_assoc, match_append, match_implied] at hu
    obtain ⟨keyword, _, rfl, hk, opening, _, rfl, ho, v, _, rfl, hv, closing, _, rfl, hc, w, _, rfl,
      hw, otherwise, x, rfl, he, hx⟩ := hu
    have hthen := (Stmt.Fitting.derived consequent hconsequent hw).statement hd
    have helse := (Stmt.Fitting.derived alternative halternative hx).statement hd'
    rw [hclosed] at hthen
    refine derived_of_statement ?_
    rw [Stmt.endsOpen]
    simpa using Grammar.Statement.ifElse hk ho (hcondition.derived condition hv).expression hc hthen
      he helse
  | .while condition body, h, u, hu => by
    simp only [Stmt.Fitting] at h
    obtain ⟨hcondition, hd, hbody⟩ := h
    simp only [Stmt.slots, List.cons_append, match_append, match_implied] at hu
    obtain ⟨keyword, _, rfl, hk, opening, _, rfl, ho, v, _, rfl, hv, closing, w, rfl, hc, hw⟩ := hu
    exact derived_of_statement (.while hk ho (hcondition.derived condition hv).expression hc
      ((Stmt.Fitting.derived body hbody hw).statement hd))
  | .function f, h, u, hu => by
    simp only [Stmt.Fitting] at h
    simp only [Stmt.slots, match_implied] at hu
    obtain ⟨keyword, v, rfl, hk, hv⟩ := hu
    exact derived_of_declaration (.function hk (FunctionDecl.Fitting.derived f h hv)) rfl
  | .return keyword none, h, u, hu => by
    simp only [Stmt.Fitting] at h
    simp only [Stmt.slots, match_kept, match_implied, match_nil] at hu
    obtain ⟨_, rfl, semicolon, _, rfl, hs, rfl⟩ := hu
    exact derived_of_statement (.return h .none hs)
  | .return keyword (some e), h, u, hu => by
    simp only [Stmt.Fitting] at h
    simp only [Stmt.slots, List.cons_append, match_append, match_kept, match_implied,
      match_nil] at hu
    obtain ⟨_, rfl, v, _, rfl, hv, semicolon, _, rfl, hs, rfl⟩ := hu
    exact derived_of_statement (.return h.1 (.some (h.2.derived e hv).expression) hs)
  | .class name none methods, h, u, hu => by
    simp only [Stmt.Fitting] at h
    simp only [Stmt.slots, List.cons_append, match_append, match_kept, match_implied,
      match_nil] at hu
    obtain ⟨keyword, _, rfl, hk, _, rfl, opening, _, rfl, ho, v, _, rfl, hv, closing, _, rfl, hc,
      rfl⟩ := hu
    exact derived_of_declaration
      (.class hk h.1 .none ho (Stmt.MethodsFitting.derived methods h.2 hv) hc) rfl
  | .class name (some superclass) methods, h, u, hu => by
    simp only [Stmt.Fitting] at h
    obtain ⟨hn, ⟨node, superName, rfl, hsuper⟩, hmethods⟩ := h
    simp only [Stmt.slots, Expr.slots, List.cons_append, List.nil_append, match_append, match_kept,
      match_implied, match_nil] at hu
    obtain ⟨keyword, _, rfl, hk, _, rfl, less, _, rfl, hl, _, rfl, opening, _, rfl, ho, v, _, rfl,
      hv, closing, _, rfl, hc, rfl⟩ := hu
    exact derived_of_declaration
      (.class hk hn (.some hl hsuper) ho (Stmt.MethodsFitting.derived methods hmethods hv) hc) rfl

theorem Stmt.AllFitting.derived : (ss : List Stmt) → Stmt.AllFitting ss →
    ∀ {u}, Slot.Match (Stmt.slotsAll ss) u → Grammar.Declarations u (Stmt.anonymousAll ss)
  | [], _, u, hu => by
    obtain rfl := match_nil.1 hu
    exact .nil
  | s :: rest, h, u, hu => by
    simp only [Stmt.AllFitting] at h
    simp only [Stmt.slotsAll, match_append] at hu
    obtain ⟨v, w, rfl, hv, hw⟩ := hu
    exact .cons (Stmt.Fitting.derived s h.1 hv).declaration (Stmt.AllFitting.derived rest h.2 hw)

theorem FunctionDecl.Fitting.derived : (f : FunctionDecl) → f.Fitting →
    ∀ {u}, Slot.Match f.slots u → Grammar.Function u f.anonymous
  | ⟨name, parameters, body⟩, h, u, hu => by
    simp only [FunctionDecl.Fitting] at h
    obtain ⟨hn, hparameters, hlength, hbody⟩ := h
    simp only [FunctionDecl.slots, List.cons_append, List.append_assoc, match_append, match_kept,
      match_implied, match_nil] at hu
    obtain ⟨_, rfl, opening, _, rfl, ho, v, _, rfl, hv, closing, _, rfl, hc, brace, _, rfl, hb, w, _,
      rfl, hw, last, _, rfl, hlast, rfl⟩ := hu
    have hall : Grammar.Parameters v parameters := by
      by_cases hne : parameters = []
      · subst hne
        obtain rfl := match_nil.1 hv
        exact .none
      · exact .some (names_of_match parameters hne hparameters hv) hlength
    simpa using Grammar.Function.intro hn ho hall hc
      (.intro hb (Stmt.AllFitting.derived body hbody hw) hlast)

theorem Stmt.MethodsFitting.derived : (ms : List FunctionDecl) → Stmt.MethodsFitting ms →
    ∀ {u}, Slot.Match (Stmt.methodSlots ms) u → Grammar.Functions u (Stmt.anonymousMethods ms)
  | [], _, u, hu => by
    obtain rfl := match_nil.1 hu
    exact .nil
  | m :: rest, h, u, hu => by
    simp only [Stmt.MethodsFitting] at h
    simp only [Stmt.methodSlots, match_append] at hu
    obtain ⟨v, w, rfl, hv, hw⟩ := hu
    exact .cons (FunctionDecl.Fitting.derived m h.1 hv) (Stmt.MethodsFitting.derived rest h.2 hw)

end

end Derived

end Treewalk
