import Treewalk.Proofs.Decimal.Texts
import Treewalk.Proofs.Renaming.Trees
import Treewalk.Proofs.Token.Munch
import Treewalk.Proofs.Tree.Prefixed
/-!
# Taking trees back from their prefix form

Of a nested list `Expr.ofNested` and `Stmt.ofNested` make the tree that it is the prefix form of. They
take back every tree that is `Legible`: the tokens that it shows are lexemes, and no literal in it is a
string or beyond the finite numbers. Each constructor keeps trees legible. Identities, lines and what the
prefix form leaves out are made up, and so trees are taken back up to renaming.
-/

namespace Treewalk

open Lexer (cut)

/-! ### Tokens -/

/-- The token that a text is. -/
def Token.ofLexeme (s : String) : Token :=
  match s.toList with
  | [] => ⟨.eof, s, 0⟩
  | c :: rest =>
    match (cut c rest).1 with
    | .token kind => ⟨kind, s, 0⟩
    | _ => ⟨.eof, s, 0⟩

/-- Neither a string nor a number that is beyond the finite ones. -/
def Kind.Legible : Kind → Prop
  | .string _ => False
  | .number x => Decimal.magnitude x ≠ .infinite
  | _ => True

instance : (k : Kind) → Decidable k.Legible
  | .string _ => .isFalse id
  | .number x => inferInstanceAs (Decidable (Decimal.magnitude x ≠ .infinite))
  | .mark _ | .keyword _ | .identifier | .eof => .isTrue trivial

structure Token.Legible (t : Token) : Prop where
  lexeme : Lexeme t.kind t.lexeme.toList
  kind : t.kind.Legible

theorem Lexeme.ofLexeme_eq {kind : Kind} {s : String} (h : Lexeme kind s.toList) :
    Token.ofLexeme s = ⟨kind, s, 0⟩ := by
  obtain ⟨c, v, hs⟩ := h.exists_cons
  rw [hs] at h
  unfold Token.ofLexeme
  simp only [hs, h.cut_eq]

theorem Token.Legible.ofLexeme_eq {t : Token} (h : t.Legible) :
    Token.ofLexeme t.lexeme = t.rename .unlined :=
  h.lexeme.ofLexeme_eq

theorem Lexeme.eq_spelling {k : Keyword} {w : List Char} (h : Lexeme (.keyword k) w) :
    w = k.spelling.toList := by
  cases h
  rfl

theorem Lexeme.eq_mark {m : Mark} {w : List Char} (h : Lexeme (.mark m) w) :
    w = m.spelling.toList := by
  cases h
  rfl

theorem Token.Legible.spelling {t : Token} (h : t.Legible) {k : Keyword}
    (hkind : t.kind = .keyword k) : t.lexeme = k.spelling :=
  String.toList_inj.1 (hkind ▸ h.lexeme).eq_spelling

theorem Nested.isDelimiter_of_isNamePart {c : Char} (h : Lexer.isNamePart c = true) :
    isDelimiter c = false := by
  unfold isDelimiter
  simp only [Bool.or_eq_false_iff, decide_eq_false_iff_not]
  refine ⟨⟨?_, ?_⟩, ?_⟩
  all_goals
    rintro rfl
    exact absurd h (by decide)

theorem Nested.isDelimiter_of_isDigit {c : Char} (h : Lexer.isDigit c = true) :
    isDelimiter c = false :=
  isDelimiter_of_isNamePart (by rw [Lexer.isNamePart, h, Bool.or_true])

/-- Of the tokens only parentheses, and strings, have delimiters in them. -/
theorem Token.Legible.solid {t : Token} (h : t.Legible) (hl : t.kind ≠ .mark .leftParen)
    (hr : t.kind ≠ .mark .rightParen) : Nested.Solid t.lexeme.toList := by
  obtain ⟨hlexeme, hkind⟩ := h
  generalize t.kind = kind at *
  generalize t.lexeme.toList = w at *
  have hdigits {ds : List Char} (hd : ∀ c ∈ ds, Lexer.isDigit c = true) :
      ∀ c ∈ ds, Nested.isDelimiter c = false :=
    fun c hc => Nested.isDelimiter_of_isDigit (hd c hc)
  cases hlexeme with
  | mark m => cases m <;> first | contradiction | decide
  | string _ _ => exact hkind.elim
  | integer hd => exact ⟨List.cons_ne_nil _ _, hdigits hd⟩
  | fraction hd hp =>
    exact ⟨List.cons_ne_nil _ _,
      List.forall_mem_append.2 ⟨hdigits hd, List.forall_mem_cons.2 ⟨rfl, hdigits hp⟩⟩⟩
  | keyword k => cases k <;> decide
  | identifier hc ht =>
    refine ⟨List.cons_ne_nil _ _, List.forall_mem_cons.2 ⟨?_, fun c hc => ?_⟩⟩
    · exact Nested.isDelimiter_of_isNamePart (by rw [Lexer.isNamePart, hc, Bool.true_or])
    · exact Nested.isDelimiter_of_isNamePart (ht c hc)

theorem Token.Legible.solid_name {t : Token} (h : t.Legible) (hkind : t.kind = .identifier) :
    Nested.Solid t.lexeme.toList :=
  h.solid (by rw [hkind]; nofun) (by rw [hkind]; nofun)

/-! ### Texts of numbers -/

namespace Literal

open Decimal

variable {x : Float} {b : Binary}

theorem isDelimiter_of_digital {c : Char} (h : c.isDigit = true ∨ c = '.') :
    Nested.isDelimiter c = false := by
  rcases h with h | rfl
  · exact Nested.isDelimiter_of_isDigit h
  · rfl

/-- The text of a finite number is one atom. -/
theorem numberText_solid (h : magnitude x = .finite b) : Nested.Solid (numberText x).toList := by
  obtain ⟨cs, htext, hnumeric, -⟩ := numberText_eq h
  obtain ⟨c, hc, -⟩ := hnumeric.begins
  have hwithin (d : Char) (hd : d ∈ cs) : Nested.isDelimiter d = false :=
    isDelimiter_of_digital (hnumeric.within d hd)
  rw [htext, signed, String.toList_ofList]
  cases isNegative x
  · refine ⟨?_, hwithin⟩
    rintro rfl
    cases hc
  · exact ⟨List.cons_ne_nil _ _, List.forall_mem_cons.2 ⟨rfl, hwithin⟩⟩

/-- The text of a finite number is no word. -/
theorem kind_numberText (h : magnitude x = .finite b) :
    (Token.ofLexeme (numberText x)).kind = .mark .minus ∨
      ∃ y, (Token.ofLexeme (numberText x)).kind = .number y := by
  obtain ⟨cs, htext, hnumeric, -⟩ := numberText_eq h
  obtain ⟨c, hc, hdigit⟩ := hnumeric.begins
  obtain ⟨v, rfl⟩ := List.head?_eq_some_iff.1 hc
  rw [htext, signed, Token.ofLexeme, String.toList_ofList]
  cases isNegative x
  · simp only [Bool.false_eq_true, if_false, Lexer.cut_of_isDigit hdigit]
    exact .inr ⟨_, rfl⟩
  · exact .inl rfl

/-- The finite number with the text. -/
noncomputable def numeral : String → Float :=
  Function.invFunOn numberText {x | ∃ b, magnitude x = .finite b}

theorem numeral_numberText (h : magnitude x = .finite b) : numeral (numberText x) = x := by
  have hinj : Set.InjOn numberText {x | ∃ b, magnitude x = .finite b} := by
    rintro x ⟨b, hx⟩ y ⟨b', hy⟩ heq
    exact numberText_injective hx hy heq
  exact hinj.leftInvOn_invFunOn ⟨b, h⟩

end Literal

/-! ### Trees of nested lists -/

def Nested.token : Nested → Token
  | .atom s => .ofLexeme s
  | .list _ => .ofLexeme ""

noncomputable section Decoding

def Expr.ofAtom (s : String) : Expr :=
  let t := Token.ofLexeme s
  match t.kind with
  | .keyword .nil => .literal .nil
  | .keyword .true => .literal (.bool true)
  | .keyword .false => .literal (.bool false)
  | .keyword _ => .this 0 t
  | .identifier => .variable 0 t
  | _ => .literal (.number (Literal.numeral s))

/-- The expression whose head and items these are. -/
def Expr.ofNode (head : String) (items : List Expr) : Expr :=
  let operator := Token.ofLexeme head
  match operator.kind, items with
  | .identifier, first :: rest =>
    if head = "group" then .grouping first else .call first (.ofLexeme ")") rest
  | .mark .equal, [.variable _ name, value] => .assign 0 name value
  | .mark .equal, [.get object name, value] => .set object name value
  | .mark .dot, [object, .variable _ name] => .get object name
  | .keyword .super, [.variable _ method] => .super 0 operator method
  | .keyword _, [left, right] => .logical left operator right
  | .mark _, [operand] => .unary operator operand
  | .mark _, [left, right] => .binary left operator right
  | _, _ => .literal .nil

mutual

def Expr.ofNested : Nested → Expr
  | .atom s => .ofAtom s
  | .list (.atom head :: items) => .ofNode head (Expr.ofNestedAll items)
  | .list _ => .literal .nil

def Expr.ofNestedAll : List Nested → List Expr
  | [] => []
  | x :: rest => Expr.ofNested x :: Expr.ofNestedAll rest

end

mutual

def Stmt.ofNested : Nested → Stmt
  | .list (.atom head :: items) =>
    let keyword := Token.ofLexeme head
    match keyword.kind, items with
    | .mark _, [e] => .expression (.ofNested e)
    | .keyword .print, [e] => .print (.ofNested e)
    | .keyword .var, [name] => .var name.token none
    | .keyword .var, [name, _, e] => .var name.token (some (.ofNested e))
    | .keyword .if, [condition, consequent] =>
      .if (.ofNested condition) (Stmt.ofNested consequent) none
    | .keyword .if, [condition, consequent, alternative] =>
      .if (.ofNested condition) (Stmt.ofNested consequent)
        (some (Stmt.ofNested alternative))
    | .keyword .while, [condition, body] =>
      .while (.ofNested condition) (Stmt.ofNested body)
    | .keyword .return, [] => .return keyword none
    | .keyword .return, [e] => .return keyword (some (.ofNested e))
    | .keyword .fun, items => .function (FunctionDecl.ofItems items)
    | .keyword .class, name :: .atom _ :: superclass :: methods =>
      .class name.token (some (.ofNested superclass)) (Stmt.ofNestedMethods methods)
    | .keyword .class, name :: methods => .class name.token none (Stmt.ofNestedMethods methods)
    | _, body => .block (Stmt.ofNestedAll body)
  | _ => .block []

def Stmt.ofNestedAll : List Nested → List Stmt
  | [] => []
  | x :: rest => Stmt.ofNested x :: Stmt.ofNestedAll rest

def FunctionDecl.ofItems : List Nested → FunctionDecl
  | name :: .list parameters :: body =>
    ⟨name.token, parameters.map Nested.token, Stmt.ofNestedAll body⟩
  | _ => ⟨.ofLexeme "", [], []⟩

def Stmt.ofNestedMethods : List Nested → List FunctionDecl
  | .list (_ :: items) :: rest => FunctionDecl.ofItems items :: Stmt.ofNestedMethods rest
  | _ => []

end

end Decoding

attribute [simp] Expr.ofAtom Expr.ofNode Expr.ofNested Expr.ofNestedAll Stmt.ofNested
  Stmt.ofNestedAll FunctionDecl.ofItems Stmt.ofNestedMethods

/-! ### Expressions that are taken back -/

/-- The expression is taken back from its nested list, but for identities and lines. -/
structure Expr.Legible (e : Expr) : Prop where
  proper : e.nested.Proper
  ofNested_eq : Expr.ofNested e.nested = e.rename .unlined

structure Expr.AllLegible (es : List Expr) : Prop where
  proper : Nested.AllProper (Expr.nestedAll es)
  ofNestedAll_eq : Expr.ofNestedAll (Expr.nestedAll es) = Expr.renameAll .unlined es

namespace Expr

open Decimal

theorem AllLegible.nil : AllLegible [] :=
  ⟨.nil, rfl⟩

theorem AllLegible.cons {e : Expr} {rest : List Expr} (h : e.Legible) (hs : AllLegible rest) :
    AllLegible (e :: rest) := by
  refine ⟨?_, ?_⟩
  · rw [nestedAll]
    exact .cons h.proper hs.proper
  · rw [nestedAll, ofNestedAll, h.ofNested_eq, hs.ofNestedAll_eq, renameAll]

theorem legible_atom {e : Expr} {s : String} (he : e.nested = .atom s)
    (hs : Nested.Solid s.toList) (h : ofAtom s = e.rename .unlined) : e.Legible := by
  refine ⟨?_, ?_⟩
  · rw [he]
    exact .atom hs
  · rw [he, ofNested, h]

theorem legible_list {e : Expr} {head : String} {items : List Nested}
    (he : e.nested = .list (.atom head :: items)) (hhead : Nested.Solid head.toList)
    (hitems : Nested.AllProper items) (h : ofNode head (ofNestedAll items) = e.rename .unlined) :
    e.Legible := by
  refine ⟨?_, ?_⟩
  · rw [he]
    exact .list (.cons (.atom hhead) hitems)
  · rw [he, ofNested, h]

/-- The atoms that are keywords. -/
theorem legible_keyword {e : Expr} {k : Keyword} (he : e.nested = .atom k.spelling)
    (h : ofAtom k.spelling = e.rename .unlined) : e.Legible := by
  refine legible_atom he ?_ h
  cases k <;> decide

theorem legible_true : (literal (.bool true)).Legible := by
  refine legible_keyword (k := .true) (by rw [nested]; rfl) ?_
  unfold ofAtom
  rw [Lexeme.ofLexeme_eq (.keyword .true)]
  rfl

theorem legible_false : (literal (.bool false)).Legible := by
  refine legible_keyword (k := .false) (by rw [nested]; rfl) ?_
  unfold ofAtom
  rw [Lexeme.ofLexeme_eq (.keyword .false)]
  rfl

theorem legible_nil : (literal .nil).Legible := by
  refine legible_keyword (k := .nil) (by rw [nested]; rfl) ?_
  unfold ofAtom
  rw [Lexeme.ofLexeme_eq (.keyword .nil)]
  rfl

theorem legible_this {keyword : Token} (h : keyword.Legible)
    (hkind : keyword.kind = .keyword .this) : (this 0 keyword).Legible := by
  refine legible_keyword (k := .this) (by rw [nested]; rfl) ?_
  simp only [ofAtom, ← h.spelling hkind, h.ofLexeme_eq, Token.kind_rename, hkind]
  rfl

theorem legible_number {x : Float} {b : Binary} (h : magnitude x = .finite b) :
    (literal (.number x)).Legible := by
  refine legible_atom (by rw [nested]; rfl) (Literal.numberText_solid h) ?_
  unfold ofAtom
  rcases Literal.kind_numberText h with hkind | ⟨y, hkind⟩ <;>
    simp only [hkind, Literal.numeral_numberText h, rename]

theorem ofAtom_name {name : Token} (h : name.Legible) (hkind : name.kind = .identifier) :
    ofAtom name.lexeme = .variable 0 (name.rename .unlined) := by
  simp only [ofAtom, h.ofLexeme_eq, Token.kind_rename, hkind]

theorem legible_variable {name : Token} (h : name.Legible) (hkind : name.kind = .identifier) :
    (Expr.variable 0 name).Legible :=
  legible_atom (by rw [nested]) (h.solid_name hkind) (ofAtom_name h hkind)

theorem legible_super {keyword method : Token} (hk : keyword.Legible) (hm : method.Legible)
    (hkeyword : keyword.kind = .keyword .super) (hmethod : method.kind = .identifier) :
    (super 0 keyword method).Legible := by
  have hspelling : keyword.lexeme = "super" := hk.spelling hkeyword
  refine legible_list (by rw [nested]) (by decide)
    (.cons (.atom (hm.solid_name hmethod)) .nil) ?_
  simp only [ofNestedAll, ofNested, ofAtom_name hm hmethod, ofNode, ← hspelling, hk.ofLexeme_eq,
    Token.kind_rename, hkeyword]
  rfl

theorem Legible.grouping {inner : Expr} (h : inner.Legible) : (grouping inner).Legible := by
  have hhead : Token.ofLexeme "group" = ⟨.identifier, "group", 0⟩ := by decide
  refine legible_list (by rw [nested]) (by decide) (.cons h.proper .nil) ?_
  simp only [ofNestedAll, ofNode, hhead, h.ofNested_eq]
  rfl

theorem Legible.unary {operator : Token} {operand : Expr} (ho : operator.Legible)
    (hkind : operator.kind = .mark .bang ∨ operator.kind = .mark .minus) (h : operand.Legible) :
    (unary operator operand).Legible := by
  have hsolid : Nested.Solid operator.lexeme.toList :=
    ho.solid (by rcases hkind with h | h <;> rw [h] <;> decide)
      (by rcases hkind with h | h <;> rw [h] <;> decide)
  refine legible_list (by rw [nested]) hsolid (.cons h.proper .nil) ?_
  simp only [ofNestedAll, ofNode, ho.ofLexeme_eq, h.ofNested_eq, Token.kind_rename]
  rcases hkind with hkind | hkind <;> simp only [hkind, rename]

theorem Legible.operation {level : Nat} {operator : Token} {left right : Expr}
    (ho : operator.Legible) (hkind : operator.kind ∈ Grammar.operators level)
    (hl : left.Legible) (hr : right.Legible) :
    (Grammar.operation level left operator right).Legible := by
  have hnested : (Grammar.operation level left operator right).nested =
      .list [.atom operator.lexeme, left.nested, right.nested] := by
    unfold Grammar.operation
    split <;> rw [nested]
  have hsolid : Nested.Solid operator.lexeme.toList := by
    refine ho.solid ?_ ?_ <;>
    · intro h
      rw [h] at hkind
      unfold Grammar.operators at hkind
      split at hkind <;> simp at hkind
  refine legible_list hnested hsolid (.cons hl.proper (.cons hr.proper .nil)) ?_
  simp only [ofNestedAll, ofNode, ho.ofLexeme_eq, hl.ofNested_eq, hr.ofNested_eq,
    Token.kind_rename]
  -- Only the kind of the operator, and not its level, says whether the operation is logical.
  unfold Grammar.operators at hkind
  split at hkind <;> simp only [List.mem_cons, List.not_mem_nil, or_false] at hkind
  case h_1 | h_2 | h_4 => rcases hkind with h | h <;> simp only [h] <;> rfl
  case h_3 => rcases hkind with h | h | h | h <;> simp only [h] <;> rfl
  case h_5 | h_6 =>
    simp only [hkind]
    rfl

theorem Legible.assign {name : Token} {value : Expr} (hn : name.Legible)
    (hkind : name.kind = .identifier) (h : value.Legible) : (assign 0 name value).Legible := by
  have hhead : Token.ofLexeme "=" = _ := Lexeme.ofLexeme_eq (.mark .equal)
  refine legible_list (by rw [nested]) (by decide)
    (.cons (.atom (hn.solid_name hkind)) (.cons h.proper .nil)) ?_
  simp only [ofNestedAll, ofNested, ofAtom_name hn hkind, ofNode, hhead, h.ofNested_eq]
  rfl

theorem Legible.get {object : Expr} {name : Token} (h : object.Legible) (hn : name.Legible)
    (hkind : name.kind = .identifier) : (get object name).Legible := by
  have hhead : Token.ofLexeme "." = _ := Lexeme.ofLexeme_eq (.mark .dot)
  refine legible_list (by rw [nested]) (by decide)
    (.cons h.proper (.cons (.atom (hn.solid_name hkind)) .nil)) ?_
  simp only [ofNestedAll, ofNested, ofAtom_name hn hkind, ofNode, hhead, h.ofNested_eq, rename]

/-- The target is written as the property that it is. -/
theorem Legible.set {object value : Expr} {name : Token} (ho : object.Legible)
    (hn : name.Legible) (hkind : name.kind = .identifier) (hv : value.Legible) :
    (set object name value).Legible := by
  have hhead : Token.ofLexeme "=" = _ := Lexeme.ofLexeme_eq (.mark .equal)
  have htarget := ho.get hn hkind
  have hnested : (Expr.set object name value).nested =
      .list [.atom "=", (Expr.get object name).nested, value.nested] := by
    rw [nested, nested]
  refine legible_list hnested (by decide) (.cons htarget.proper (.cons hv.proper .nil)) ?_
  simp only [ofNestedAll, htarget.ofNested_eq, hv.ofNested_eq, ofNode, hhead, rename]

theorem Legible.call {callee : Expr} {closing : Token} {arguments : List Expr}
    (h : callee.Legible) (hc : closing.Legible) (hkind : closing.kind = .mark .rightParen)
    (ha : AllLegible arguments) : (call callee closing arguments).Legible := by
  have hhead : Token.ofLexeme "call" = ⟨.identifier, "call", 0⟩ := by decide
  have hclosing : closing.lexeme = ")" := String.toList_inj.1 (hkind ▸ hc.lexeme).eq_mark
  refine legible_list (by rw [nested]) (by decide) (.cons h.proper ha.proper) ?_
  simp only [ofNestedAll, ofNode, hhead, ← hclosing, hc.ofLexeme_eq, h.ofNested_eq,
    ha.ofNestedAll_eq, rename]
  rw [if_neg (by decide)]

end Expr

/-! ### Statements that are taken back -/

structure Stmt.Legible (s : Stmt) : Prop where
  proper : s.nested.Proper
  ofNested_eq : Stmt.ofNested s.nested = s.rename .unlined

structure Stmt.AllLegible (ss : List Stmt) : Prop where
  proper : Nested.AllProper (Stmt.nestedAll ss)
  ofNestedAll_eq : Stmt.ofNestedAll (Stmt.nestedAll ss) = Stmt.renameAll .unlined ss

structure FunctionDecl.Legible (f : FunctionDecl) : Prop where
  proper : Nested.AllProper f.items
  ofItems_eq : FunctionDecl.ofItems f.items = f.rename .unlined

structure Stmt.MethodsLegible (ms : List FunctionDecl) : Prop where
  proper : Nested.AllProper (Stmt.nestedMethods ms)
  ofNestedMethods_eq : Stmt.ofNestedMethods (Stmt.nestedMethods ms) =
    Stmt.renameMethods .unlined ms

theorem Token.Legible.token_eq {t : Token} (h : t.Legible) :
    (Nested.atom t.lexeme).token = t.rename .unlined :=
  h.ofLexeme_eq

namespace Stmt

theorem AllLegible.nil : AllLegible [] :=
  ⟨.nil, rfl⟩

theorem AllLegible.cons {s : Stmt} {rest : List Stmt} (h : s.Legible) (hs : AllLegible rest) :
    AllLegible (s :: rest) := by
  refine ⟨?_, ?_⟩
  · rw [nestedAll]
    exact .cons h.proper hs.proper
  · rw [nestedAll, ofNestedAll, h.ofNested_eq, hs.ofNestedAll_eq, renameAll]

theorem MethodsLegible.nil : MethodsLegible [] :=
  ⟨.nil, rfl⟩

theorem MethodsLegible.cons {m : FunctionDecl} {rest : List FunctionDecl} (h : m.Legible)
    (hs : MethodsLegible rest) : MethodsLegible (m :: rest) := by
  refine ⟨?_, ?_⟩
  · rw [nestedMethods]
    exact .cons (.list (.cons (.atom (by decide)) h.proper)) hs.proper
  · rw [nestedMethods, ofNestedMethods, h.ofItems_eq, hs.ofNestedMethods_eq, renameMethods]

theorem legible_list {s : Stmt} {head : String} {items : List Nested}
    (hs : s.nested = .list (.atom head :: items)) (hhead : Nested.Solid head.toList)
    (hitems : Nested.AllProper items)
    (h : ofNested (.list (.atom head :: items)) = s.rename .unlined) : s.Legible := by
  refine ⟨?_, ?_⟩
  · rw [hs]
    exact .list (.cons (.atom hhead) hitems)
  · rw [hs, h]

theorem Legible.expression {e : Expr} (h : e.Legible) : (expression e).Legible := by
  have hhead : Token.ofLexeme ";" = _ := Lexeme.ofLexeme_eq (.mark .semicolon)
  refine legible_list (by rw [nested]) (by decide) (.cons h.proper .nil) ?_
  rw [ofNested.eq_def]
  simp only [hhead, h.ofNested_eq, rename]

theorem Legible.print {e : Expr} (h : e.Legible) : (print e).Legible := by
  have hhead : Token.ofLexeme "print" = _ := Lexeme.ofLexeme_eq (.keyword .print)
  refine legible_list (by rw [nested]) (by decide) (.cons h.proper .nil) ?_
  simp only [ofNested, hhead, h.ofNested_eq, rename]

theorem Legible.var {name : Token} {value : Option Expr} (hn : name.Legible)
    (hkind : name.kind = .identifier) (h : ∀ e ∈ value, e.Legible) : (var name value).Legible := by
  have hhead : Token.ofLexeme "var" = _ := Lexeme.ofLexeme_eq (.keyword .var)
  cases value with
  | none =>
    refine legible_list (by rw [nested]) (by decide)
      (.cons (.atom (hn.solid_name hkind)) .nil) ?_
    simp only [ofNested, hhead, hn.token_eq, rename]
  | some e =>
    have he := h e rfl
    refine legible_list (by rw [nested]) (by decide)
      (.cons (.atom (hn.solid_name hkind)) (.cons (.atom (by decide))
        (.cons he.proper .nil))) ?_
    simp only [ofNested, hhead, hn.token_eq, he.ofNested_eq, rename]

theorem Legible.block {body : List Stmt} (h : AllLegible body) : (block body).Legible := by
  have hhead : Token.ofLexeme "block" = ⟨.identifier, "block", 0⟩ := by decide
  refine legible_list (by rw [nested]) (by decide) h.proper ?_
  rw [ofNested.eq_def]
  simp only [hhead, h.ofNestedAll_eq, rename]

theorem Legible.if {condition : Expr} {consequent : Stmt} {alternative : Option Stmt}
    (hc : condition.Legible) (ht : consequent.Legible) (h : ∀ s ∈ alternative, s.Legible) :
    (Stmt.if condition consequent alternative).Legible := by
  have hhead : Token.ofLexeme "if" = _ := Lexeme.ofLexeme_eq (.keyword .if)
  cases alternative with
  | none =>
    refine legible_list (by rw [nested]) (by decide)
      (.cons hc.proper (.cons ht.proper .nil)) ?_
    simp only [ofNested, hhead, hc.ofNested_eq, ht.ofNested_eq, rename]
  | some s =>
    have hs := h s rfl
    refine legible_list (by rw [nested]) (by decide)
      (.cons hc.proper (.cons ht.proper (.cons hs.proper .nil))) ?_
    simp only [ofNested, hhead, hc.ofNested_eq, ht.ofNested_eq, hs.ofNested_eq, rename]

theorem Legible.while {condition : Expr} {body : Stmt} (hc : condition.Legible)
    (hb : body.Legible) : (Stmt.while condition body).Legible := by
  have hhead : Token.ofLexeme "while" = _ := Lexeme.ofLexeme_eq (.keyword .while)
  refine legible_list (by rw [nested]) (by decide)
    (.cons hc.proper (.cons hb.proper .nil)) ?_
  simp only [ofNested, hhead, hc.ofNested_eq, hb.ofNested_eq, rename]

theorem Legible.return {keyword : Token} {value : Option Expr} (hk : keyword.Legible)
    (hkind : keyword.kind = .keyword .return) (h : ∀ e ∈ value, e.Legible) :
    (Stmt.return keyword value).Legible := by
  have hspelling : keyword.lexeme = "return" := hk.spelling hkind
  cases value with
  | none =>
    refine legible_list (by rw [nested]) (by decide) .nil ?_
    simp only [← hspelling, ofNested, hk.ofLexeme_eq, Token.kind_rename, hkind, rename]
  | some e =>
    have he := h e rfl
    refine legible_list (by rw [nested]) (by decide) (.cons he.proper .nil) ?_
    simp only [← hspelling, ofNested, hk.ofLexeme_eq, Token.kind_rename, hkind, he.ofNested_eq,
      rename]

theorem Legible.function {f : FunctionDecl} (h : f.Legible) : (function f).Legible := by
  have hhead : Token.ofLexeme "fun" = _ := Lexeme.ofLexeme_eq (.keyword .fun)
  refine legible_list (by rw [nested]) (by decide) h.proper ?_
  simp only [ofNested, hhead, h.ofItems_eq, rename]

theorem Legible.class {name : Token} {superclass : Option Expr} {methods : List FunctionDecl}
    (hn : name.Legible) (hkind : name.kind = .identifier) (hs : ∀ e ∈ superclass, e.Legible)
    (hm : MethodsLegible methods) : (Stmt.class name superclass methods).Legible := by
  have hhead : Token.ofLexeme "class" = _ := Lexeme.ofLexeme_eq (.keyword .class)
  cases superclass with
  | none =>
    refine legible_list (by rw [nested]) (by decide)
      (.cons (.atom (hn.solid_name hkind)) hm.proper) ?_
    have hmethods := hm.ofNestedMethods_eq
    -- A method is no atom, so that the first one is not taken for the mark of a superclass.
    cases methods <;>
      simp only [nestedMethods] at hmethods ⊢ <;>
      simp only [ofNested, hhead, hn.token_eq, hmethods, rename]
  | some e =>
    have he := hs e rfl
    refine legible_list (by rw [nested]) (by decide)
      (.cons (.atom (hn.solid_name hkind)) (.cons (.atom (by decide))
        (.cons he.proper hm.proper))) ?_
    simp only [ofNested, hhead, hn.token_eq, he.ofNested_eq, hm.ofNestedMethods_eq, rename]

end Stmt

theorem FunctionDecl.legible {name : Token} {parameters : List Token} {body : List Stmt}
    (hn : name.Legible) (hkind : name.kind = .identifier)
    (hp : ∀ p ∈ parameters, p.Legible ∧ p.kind = .identifier) (hb : Stmt.AllLegible body) :
    (FunctionDecl.mk name parameters body).Legible := by
  refine ⟨?_, ?_⟩
  · have hnames : Nested.AllProper (parameters.map fun p => .atom p.lexeme) :=
      (Nested.allProper_iff _).2 <| List.forall_mem_map.2 fun p hmem =>
        .atom ((hp p hmem).1.solid_name (hp p hmem).2)
    rw [items]
    exact .cons (.atom (hn.solid_name hkind)) (.cons (.list hnames) hb.proper)
  · have htokens : (parameters.map fun p => Nested.token (.atom p.lexeme)) =
        parameters.map (Token.rename .unlined) :=
      List.map_congr_left fun p hmem => (hp p hmem).1.token_eq
    simp only [items, ofItems, hn.token_eq, hb.ofNestedAll_eq, List.map_map, Function.comp_def,
      htokens, rename]

end Treewalk
