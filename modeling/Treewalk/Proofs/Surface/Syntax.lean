import Treewalk.Proofs.Surface.Trees
import Treewalk.Proofs.Tree.Sound
/-!
# The grammar with `for`

The grammar of statements and declarations, with trees that keep a `for` as it is written. Whatever
the grammar derives with lowered trees, it derives with trees that keep every `for`
(`Syntax.declarations_of_grammar`), so each program that the parser reads is the lowering of the tree
that is written there (`parseTokens_written`).
-/

namespace Treewalk

/-! ### Trees by their anonymous ones -/

theorem Stmt.anonymous_eq (s : Stmt) : s.anonymous = match s with
    | .expression e => .expression e.anonymous
    | .print e => .print e.anonymous
    | .var name value => .var name (value.map Expr.anonymous)
    | .block body => .block (anonymousAll body)
    | .if condition consequent alternative =>
      .if condition.anonymous consequent.anonymous (alternative.map anonymous)
    | .while condition body => .while condition.anonymous body.anonymous
    | .function f => .function f.anonymous
    | .return keyword value => .return keyword (value.map Expr.anonymous)
    | .class name superclass methods =>
      .class name (superclass.map Expr.anonymous) (anonymousMethods methods) := by
  cases s with
  | var _ value | «return» _ value | «class» _ value | «if» _ _ value => cases value <;> rfl
  | _ => rfl

theorem Expr.of_anonymous_literal {e : Expr} {value : Literal}
    (h : e.anonymous = .literal value) : e = .literal value := by
  cases e <;> cases h
  rfl

theorem Stmt.of_anonymousAll_cons {ss : List Stmt} {s₀ : Stmt} {rest₀ : List Stmt}
    (h : anonymousAll ss = s₀ :: rest₀) :
    ∃ s rest, ss = s :: rest ∧ s.anonymous = s₀ ∧ anonymousAll rest = rest₀ := by
  cases ss <;> cases h
  exact ⟨_, _, rfl, rfl, rfl⟩

theorem Stmt.of_anonymous_block {s : Stmt} {ss₀ : List Stmt} (h : s.anonymous = .block ss₀) :
    ∃ ss, s = .block ss ∧ anonymousAll ss = ss₀ := by
  rw [anonymous_eq] at h
  cases s <;> cases h
  exact ⟨_, rfl, rfl⟩

theorem Stmt.of_anonymous_expression {s : Stmt} {e₀ : Expr} (h : s.anonymous = .expression e₀) :
    ∃ e, s = .expression e ∧ e.anonymous = e₀ := by
  rw [anonymous_eq] at h
  cases s <;> cases h
  exact ⟨_, rfl, rfl⟩

theorem Stmt.of_anonymous_var {s : Stmt} {name : Token} {value₀ : Option Expr}
    (h : s.anonymous = .var name value₀) :
    ∃ value, s = .var name value ∧ value.map Expr.anonymous = value₀ := by
  rw [anonymous_eq] at h
  cases s <;> cases h
  exact ⟨_, rfl, rfl⟩

theorem Stmt.of_anonymous_if {s consequent₀ : Stmt} {condition₀ : Expr} {alternative₀ : Option Stmt}
    (h : s.anonymous = .if condition₀ consequent₀ alternative₀) :
    ∃ condition consequent alternative, s = .if condition consequent alternative ∧
      condition.anonymous = condition₀ ∧ consequent.anonymous = consequent₀ ∧
      alternative.map anonymous = alternative₀ := by
  rw [anonymous_eq] at h
  cases s <;> cases h
  exact ⟨_, _, _, rfl, rfl, rfl, rfl⟩

theorem Stmt.of_anonymous_print {s : Stmt} {e₀ : Expr} (h : s.anonymous = .print e₀) :
    ∃ e, s = .print e ∧ e.anonymous = e₀ := by
  rw [anonymous_eq] at h
  cases s <;> cases h
  exact ⟨_, rfl, rfl⟩

theorem Stmt.of_anonymous_return {s : Stmt} {keyword : Token} {value₀ : Option Expr}
    (h : s.anonymous = .return keyword value₀) :
    ∃ value, s = .return keyword value ∧ value.map Expr.anonymous = value₀ := by
  rw [anonymous_eq] at h
  cases s <;> cases h
  exact ⟨_, rfl, rfl⟩

theorem Stmt.of_anonymous_while {s body₀ : Stmt} {condition₀ : Expr}
    (h : s.anonymous = .while condition₀ body₀) :
    ∃ condition body, s = .while condition body ∧ condition.anonymous = condition₀ ∧
      body.anonymous = body₀ := by
  rw [anonymous_eq] at h
  cases s <;> cases h
  exact ⟨_, _, rfl, rfl, rfl⟩

theorem Stmt.of_anonymous_function {s : Stmt} {f₀ : FunctionDecl}
    (h : s.anonymous = .function f₀) : ∃ f, s = .function f ∧ f.anonymous = f₀ := by
  rw [anonymous_eq] at h
  cases s <;> cases h
  exact ⟨_, rfl, rfl⟩

theorem Stmt.of_anonymous_class {s : Stmt} {name : Token} {superclass₀ : Option Expr}
    {methods₀ : List FunctionDecl} (h : s.anonymous = .class name superclass₀ methods₀) :
    ∃ superclass methods, s = .class name superclass methods ∧
      superclass.map Expr.anonymous = superclass₀ ∧ anonymousMethods methods = methods₀ := by
  rw [anonymous_eq] at h
  cases s <;> cases h
  exact ⟨_, _, rfl, rfl, rfl⟩

/-- A loop with a condition that may be missing. -/
theorem Stmt.of_anonymous_loop {s body₀ : Stmt} {condition₀ : Option Expr}
    (h : s.anonymous = .while (condition₀.getD (.literal (.bool true))) body₀) :
    ∃ (condition : Option Expr) (body : Stmt),
      s = .while (condition.getD (.literal (.bool true))) body ∧
      condition.map Expr.anonymous = condition₀ ∧ body.anonymous = body₀ := by
  obtain ⟨condition, body, rfl, hcondition, hbody⟩ := of_anonymous_while h
  cases condition₀ with
  | none => exact ⟨none, body, by rw [Expr.of_anonymous_literal hcondition]; rfl, rfl, hbody⟩
  | some e => exact ⟨some condition, body, rfl, congrArg some hcondition, hbody⟩

/-- A body with an increment that may be missing. -/
theorem Stmt.of_anonymous_step {s body₀ : Stmt} {increment₀ : Option Expr}
    (h : s.anonymous = match increment₀ with
      | none => body₀
      | some e => .block [body₀, .expression e]) :
    ∃ (increment : Option Expr) (body : Stmt), s = (match increment with
      | some e => .block [body, .expression e]
      | none => body) ∧ increment.map Expr.anonymous = increment₀ ∧ body.anonymous = body₀ := by
  cases increment₀ with
  | none => exact ⟨none, s, rfl, rfl, h⟩
  | some e₀ =>
    obtain ⟨ss, rfl, hss⟩ := of_anonymous_block h
    obtain ⟨body, rest, rfl, hbody, hrest⟩ := of_anonymousAll_cons hss
    obtain ⟨step, nothing, rfl, hstep, hnothing⟩ := of_anonymousAll_cons hrest
    obtain ⟨e, rfl, rfl⟩ := of_anonymous_expression hstep
    obtain rfl : nothing = [] := by cases nothing <;> first | rfl | cases hnothing
    exact ⟨some e, body, rfl, rfl, hbody⟩

theorem Stmt.of_anonymous_lowered {s body₀ : Stmt} {initial₀ : Option Stmt}
    {condition₀ increment₀ : Option Expr}
    (h : s.anonymous = Grammar.lowered initial₀ condition₀ increment₀ body₀) :
    ∃ initial condition increment body, s = Rule.desugarFor initial condition increment body ∧
      initial.map anonymous = initial₀ ∧ condition.map Expr.anonymous = condition₀ ∧
      increment.map Expr.anonymous = increment₀ ∧ body.anonymous = body₀ := by
  cases initial₀ with
  | none =>
    obtain ⟨condition, stepped, rfl, hcondition, hstepped⟩ := of_anonymous_loop h
    obtain ⟨increment, body, rfl, hincrement, hbody⟩ := of_anonymous_step hstepped
    exact ⟨none, condition, increment, body, rfl, rfl, hcondition, hincrement, hbody⟩
  | some first₀ =>
    obtain ⟨ss, rfl, hss⟩ := of_anonymous_block h
    obtain ⟨first, rest, rfl, hfirst, hrest⟩ := of_anonymousAll_cons hss
    obtain ⟨loop, nothing, rfl, hloop, hnothing⟩ := of_anonymousAll_cons hrest
    obtain ⟨condition, stepped, rfl, hcondition, hstepped⟩ := of_anonymous_loop hloop
    obtain ⟨increment, body, rfl, hincrement, hbody⟩ := of_anonymous_step hstepped
    obtain rfl : nothing = [] := by cases nothing <;> first | rfl | cases hnothing
    exact ⟨some first, condition, increment, body, rfl, congrArg some hfirst, hcondition,
      hincrement, hbody⟩

namespace Surface
namespace Syntax

/-! ### The grammar -/

/-- `varDecl | exprStmt | ";"` -/
inductive Initial : List Token → Option Surface.Initial → Prop where
  | variable {u : List Token} {name : Token} {value : Option Expr} :
    Grammar.Variable u (.var name (value.map Expr.anonymous)) →
    Initial u (some (.variable name value))
  | expression {u : List Token} {e : Expr} :
    Grammar.ExpressionStatement u (.expression e.anonymous) → Initial u (some (.expression e))
  | none {semicolon : Token} : semicolon.kind = .mark .semicolon → Initial [semicolon] none

mutual

/-- A statement. It is open if an `else` behind it would belong to an `if` in it. -/
inductive Statement : (isOpen : Bool) → List Token → Stmt → Prop where
  | expression {u : List Token} {e : Expr} :
    Grammar.ExpressionStatement u (.expression e.anonymous) → Statement false u (.expression e)
  /-- `"for" "(" ( varDecl | exprStmt | ";" ) expression? ";" expression? ")" statement` -/
  | for {isOpen : Bool} {keyword opening semicolon closing : Token} {u v w x : List Token}
      {condition increment : Option Expr} {body : Stmt} {initial : Option Surface.Initial} :
    keyword.kind = .keyword .for → opening.kind = .mark .leftParen → Initial u initial →
    Grammar.Optional v (condition.map Expr.anonymous) → semicolon.kind = .mark .semicolon →
    Grammar.Optional w (increment.map Expr.anonymous) → closing.kind = .mark .rightParen →
    Statement isOpen x body →
    Statement isOpen (keyword :: opening :: u ++ v ++ semicolon :: w ++ closing :: x)
      (.for initial condition increment body)
  /-- `"if" "(" expression ")" statement` -/
  | if {isOpen : Bool} {keyword opening closing : Token} {u v : List Token} {e : Expr}
      {consequent : Stmt} :
    keyword.kind = .keyword .if → opening.kind = .mark .leftParen →
    Grammar.Expression u e.anonymous → closing.kind = .mark .rightParen →
    Statement isOpen v consequent →
    Statement true (keyword :: opening :: u ++ closing :: v) (.if e consequent none)
  /-- `"if" "(" expression ")" statement "else" statement` -/
  | ifElse {isOpen : Bool} {keyword opening closing otherwise : Token} {u v w : List Token}
      {e : Expr} {consequent alternative : Stmt} :
    keyword.kind = .keyword .if → opening.kind = .mark .leftParen →
    Grammar.Expression u e.anonymous → closing.kind = .mark .rightParen →
    Statement false v consequent → otherwise.kind = .keyword .else →
    Statement isOpen w alternative →
    Statement isOpen (keyword :: opening :: u ++ closing :: v ++ otherwise :: w)
      (.if e consequent (some alternative))
  /-- `"print" expression ";"` -/
  | print {keyword semicolon : Token} {u : List Token} {e : Expr} :
    keyword.kind = .keyword .print → Grammar.Expression u e.anonymous →
    semicolon.kind = .mark .semicolon →
    Statement false (keyword :: u ++ [semicolon]) (.print e)
  /-- `"return" expression? ";"` -/
  | return {keyword semicolon : Token} {u : List Token} {result : Option Expr} :
    keyword.kind = .keyword .return → Grammar.Optional u (result.map Expr.anonymous) →
    semicolon.kind = .mark .semicolon →
    Statement false (keyword :: u ++ [semicolon]) (.return keyword result)
  /-- `"while" "(" expression ")" statement` -/
  | while {isOpen : Bool} {keyword opening closing : Token} {u v : List Token} {e : Expr}
      {body : Stmt} :
    keyword.kind = .keyword .while → opening.kind = .mark .leftParen →
    Grammar.Expression u e.anonymous → closing.kind = .mark .rightParen →
    Statement isOpen v body →
    Statement isOpen (keyword :: opening :: u ++ closing :: v) (.while e body)
  | block {u : List Token} {body : List Surface.Declaration} :
    Block u body → Statement false u (.block body)

/-- `"{" declaration* "}"` -/
inductive Block : List Token → List Surface.Declaration → Prop where
  | intro {opening closing : Token} {u : List Token} {body : List Surface.Declaration} :
    opening.kind = .mark .leftBrace → Declarations u body → closing.kind = .mark .rightBrace →
    Block (opening :: u ++ [closing]) body

inductive Declaration : List Token → Surface.Declaration → Prop where
  /-- `"class" IDENT ( "<" IDENT )? "{" function* "}"` -/
  | class {keyword name opening closing : Token} {u v : List Token} {superclass : Option Expr}
      {fs : List FunctionDecl} :
    keyword.kind = .keyword .class → name.kind = .identifier →
    Grammar.Superclass u (superclass.map Expr.anonymous) → opening.kind = .mark .leftBrace →
    Functions v fs → closing.kind = .mark .rightBrace →
    Declaration (keyword :: name :: u ++ opening :: v ++ [closing]) (.class name superclass fs)
  /-- `"fun" function` -/
  | function {keyword : Token} {u : List Token} {f : FunctionDecl} :
    keyword.kind = .keyword .fun → Function u f → Declaration (keyword :: u) (.function f)
  | variable {u : List Token} {name : Token} {value : Option Expr} :
    Grammar.Variable u (.var name (value.map Expr.anonymous)) →
    Declaration u (.variable name value)
  | statement {isOpen : Bool} {u : List Token} {s : Stmt} :
    Statement isOpen u s → Declaration u (.statement s)

/-- `declaration*` -/
inductive Declarations : List Token → List Surface.Declaration → Prop where
  | nil : Declarations [] []
  | cons {u v : List Token} {d : Surface.Declaration} {ds : List Surface.Declaration} :
    Declaration u d → Declarations v ds → Declarations (u ++ v) (d :: ds)

/-- `IDENT "(" parameters? ")" block` -/
inductive Function : List Token → FunctionDecl → Prop where
  | intro {name opening closing : Token} {u v parameters : List Token}
      {body : List Surface.Declaration} :
    name.kind = .identifier → opening.kind = .mark .leftParen → Grammar.Parameters u parameters →
    closing.kind = .mark .rightParen → Block v body →
    Function (name :: opening :: u ++ closing :: v) ⟨name, parameters, body⟩

/-- `function*` -/
inductive Functions : List Token → List FunctionDecl → Prop where
  | nil : Functions [] []
  | cons {u v : List Token} {f : FunctionDecl} {fs : List FunctionDecl} :
    Function u f → Functions v fs → Functions (u ++ v) (f :: fs)

end

/-- The declarations of a whole program. -/
abbrev Program : List Token → Surface.Program → Prop := Declarations

/-! ### Derivations with `for` -/

theorem variable_of_grammar {u : List Token} {s₀ s : Treewalk.Stmt} (h : Grammar.Variable u s₀)
    (hs : s.anonymous = s₀) :
    ∃ name value, s = .var name value ∧
      Grammar.Variable u (.var name (value.map Expr.anonymous)) := by
  cases h with
  | plain hk hn hsemicolon =>
    obtain ⟨value, rfl, hvalue⟩ := Stmt.of_anonymous_var hs
    exact ⟨_, value, rfl, hvalue ▸ .plain hk hn hsemicolon⟩
  | initial hk hn he hvalue hsemicolon =>
    obtain ⟨value, rfl, hmap⟩ := Stmt.of_anonymous_var hs
    exact ⟨_, value, rfl, hmap ▸ .initial hk hn he hvalue hsemicolon⟩

theorem expression_of_grammar {u : List Token} {s₀ s : Treewalk.Stmt}
    (h : Grammar.ExpressionStatement u s₀) (hs : s.anonymous = s₀) :
    ∃ e, s = .expression e ∧ Grammar.ExpressionStatement u (.expression e.anonymous) := by
  cases h with
  | intro he hsemicolon =>
    obtain ⟨e, rfl, rfl⟩ := Stmt.of_anonymous_expression hs
    exact ⟨e, rfl, .intro he hsemicolon⟩

theorem initial_of_grammar {u : List Token} {initial₀ initial : Option Treewalk.Stmt}
    (h : Grammar.Initial u initial₀) (hi : initial.map Stmt.anonymous = initial₀) :
    ∃ I, Initial u I ∧ I.map Initial.lowered = initial := by
  cases h with
  | none hs =>
    obtain rfl := Option.map_eq_none_iff.1 hi
    exact ⟨none, .none hs, rfl⟩
  | expression he =>
    obtain ⟨s, rfl, hs⟩ := Option.map_eq_some_iff.1 hi
    obtain ⟨e, rfl, he⟩ := expression_of_grammar he hs
    exact ⟨some (.expression e), .expression he, rfl⟩
  | «variable» hv =>
    obtain ⟨s, rfl, hs⟩ := Option.map_eq_some_iff.1 hi
    obtain ⟨name, value, rfl, hv⟩ := variable_of_grammar hv hs
    exact ⟨some (.variable name value), .variable hv, rfl⟩

mutual

theorem statement_of_grammar {isOpen : Bool} {u : List Token} {s₀ : Treewalk.Stmt} :
    Grammar.Statement isOpen u s₀ → ∀ s : Treewalk.Stmt, s.anonymous = s₀ →
      ∃ S, Statement isOpen u S ∧ S.lowered = s
  | .expression h, s, hs => by
    obtain ⟨e, rfl, h⟩ := expression_of_grammar h hs
    exact ⟨.expression e, .expression h, rfl⟩
  | .for hk ho hi hc hs₁ hn hs₂ hb, s, hs => by
    obtain ⟨initial, condition, increment, body, rfl, hinitial, rfl, rfl, hbody⟩ :=
      Stmt.of_anonymous_lowered hs
    obtain ⟨I, hI, rfl⟩ := initial_of_grammar hi hinitial
    obtain ⟨B, hB, rfl⟩ := statement_of_grammar hb body hbody
    exact ⟨.for I condition increment B, .for hk ho hI hc hs₁ hn hs₂ hB, rfl⟩
  | .if hk ho he hc hb, s, hs => by
    obtain ⟨condition, consequent, alternative, rfl, rfl, hconsequent, halternative⟩ :=
      Stmt.of_anonymous_if hs
    obtain rfl := Option.map_eq_none_iff.1 halternative
    obtain ⟨C, hC, rfl⟩ := statement_of_grammar hb consequent hconsequent
    exact ⟨.if condition C none, .if hk ho he hc hC, rfl⟩
  | .ifElse hk ho he hc hb helse hb', s, hs => by
    obtain ⟨condition, consequent, alternative, rfl, rfl, hconsequent, halternative⟩ :=
      Stmt.of_anonymous_if hs
    obtain ⟨otherwise, rfl, hotherwise⟩ := Option.map_eq_some_iff.1 halternative
    obtain ⟨C, hC, rfl⟩ := statement_of_grammar hb consequent hconsequent
    obtain ⟨A, hA, rfl⟩ := statement_of_grammar hb' otherwise hotherwise
    exact ⟨.if condition C (some A), .ifElse hk ho he hc hC helse hA, rfl⟩
  | .print hk he hsemicolon, s, hs => by
    obtain ⟨e, rfl, rfl⟩ := Stmt.of_anonymous_print hs
    exact ⟨.print e, .print hk he hsemicolon, rfl⟩
  | .return hk hr hsemicolon, s, hs => by
    obtain ⟨value, rfl, rfl⟩ := Stmt.of_anonymous_return hs
    exact ⟨.return _ value, .return hk hr hsemicolon, rfl⟩
  | .while hk ho he hc hb, s, hs => by
    obtain ⟨condition, body, rfl, rfl, hbody⟩ := Stmt.of_anonymous_while hs
    obtain ⟨B, hB, rfl⟩ := statement_of_grammar hb body hbody
    exact ⟨.while condition B, .while hk ho he hc hB, rfl⟩
  | .block hb, s, hs => by
    obtain ⟨body, rfl, hbody⟩ := Stmt.of_anonymous_block hs
    obtain ⟨B, hB, rfl⟩ := block_of_grammar hb body hbody
    exact ⟨.block B, .block hB, rfl⟩

theorem block_of_grammar {u : List Token} {ss₀ : List Treewalk.Stmt} :
    Grammar.Block u ss₀ → ∀ ss, Stmt.anonymousAll ss = ss₀ →
      ∃ B, Block u B ∧ Declaration.loweredAll B = ss
  | .intro ho hd hc, ss, hss => by
    obtain ⟨B, hB, rfl⟩ := declarations_of_grammar hd ss hss
    exact ⟨B, .intro ho hB hc, rfl⟩

theorem declaration_of_grammar {u : List Token} {s₀ : Treewalk.Stmt} :
    Grammar.Declaration u s₀ → ∀ s : Treewalk.Stmt, s.anonymous = s₀ →
      ∃ D, Declaration u D ∧ D.lowered = s
  | .class hk hn hsuper ho hf hc, s, hs => by
    obtain ⟨superclass, methods, rfl, rfl, hmethods⟩ := Stmt.of_anonymous_class hs
    obtain ⟨F, hF, rfl⟩ := functions_of_grammar hf methods hmethods
    exact ⟨.class _ superclass F, .class hk hn hsuper ho hF hc, rfl⟩
  | .function hk hf, s, hs => by
    obtain ⟨f, rfl, hf₀⟩ := Stmt.of_anonymous_function hs
    obtain ⟨F, hF, rfl⟩ := function_of_grammar hf f hf₀
    exact ⟨.function F, .function hk hF, rfl⟩
  | .variable h, s, hs => by
    obtain ⟨name, value, rfl, h⟩ := variable_of_grammar h hs
    exact ⟨.variable name value, .variable h, rfl⟩
  | .statement h, s, hs => by
    obtain ⟨S, hS, rfl⟩ := statement_of_grammar h s hs
    exact ⟨.statement S, .statement hS, rfl⟩

theorem declarations_of_grammar {u : List Token} {ss₀ : List Treewalk.Stmt} :
    Grammar.Declarations u ss₀ → ∀ ss, Stmt.anonymousAll ss = ss₀ →
      ∃ D, Declarations u D ∧ Declaration.loweredAll D = ss
  | .nil, [], _ => ⟨[], .nil, rfl⟩
  | .cons hd hrest, ss, hss => by
    obtain ⟨s, rest, rfl, hs, hrest₀⟩ := Stmt.of_anonymousAll_cons hss
    obtain ⟨D, hD, rfl⟩ := declaration_of_grammar hd s hs
    obtain ⟨R, hR, rfl⟩ := declarations_of_grammar hrest rest hrest₀
    exact ⟨D :: R, .cons hD hR, rfl⟩

theorem function_of_grammar {u : List Token} {f₀ : Treewalk.FunctionDecl} :
    Grammar.Function u f₀ → ∀ f : Treewalk.FunctionDecl, f.anonymous = f₀ →
      ∃ F, Function u F ∧ F.lowered = f
  | .intro hn ho hp hc hb, ⟨name, parameters, body⟩, hf => by
    obtain ⟨rfl, rfl, hbody⟩ := Treewalk.FunctionDecl.mk.inj hf
    obtain ⟨B, hB, rfl⟩ := block_of_grammar hb body hbody
    exact ⟨⟨name, parameters, B⟩, .intro hn ho hp hc hB, rfl⟩

theorem functions_of_grammar {u : List Token} {fs₀ : List Treewalk.FunctionDecl} :
    Grammar.Functions u fs₀ → ∀ fs, Stmt.anonymousMethods fs = fs₀ →
      ∃ F, Functions u F ∧ FunctionDecl.loweredAll F = fs
  | .nil, [], _ => ⟨[], .nil, rfl⟩
  | .cons hf hrest, fs, hfs => by
    match fs, hfs with
    | f :: rest, hfs =>
      obtain ⟨hf₀, hrest₀⟩ := List.cons.inj hfs
      obtain ⟨F, hF, rfl⟩ := function_of_grammar hf f hf₀
      obtain ⟨R, hR, rfl⟩ := functions_of_grammar hrest rest hrest₀
      exact ⟨F :: R, .cons hF hR, rfl⟩

end

end Syntax

/-- What is read without an error is the lowering of the program that is written there. -/
theorem parseTokens_written {tokens : List Token} {next : NodeId}
    (h : (parseTokens tokens next).errors = []) :
    ∃ P, Syntax.Program (beforeFinish tokens) P ∧
      Declaration.loweredAll P = (parseTokens tokens next).statements :=
  Syntax.declarations_of_grammar ((parseTokens_sound tokens next).2 h).1 _ rfl

end Surface
end Treewalk
