import Treewalk.Tree.Basic
/-!
# The grammar

The sentences of the language with their trees, one relation for each symbol of the grammar and one
constructor for each alternative. A repetition of operators or of calls and properties is written
with the repeated part on the right, so that it associates to the left; assignments and unary
operators associate to the right.

The identities of references are no matter of the grammar: in its trees they all are 0.
-/

namespace Treewalk

/-! ### Trees without identities -/

mutual

/-- The expression with all identities 0. -/
def Expr.anonymous : Expr → Expr
  | .literal value => .literal value
  | .grouping inner => .grouping inner.anonymous
  | .unary operator operand => .unary operator operand.anonymous
  | .binary left operator right => .binary left.anonymous operator right.anonymous
  | .logical left operator right => .logical left.anonymous operator right.anonymous
  | .variable _ name => .variable 0 name
  | .assign _ name value => .assign 0 name value.anonymous
  | .call callee closing arguments =>
    .call callee.anonymous closing (Expr.anonymousAll arguments)
  | .get object name => .get object.anonymous name
  | .set object name value => .set object.anonymous name value.anonymous
  | .this _ keyword => .this 0 keyword
  | .super _ keyword method => .super 0 keyword method

def Expr.anonymousAll : List Expr → List Expr
  | [] => []
  | e :: rest => e.anonymous :: Expr.anonymousAll rest

end

mutual

/-- The statement with all identities 0. -/
def Stmt.anonymous : Stmt → Stmt
  | .expression e => .expression e.anonymous
  | .print e => .print e.anonymous
  | .var name none => .var name none
  | .var name (some e) => .var name (some e.anonymous)
  | .block body => .block (Stmt.anonymousAll body)
  | .if condition consequent none => .if condition.anonymous consequent.anonymous none
  | .if condition consequent (some alternative) =>
    .if condition.anonymous consequent.anonymous (some alternative.anonymous)
  | .while condition body => .while condition.anonymous body.anonymous
  | .function f => .function f.anonymous
  | .return keyword none => .return keyword none
  | .return keyword (some e) => .return keyword (some e.anonymous)
  | .class name none methods => .class name none (Stmt.anonymousMethods methods)
  | .class name (some superclass) methods =>
    .class name (some superclass.anonymous) (Stmt.anonymousMethods methods)

def Stmt.anonymousAll : List Stmt → List Stmt
  | [] => []
  | s :: rest => s.anonymous :: Stmt.anonymousAll rest

def FunctionDecl.anonymous : FunctionDecl → FunctionDecl
  | ⟨name, parameters, body⟩ => ⟨name, parameters, Stmt.anonymousAll body⟩

def Stmt.anonymousMethods : List FunctionDecl → List FunctionDecl
  | [] => []
  | m :: rest => m.anonymous :: Stmt.anonymousMethods rest

end

attribute [simp] Expr.anonymous Expr.anonymousAll Stmt.anonymous Stmt.anonymousAll
  FunctionDecl.anonymous Stmt.anonymousMethods

@[simp] theorem Expr.length_anonymousAll (es : List Expr) :
    (Expr.anonymousAll es).length = es.length := by
  induction es with
  | nil => rfl
  | cons e rest ih => simp [ih]

namespace Grammar

/-! ### Expressions -/

/-- The binary operators of each level, of which the lower bind tighter. -/
def operators : (level : Nat) → List Kind
  | 1 => [.mark .slash, .mark .star]
  | 2 => [.mark .minus, .mark .plus]
  | 3 => [.mark .greater, .mark .greaterEqual, .mark .less, .mark .lessEqual]
  | 4 => [.mark .bangEqual, .mark .equalEqual]
  | 5 => [.keyword .and]
  | 6 => [.keyword .or]
  | _ => []

/-- The tree of an operation of the level. -/
def operation (level : Nat) (left : Expr) (operator : Token) (right : Expr) : Expr :=
  if level < 5 then .binary left operator right else .logical left operator right

mutual

/-- An `expression`, which is an `assignment`. -/
inductive Expression : List Token → Expr → Prop where
  /-- `IDENT "=" assignment` -/
  | assign {name equal : Token} {u : List Token} {value : Expr} :
    name.kind = .identifier → equal.kind = .mark .equal → Expression u value →
    Expression (name :: equal :: u) (.assign 0 name value)
  /-- `call "." IDENT "=" assignment` -/
  | set {name equal dot : Token} {u w : List Token} {object value : Expr} :
    Call u object → dot.kind = .mark .dot → name.kind = .identifier → equal.kind = .mark .equal →
    Expression w value → Expression (u ++ dot :: name :: equal :: w) (.set object name value)
  /-- `logic_or` -/
  | operation {u : List Token} {e : Expr} : Operation 6 u e → Expression u e

/-- The levels from `logic_or` down to `factor`, and at the bottom `unary`. -/
inductive Operation : Nat → List Token → Expr → Prop where
  | unary {u : List Token} {e : Expr} : Unary u e → Operation 0 u e
  | operand {level : Nat} {u : List Token} {e : Expr} :
    Operation level u e → Operation (level + 1) u e
  | operation {level : Nat} {operator : Token} {u w : List Token} {left right : Expr} :
    Operation (level + 1) u left → operator.kind ∈ operators (level + 1) → Operation level w right →
    Operation (level + 1) (u ++ operator :: w) (operation (level + 1) left operator right)

inductive Unary : List Token → Expr → Prop where
  /-- `( "!" | "-" ) unary` -/
  | operator {operator : Token} {u : List Token} {e : Expr} :
    operator.kind = .mark .bang ∨ operator.kind = .mark .minus → Unary u e →
    Unary (operator :: u) (.unary operator e)
  | call {u : List Token} {e : Expr} : Call u e → Unary u e

inductive Call : List Token → Expr → Prop where
  | primary {u : List Token} {e : Expr} : Primary u e → Call u e
  /-- `"(" arguments? ")"` behind a call -/
  | call {opening closing : Token} {u w : List Token} {callee : Expr} {arguments : List Expr} :
    Call u callee → opening.kind = .mark .leftParen → Arguments w arguments →
    closing.kind = .mark .rightParen →
    Call (u ++ opening :: w ++ [closing]) (.call callee closing arguments)
  /-- `"." IDENT` behind a call -/
  | get {name dot : Token} {u : List Token} {object : Expr} :
    Call u object → dot.kind = .mark .dot → name.kind = .identifier →
    Call (u ++ [dot, name]) (.get object name)

/-- At most 255 expressions, separated by commas. -/
inductive Arguments : List Token → List Expr → Prop where
  | none : Arguments [] []
  | some {u : List Token} {arguments : List Expr} :
    Expressions u arguments → arguments.length ≤ 255 → Arguments u arguments

/-- One or more expressions, separated by commas. -/
inductive Expressions : List Token → List Expr → Prop where
  | one {u : List Token} {e : Expr} : Expression u e → Expressions u [e]
  | more {comma : Token} {u w : List Token} {e : Expr} {arguments : List Expr} :
    Expression u e → comma.kind = .mark .comma → Expressions w arguments →
    Expressions (u ++ comma :: w) (e :: arguments)

inductive Primary : List Token → Expr → Prop where
  | number {value : Float} {name : Token} :
    name.kind = .number value → Primary [name] (.literal (.number value))
  | string {value : String} {name : Token} :
    name.kind = .string value → Primary [name] (.literal (.string value))
  | true {keyword : Token} :
    keyword.kind = .keyword .true → Primary [keyword] (.literal (.bool Bool.true))
  | false {keyword : Token} :
    keyword.kind = .keyword .false → Primary [keyword] (.literal (.bool Bool.false))
  | nil {keyword : Token} : keyword.kind = .keyword .nil → Primary [keyword] (.literal .nil)
  | this {keyword : Token} : keyword.kind = .keyword .this → Primary [keyword] (.this 0 keyword)
  | variable {name : Token} : name.kind = .identifier → Primary [name] (.variable 0 name)
  | grouping {opening closing : Token} {u : List Token} {e : Expr} :
    opening.kind = .mark .leftParen → Expression u e → closing.kind = .mark .rightParen →
    Primary (opening :: u ++ [closing]) (.grouping e)
  | super {keyword dot method : Token} :
    keyword.kind = .keyword .super → dot.kind = .mark .dot → method.kind = .identifier →
    Primary [keyword, dot, method] (.super 0 keyword method)

end

/-! ### Statements and declarations -/

/-- `expression?` -/
inductive Optional : List Token → Option Expr → Prop where
  | none : Optional [] none
  | some {u : List Token} {e : Expr} : Expression u e → Optional u (some e)

/-- `expression ";"` -/
inductive ExpressionStatement : List Token → Stmt → Prop where
  | intro {semicolon : Token} {u : List Token} {e : Expr} :
    Expression u e → semicolon.kind = .mark .semicolon →
    ExpressionStatement (u ++ [semicolon]) (.expression e)

/-- `"var" IDENT ( "=" expression )? ";"` -/
inductive Variable : List Token → Stmt → Prop where
  | plain {keyword name semicolon : Token} :
    keyword.kind = .keyword .var → name.kind = .identifier → semicolon.kind = .mark .semicolon →
    Variable [keyword, name, semicolon] (.var name none)
  | initial {keyword name equal semicolon : Token} {u : List Token} {e : Expr} :
    keyword.kind = .keyword .var → name.kind = .identifier → equal.kind = .mark .equal →
    Expression u e → semicolon.kind = .mark .semicolon →
    Variable (keyword :: name :: equal :: u ++ [semicolon]) (.var name (some e))

/-- `varDecl | exprStmt | ";"` -/
inductive Initial : List Token → Option Stmt → Prop where
  | variable {u : List Token} {s : Stmt} : Variable u s → Initial u (some s)
  | expression {u : List Token} {s : Stmt} : ExpressionStatement u s → Initial u (some s)
  | none {semicolon : Token} : semicolon.kind = .mark .semicolon → Initial [semicolon] none

/-- A `for` is lowered to a `while`: the increment goes behind the body, a missing condition is true,
and an initial statement makes it a block. -/
def lowered (initial : Option Stmt) (condition increment : Option Expr) (body : Stmt) : Stmt :=
  let loop := Stmt.while (condition.getD (.literal (.bool true))) <|
    match increment with
    | none => body
    | some e => .block [body, .expression e]
  match initial with
  | none => loop
  | some s => .block [s, loop]

/-- One or more names, separated by commas. -/
inductive Names : List Token → List Token → Prop where
  | one {name : Token} : name.kind = .identifier → Names [name] [name]
  | more {name comma : Token} {w names : List Token} :
    name.kind = .identifier → comma.kind = .mark .comma → Names w names →
    Names (name :: comma :: w) (name :: names)

/-- At most 255 names, separated by commas. -/
inductive Parameters : List Token → List Token → Prop where
  | none : Parameters [] []
  | some {u names : List Token} : Names u names → names.length ≤ 255 → Parameters u names

/-- `( "<" IDENT )?` -/
inductive Superclass : List Token → Option Expr → Prop where
  | none : Superclass [] none
  | some {less name : Token} :
    less.kind = .mark .less → name.kind = .identifier →
    Superclass [less, name] (some (.variable 0 name))

mutual

/-- A statement. It is open if an `else` behind it would belong to an `if` in it, so the branch in
front of an `else` is not open. -/
inductive Statement : (isOpen : Bool) → List Token → Stmt → Prop where
  | expression {u : List Token} {s : Stmt} : ExpressionStatement u s → Statement false u s
  /-- `"for" "(" ( varDecl | exprStmt | ";" ) expression? ";" expression? ")" statement` -/
  | for {isOpen : Bool} {keyword opening semicolon closing : Token} {u v w x : List Token}
      {condition increment : Option Expr} {body : Stmt} {initial : Option Stmt} :
    keyword.kind = .keyword .for → opening.kind = .mark .leftParen → Initial u initial →
    Optional v condition → semicolon.kind = .mark .semicolon → Optional w increment →
    closing.kind = .mark .rightParen → Statement isOpen x body →
    Statement isOpen (keyword :: opening :: u ++ v ++ semicolon :: w ++ closing :: x)
      (lowered initial condition increment body)
  /-- `"if" "(" expression ")" statement` -/
  | if {isOpen : Bool} {keyword opening closing : Token} {u v : List Token} {e : Expr}
      {consequent : Stmt} :
    keyword.kind = .keyword .if → opening.kind = .mark .leftParen → Expression u e →
    closing.kind = .mark .rightParen → Statement isOpen v consequent →
    Statement true (keyword :: opening :: u ++ closing :: v) (.if e consequent none)
  /-- `"if" "(" expression ")" statement "else" statement` -/
  | ifElse {isOpen : Bool} {keyword opening closing otherwise : Token} {u v w : List Token}
      {e : Expr} {consequent alternative : Stmt} :
    keyword.kind = .keyword .if → opening.kind = .mark .leftParen → Expression u e →
    closing.kind = .mark .rightParen → Statement false v consequent →
    otherwise.kind = .keyword .else → Statement isOpen w alternative →
    Statement isOpen (keyword :: opening :: u ++ closing :: v ++ otherwise :: w)
      (.if e consequent (some alternative))
  /-- `"print" expression ";"` -/
  | print {keyword semicolon : Token} {u : List Token} {e : Expr} :
    keyword.kind = .keyword .print → Expression u e → semicolon.kind = .mark .semicolon →
    Statement false (keyword :: u ++ [semicolon]) (.print e)
  /-- `"return" expression? ";"` -/
  | return {keyword semicolon : Token} {u : List Token} {result : Option Expr} :
    keyword.kind = .keyword .return → Optional u result → semicolon.kind = .mark .semicolon →
    Statement false (keyword :: u ++ [semicolon]) (.return keyword result)
  /-- `"while" "(" expression ")" statement` -/
  | while {isOpen : Bool} {keyword opening closing : Token} {u v : List Token} {e : Expr}
      {body : Stmt} :
    keyword.kind = .keyword .while → opening.kind = .mark .leftParen → Expression u e →
    closing.kind = .mark .rightParen → Statement isOpen v body →
    Statement isOpen (keyword :: opening :: u ++ closing :: v) (.while e body)
  | block {u : List Token} {ss : List Stmt} : Block u ss → Statement false u (.block ss)

/-- `"{" declaration* "}"` -/
inductive Block : List Token → List Stmt → Prop where
  | intro {opening closing : Token} {u : List Token} {ss : List Stmt} :
    opening.kind = .mark .leftBrace → Declarations u ss → closing.kind = .mark .rightBrace →
    Block (opening :: u ++ [closing]) ss

inductive Declaration : List Token → Stmt → Prop where
  /-- `"class" IDENT ( "<" IDENT )? "{" function* "}"` -/
  | class {keyword name opening closing : Token} {u v : List Token} {superclass : Option Expr}
      {fs : List FunctionDecl} :
    keyword.kind = .keyword .class → name.kind = .identifier → Superclass u superclass →
    opening.kind = .mark .leftBrace → Functions v fs → closing.kind = .mark .rightBrace →
    Declaration (keyword :: name :: u ++ opening :: v ++ [closing]) (.class name superclass fs)
  /-- `"fun" function` -/
  | function {keyword : Token} {u : List Token} {f : FunctionDecl} :
    keyword.kind = .keyword .fun → Function u f → Declaration (keyword :: u) (.function f)
  | variable {u : List Token} {s : Stmt} : Variable u s → Declaration u s
  | statement {isOpen : Bool} {u : List Token} {s : Stmt} : Statement isOpen u s → Declaration u s

/-- `declaration*` -/
inductive Declarations : List Token → List Stmt → Prop where
  | nil : Declarations [] []
  | cons {u v : List Token} {s : Stmt} {ss : List Stmt} :
    Declaration u s → Declarations v ss → Declarations (u ++ v) (s :: ss)

/-- `IDENT "(" parameters? ")" block` -/
inductive Function : List Token → FunctionDecl → Prop where
  | intro {name opening closing : Token} {u v parameters : List Token} {ss : List Stmt} :
    name.kind = .identifier → opening.kind = .mark .leftParen → Parameters u parameters →
    closing.kind = .mark .rightParen → Block v ss →
    Function (name :: opening :: u ++ closing :: v) ⟨name, parameters, ss⟩

/-- `function*` -/
inductive Functions : List Token → List FunctionDecl → Prop where
  | nil : Functions [] []
  | cons {u v : List Token} {f : FunctionDecl} {fs : List FunctionDecl} :
    Function u f → Functions v fs → Functions (u ++ v) (f :: fs)

end

/-- The statements of a whole program. -/
abbrev Program : List Token → List Stmt → Prop := Declarations

/-! ### First tokens -/

/-- The kinds of the tokens that expressions begin with. -/
def leads : Kind → Bool
  | .number _ | .string _ | .identifier => true
  | .mark m => m = .leftParen || m = .bang || m = .minus
  | .keyword k => k = .false || k = .true || k = .nil || k = .this || k = .super
  | .eof => false

def Leads (u : List Token) : Prop :=
  ∃ t w, u = t :: w ∧ leads t.kind = true

theorem Leads.append {u : List Token} (h : Leads u) (w : List Token) : Leads (u ++ w) := by
  obtain ⟨t, v, rfl, ht⟩ := h
  exact ⟨t, v ++ w, rfl, ht⟩

theorem Leads.ne_nil {u : List Token} (h : Leads u) : u ≠ [] := by
  obtain ⟨_, _, rfl, -⟩ := h
  exact List.cons_ne_nil _ _

theorem Primary.leads {u : List Token} {e : Expr} (h : Primary u e) : Leads u := by
  cases h <;> exact ⟨_, _, rfl, by simp_all [Grammar.leads]⟩

theorem Call.leads {u : List Token} {e : Expr} : Call u e → Leads u
  | .primary h => h.leads
  | .call h _ _ _ => (h.leads.append _).append _
  | .get h _ _ => h.leads.append _

theorem Unary.leads {u : List Token} {e : Expr} : Unary u e → Leads u
  | .operator h _ => ⟨_, _, rfl, by rcases h with h | h <;> simp [h, Grammar.leads]⟩
  | .call h => h.leads

theorem Operation.leads {level : Nat} {u : List Token} {e : Expr} : Operation level u e → Leads u
  | .unary h => h.leads
  | .operand h => h.leads
  | .operation h _ _ => h.leads.append _

theorem Expression.leads {u : List Token} {e : Expr} : Expression u e → Leads u
  | .assign h _ _ => ⟨_, _, rfl, by simp [h, Grammar.leads]⟩
  | .set h _ _ _ _ => h.leads.append _
  | .operation h => h.leads

theorem Expressions.leads {u : List Token} {es : List Expr} : Expressions u es → Leads u
  | .one h => h.leads
  | .more h _ _ => h.leads.append _

/-- The kinds of the tokens that declarations begin with. -/
def leadsDeclaration (k : Kind) : Bool :=
  leads k || k = .mark .leftBrace || k = .keyword .for || k = .keyword .if || k = .keyword .print ||
    k = .keyword .return || k = .keyword .while || k = .keyword .class || k = .keyword .fun ||
    k = .keyword .var

/-- The kinds of the tokens that statements begin with. -/
def leadsStatement (k : Kind) : Bool :=
  leadsDeclaration k && k ≠ .keyword .class && k ≠ .keyword .fun && k ≠ .keyword .var

theorem leadsStatement_of_leads {k : Kind} (h : leads k = true) : leadsStatement k = true := by
  cases k with
  | keyword k => cases k <;> first | rfl | cases h
  | _ => simp [leadsStatement, leadsDeclaration, h]

theorem Variable.head {u : List Token} {s : Stmt} (h : Variable u s) :
    ∃ t v, u = t :: v ∧ t.kind = .keyword .var := by
  cases h <;> exact ⟨_, _, rfl, ‹_›⟩

theorem Statement.head {isOpen : Bool} {u : List Token} {s : Stmt} (h : Statement isOpen u s) :
    ∃ t v, u = t :: v ∧ leadsStatement t.kind = true := by
  cases h with
  | expression h =>
    obtain ⟨h, -⟩ := h
    obtain ⟨t, v, rfl, ht⟩ := h.leads
    exact ⟨t, _, rfl, leadsStatement_of_leads ht⟩
  | block h =>
    obtain ⟨ho, -, -⟩ := h
    exact ⟨_, _, rfl, by rw [ho]; decide⟩
  | «for» hk | «if» hk | ifElse hk | print hk | «return» hk | «while» hk =>
    exact ⟨_, _, rfl, by rw [hk]; decide⟩

theorem Declaration.head {u : List Token} {s : Stmt} (h : Declaration u s) :
    ∃ t v, u = t :: v ∧ leadsDeclaration t.kind = true := by
  cases h with
  | statement h =>
    obtain ⟨t, v, rfl, ht⟩ := h.head
    simp only [leadsStatement, Bool.and_eq_true] at ht
    exact ⟨t, v, rfl, ht.1.1.1⟩
  | «variable» h =>
    obtain ⟨t, v, rfl, ht⟩ := h.head
    exact ⟨t, v, rfl, by rw [ht]; decide⟩
  | «class» hk | function hk => exact ⟨_, _, rfl, by rw [hk]; decide⟩

theorem Function.head {u : List Token} {f : FunctionDecl} (h : Function u f) :
    ∃ t v, u = t :: v ∧ t.kind = .identifier := by
  cases h with
  | intro hn => exact ⟨_, _, rfl, hn⟩

/-! ### What an expression is told by its tree -/

theorem Operation.unary_of_zero {u : List Token} {e : Expr} : Operation 0 u e → Unary u e
  | .unary h => h

theorem Unary.call_of {u : List Token} {e : Expr} (h : ∀ operator operand,
    e ≠ .unary operator operand) : Unary u e → Call u e
  | .operator _ _ => absurd rfl (h _ _)
  | .call hc => hc

theorem Operation.call_of {level : Nat} {u : List Token} {e : Expr}
    (hu : ∀ operator operand, e ≠ .unary operator operand)
    (hb : ∀ left operator right, e ≠ .binary left operator right)
    (hl : ∀ left operator right, e ≠ .logical left operator right) :
    Operation level u e → Call u e
  | .unary h => h.call_of hu
  | .operand h => h.call_of hu hb hl
  | @Operation.operation level _ _ _ _ _ _ _ _ => by
    unfold Grammar.operation at hb hl
    split at hb
    · exact absurd rfl (hb _ _ _)
    · rename_i hlevel
      rw [if_neg hlevel] at hl
      exact absurd rfl (hl _ _ _)

theorem Operation.variable_eq {level : Nat} {u : List Token} {node : NodeId} {name : Token}
    (h : Operation level u (.variable node name)) : u = [name] ∧ name.kind = .identifier := by
  have := h.call_of (by simp) (by simp) (by simp)
  obtain ⟨⟨⟩⟩ := this
  exact ⟨rfl, ‹_›⟩

theorem Operation.get_eq {level : Nat} {u : List Token} {object : Expr} {name : Token}
    (h : Operation level u (.get object name)) : ∃ w dot, u = w ++ [dot, name] ∧
      Call w object ∧ dot.kind = .mark .dot ∧ name.kind = .identifier := by
  have := h.call_of (by simp) (by simp) (by simp)
  obtain ⟨⟨⟩⟩ | _ | ⟨ho, hd, hn⟩ := this
  exact ⟨_, _, rfl, ho, hd, hn⟩

end Grammar

end Treewalk
