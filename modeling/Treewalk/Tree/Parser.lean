import Treewalk.Diagnostic
import Treewalk.Tree.Basic
/-!
# Reading trees from tokens

Recursive descent with one rank of operators per level. Every recursive call is made behind at least
one token, so the number of tokens left bounds the recursion: a rule that is given the bound `n` is
meant for at most `n` tokens, and a bound of zero is the end of the input.

A syntax error abandons the declaration it occurs in. The error is recorded, tokens are skipped up
to the next statement, and reading goes on, so that one pass reports every independent error. Two
errors leave the tree sound and are recorded without abandoning anything.
-/

namespace Treewalk

/-- How far the tokens have been read. -/
structure Reading where
  /-- The tokens left, without the end-of-input token. -/
  rest : List Token
  /-- The end-of-input token, which stands behind all others. -/
  finish : Token
  /-- The identity of the next reference. -/
  next : NodeId
  /-- The errors so far, latest first. -/
  errors : List SyntaxError

/-- A rule of the grammar: it consumes tokens, or fails where it stands. -/
abbrev Rule := EStateM SyntaxError Reading

namespace Rule

variable {α : Type}

def peek : Rule Token := do
  let s ← get
  return s.rest.headD s.finish

def fail (what : Expected) : Rule α := do
  throw ⟨← peek, .expected what⟩

/-- Records an error without abandoning the rule. -/
def report (t : Token) (fault : SyntaxFault) : Rule Unit :=
  modify fun s => { s with errors := ⟨t, fault⟩ :: s.errors }

def fresh : Rule NodeId :=
  modifyGet fun s => (s.next, { s with next := s.next + 1 })

/-- The next token, consumed, if its kind is as wanted. -/
def take? (wanted : Kind → Bool) : Rule (Option Token) :=
  modifyGet fun s =>
    match s.rest with
    | [] => (none, s)
    | t :: rest => if wanted t.kind then (some t, { s with rest := rest }) else (none, s)

def accept (k : Kind) : Rule Bool := do
  return (← take? (· = k)).isSome

/-- Whether the next token, which is not consumed, is of kind `k`. -/
def nextIs (k : Kind) : Rule Bool := do
  match (← get).rest with
  | [] => return false
  | t :: _ => return t.kind = k

/-- Whether a block ends here: at a closing brace, or because nothing is left. -/
def atBlockEnd : Rule Bool := do
  match (← get).rest with
  | [] => return true
  | t :: _ => return t.kind = .mark .rightBrace

/-- What is behind a token of kind `k`, if that is next. -/
def behind? (k : Kind) (rule : Rule α) : Rule (Option α) := do
  if ← accept k then return some (← rule) else return none

def expect (k : Kind) (what : Expected) : Rule Token := do
  match ← take? (· = k) with
  | some t => return t
  | none => fail what

/-- One or more items separated by commas. An item is told how many came before it. -/
def commaSeparated (item : Nat → Rule α) : (n count : Nat) → Rule (List α)
  | 0, count => do return [← item count]
  | n + 1, count => do
    let x ← item count
    if ← accept (.mark .comma) then
      return x :: (← commaSeparated item n (count + 1))
    else
      return [x]

/-- Items up to a closing parenthesis, which is not consumed. Too many of them are an error, but
they are read all the same. -/
def items (item : Rule α) (tooMany : SyntaxFault) (n : Nat) : Rule (List α) := do
  if ← nextIs (.mark .rightParen) then
    return []
  else
    commaSeparated (fun count => do
      if maxArity ≤ count then
        report (← peek) tooMany
      item) n 0

/-! ### Expressions -/

/-- The rank of a binary operator: the higher, the looser it binds. -/
def operatorRank? : Kind → Option Nat
  | .mark .slash | .mark .star => some 1
  | .mark .minus | .mark .plus => some 2
  | .mark .greater | .mark .greaterEqual | .mark .less | .mark .lessEqual => some 3
  | .mark .bangEqual | .mark .equalEqual => some 4
  | .keyword .and => some 5
  | .keyword .or => some 6
  | _ => none

/-- The rank above all operators, where assignments stand. -/
def assignmentRank : Nat := 7

def isUnaryOperator (k : Kind) : Bool :=
  k = .mark .bang || k = .mark .minus

/-- The tree of a binary operator. -/
def join (left : Expr) (operator : Token) (right : Expr) : Expr :=
  match operator.kind with
  | .keyword _ => .logical left operator right
  | _ => .binary left operator right

/-- What an expression becomes as the target of an assignment. -/
def assignTo (target : Expr) (equal : Token) (value : Expr) : Rule Expr := do
  match target with
  | .variable node name => return .assign node name value
  | .get object name => return .set object name value
  | _ =>
    report equal .assignmentTarget
    return target

/-- A literal, a name, `this`, a method of `super`, or an expression in parentheses. -/
def primary (expression : Rule Expr) : Rule Expr := do
  let t ← peek
  match t.kind with
  | .keyword .false => consumed t (.literal (.bool false))
  | .keyword .true => consumed t (.literal (.bool true))
  | .keyword .nil => consumed t (.literal .nil)
  | .number x => consumed t (.literal (.number x))
  | .string s => consumed t (.literal (.string s))
  | .identifier => consumed t (.variable (← fresh) t)
  | .keyword .this => consumed t (.this (← fresh) t)
  | .keyword .super =>
    let _ ← accept t.kind
    let _ ← expect (.mark .dot) .superDot
    let method ← expect .identifier .superMethodName
    return .super (← fresh) t method
  | .mark .leftParen =>
    let _ ← accept t.kind
    let inner ← expression
    let _ ← expect (.mark .rightParen) .groupClosing
    return .grouping inner
  | _ => fail .expression
where
  consumed (t : Token) (e : Expr) : Rule Expr := do
    let _ ← accept t.kind
    return e

/-- The arguments of a call, whose opening parenthesis has been consumed. -/
def callArguments (expression : Rule Expr) (n : Nat) (callee : Expr) : Rule Expr := do
  let arguments ← items expression .tooManyArguments n
  let closing ← expect (.mark .rightParen) .argumentsClosing
  return .call callee closing arguments

/-- Calls and properties, applied to what stands before them. -/
def suffixes (expression : Rule Expr) : (n : Nat) → Expr → Rule Expr
  | 0, e => return e
  | n + 1, e => do
    if ← accept (.mark .leftParen) then
      suffixes expression n (← callArguments expression n e)
    else if ← accept (.mark .dot) then
      let name ← expect .identifier .propertyName
      suffixes expression n (.get e name)
    else
      return e

/-- Further operands of one rank, associated to the left. -/
def chain (operand : Rule Expr) (rank : Nat) : (n : Nat) → Expr → Rule Expr
  | 0, left => return left
  | n + 1, left => do
    match ← take? fun k => operatorRank? k = some rank with
    | some operator => chain operand rank n (join left operator (← operand))
    | none => return left

/-- Unary operators, calls and what is tighter. The parameter `inner` reads an expression of a given
rank behind the first token. -/
def unary (inner : Nat → Rule Expr) (n : Nat) : Rule Expr := do
  match ← take? isUnaryOperator with
  | some operator => return .unary operator (← inner 0)
  | none => suffixes (inner assignmentRank) n (← primary (inner assignmentRank))

/-- Operators of rank at most `rank`, with unary expressions at the bottom. -/
def operation (inner : Nat → Rule Expr) (n : Nat) : (rank : Nat) → Rule Expr
  | 0 => unary inner n
  | rank + 1 => do chain (inner rank) (rank + 1) n (← operation inner n rank)

/-- An operation, or an assignment to one that can be assigned to. -/
def assignment (inner : Nat → Rule Expr) (n : Nat) : Rule Expr := do
  let target ← operation inner n (assignmentRank - 1)
  match ← take? (· = .mark .equal) with
  | some equal => assignTo target equal (← inner assignmentRank)
  | none => return target

/-- An expression of the given rank among at most `n` tokens. -/
def ranked : (n rank : Nat) → Rule Expr
  | 0, _ => fail .expression
  | n + 1, rank =>
    if rank < assignmentRank then operation (ranked n) n rank else assignment (ranked n) n

def expression (n : Nat) : Rule Expr :=
  ranked n assignmentRank

/-! ### Statements -/

/-- The rules that statements need for their parts, which are behind their first token. -/
structure Parts where
  /-- A bound on the number of tokens. -/
  bound : Nat
  statement : Rule Stmt
  /-- Declarations up to a closing brace or the end of the input. -/
  declarations : Rule (List Stmt)

/-- An expression and the semicolon behind it. -/
def terminated (n : Nat) (missing : Expected) : Rule Expr := do
  let e ← expression n
  let _ ← expect (.mark .semicolon) missing
  return e

/-- An expression, unless the next token is of kind `k`. -/
def expressionUnless (k : Kind) (n : Nat) : Rule (Option Expr) := do
  if ← nextIs k then return none else return some (← expression n)

/-- The declarations of a block, whose opening brace has been consumed. -/
def block (p : Parts) : Rule (List Stmt) := do
  let body ← p.declarations
  let _ ← expect (.mark .rightBrace) .blockClosing
  return body

def function (p : Parts) (form : FunctionForm) : Rule FunctionDecl := do
  let name ← expect .identifier (.functionName form)
  let _ ← expect (.mark .leftParen) (.parametersOpening form)
  let parameters ← items (expect .identifier .parameterName) .tooManyParameters p.bound
  let _ ← expect (.mark .rightParen) .parametersClosing
  let _ ← expect (.mark .leftBrace) (.bodyOpening form)
  return ⟨name, parameters, ← block p⟩

/-- Methods up to the closing brace of a class or the end of the input. -/
def methods (p : Parts) : (n : Nat) → Rule (List FunctionDecl)
  | 0 => return []
  | n + 1 => do
    if ← atBlockEnd then
      return []
    else
      let first ← function p .method
      return first :: (← methods p n)

def superclassReference : Rule Expr := do
  let name ← expect .identifier .superclassName
  return .variable (← fresh) name

def classDeclaration (p : Parts) : Rule Stmt := do
  let name ← expect .identifier .className
  let superclass ← behind? (.mark .less) superclassReference
  let _ ← expect (.mark .leftBrace) .classOpening
  let declared ← methods p p.bound
  let _ ← expect (.mark .rightBrace) .classClosing
  return .class name superclass declared

def varDeclaration (p : Parts) : Rule Stmt := do
  let name ← expect .identifier .variableName
  let initial ← behind? (.mark .equal) (expression p.bound)
  let _ ← expect (.mark .semicolon) .variableEnd
  return .var name initial

/-- A counting loop as a block that runs the initial statement and then a `while`, whose body runs
the loop's body and then the increment. -/
def desugarFor (initial : Option Stmt) (condition increment : Option Expr) (body : Stmt) : Stmt :=
  let body := match increment with
    | some e => .block [body, .expression e]
    | none => body
  let loop := .while (condition.getD (.literal (.bool true))) body
  match initial with
  | some s => .block [s, loop]
  | none => loop

/-- The first clause of a counting loop with its semicolon. -/
def forInitial (p : Parts) : Rule (Option Stmt) := do
  if ← accept (.mark .semicolon) then return none
  else if ← accept (.keyword .var) then return some (← varDeclaration p)
  else return some (.expression (← terminated p.bound .expressionEnd))

def forStatement (p : Parts) : Rule Stmt := do
  let _ ← expect (.mark .leftParen) .forOpening
  let initial ← forInitial p
  let condition ← expressionUnless (.mark .semicolon) p.bound
  let _ ← expect (.mark .semicolon) .forConditionEnd
  let increment ← expressionUnless (.mark .rightParen) p.bound
  let _ ← expect (.mark .rightParen) .forClosing
  return desugarFor initial condition increment (← p.statement)

def ifStatement (p : Parts) : Rule Stmt := do
  let _ ← expect (.mark .leftParen) .ifOpening
  let condition ← expression p.bound
  let _ ← expect (.mark .rightParen) .ifClosing
  let consequent ← p.statement
  let alternative ← behind? (.keyword .else) p.statement
  return .if condition consequent alternative

def whileStatement (p : Parts) : Rule Stmt := do
  let _ ← expect (.mark .leftParen) .whileOpening
  let condition ← expression p.bound
  let _ ← expect (.mark .rightParen) .whileClosing
  return .while condition (← p.statement)

def returnStatement (p : Parts) (keyword : Token) : Rule Stmt := do
  let value ← expressionUnless (.mark .semicolon) p.bound
  let _ ← expect (.mark .semicolon) .returnEnd
  return .return keyword value

/-- A statement among at most `n + 1` tokens, with the rules for its parts at `n`. -/
def statementOf (p : Parts) : Rule Stmt := do
  let t ← peek
  if ← accept (.keyword .for) then forStatement p
  else if ← accept (.keyword .if) then ifStatement p
  else if ← accept (.keyword .print) then return .print (← terminated p.bound .printEnd)
  else if ← accept (.keyword .return) then returnStatement p t
  else if ← accept (.keyword .while) then whileStatement p
  else if ← accept (.mark .leftBrace) then return .block (← block p)
  else return .expression (← terminated (p.bound + 1) .expressionEnd)

/-- A class, a function, a variable or any other statement. -/
def declarationOf (p : Parts) : Rule Stmt := do
  if ← accept (.keyword .class) then classDeclaration p
  else if ← accept (.keyword .fun) then return .function (← function p .function)
  else if ← accept (.keyword .var) then varDeclaration p
  else statementOf p

/-! ### Recovery -/

/-- The keywords that a statement can begin with. -/
def beginsStatement (k : Kind) : Bool :=
  k = .keyword .class || k = .keyword .fun || k = .keyword .var || k = .keyword .for
    || k = .keyword .if || k = .keyword .while || k = .keyword .print || k = .keyword .return

/-- What is left after `previous` from the next statement on: it begins behind a semicolon or with a
keyword of its own. -/
def resume (previous : Token) : List Token → List Token
  | [] => []
  | t :: rest =>
    if previous.kind = .mark .semicolon || beginsStatement t.kind then t :: rest else resume t rest

/-- Skips the token at which reading failed and what follows it up to the next statement. -/
def resync : List Token → List Token
  | [] => []
  | t :: rest => resume t rest

/-- A declaration, or nothing but its error. -/
def declaration (p : Parts) (s : Reading) : Option Stmt × Reading :=
  match declarationOf p s with
  | .ok stmt s => (some stmt, s)
  | .error e s => (none, { s with rest := resync s.rest, errors := e :: s.errors })

mutual

def statement : (n : Nat) → Rule Stmt
  | 0 => fail .expression
  | n + 1 => statementOf ⟨n, statement n, declarations n⟩

/-- Declarations up to a closing brace or the end of the input. -/
def declarations : (n : Nat) → Rule (List Stmt)
  | 0 => return []
  | n + 1 => do
    if ← atBlockEnd then
      return []
    else
      let first ← modifyGet (declaration ⟨n, statement n, declarations n⟩)
      return first.toList ++ (← declarations n)

end

/-- Declarations up to the end of the input, whatever is in between. -/
def program : (n : Nat) → Reading → List Stmt × Reading
  | 0, s => ([], s)
  | n + 1, s =>
    if s.rest.isEmpty then
      ([], s)
    else
      let (first, s) := declaration ⟨n, statement n, declarations n⟩ s
      let (others, s) := program n s
      (first.toList ++ others, s)

end Rule

/-- What reading a list of tokens gives. -/
structure Parsed where
  statements : List Stmt
  errors : List SyntaxError
  /-- The identity after the last one used. -/
  next : NodeId

/-- The end-of-input token of a list of tokens: the first there is, or else one on the last line. -/
def finishOf (tokens : List Token) : Token :=
  match tokens.find? (·.kind = .eof) with
  | some t => t
  | none => ⟨.eof, "", (tokens.getLast?.map (·.line)).getD 1⟩

/-- The tokens in front of the first end of input. -/
def beforeFinish (tokens : List Token) : List Token :=
  tokens.takeWhile (·.kind ≠ .eof)

/-- Reads a program, with identities from `next` on for its references. -/
def parseTokens (tokens : List Token) (next : NodeId) : Parsed :=
  let rest := beforeFinish tokens
  let (statements, s) := Rule.program rest.length ⟨rest, finishOf tokens, next, []⟩
  ⟨statements, s.errors.reverse, s.next⟩

end Treewalk
