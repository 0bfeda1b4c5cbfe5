import Treewalk.Token.Lexer
/-!
# Diagnostics

What can go wrong at each stage, as causes, and the wording of each in one place.
-/

namespace Treewalk

/-- Functions declared with `fun` and functions declared in a class differ in their wording. -/
inductive FunctionForm where
  | function
  | method
deriving DecidableEq, Repr

/-- What the reader was looking for when it met another token. -/
inductive Expected where
  | expression
  | className | superclassName | classOpening | classClosing
  | functionName (form : FunctionForm) | parametersOpening (form : FunctionForm)
  | parameterName | parametersClosing | bodyOpening (form : FunctionForm)
  | variableName | variableEnd
  | forOpening | forConditionEnd | forClosing
  | ifOpening | ifClosing
  | whileOpening | whileClosing
  | printEnd | returnEnd | expressionEnd | blockClosing
  | propertyName | argumentsClosing | superDot | superMethodName | groupClosing
deriving DecidableEq, Repr

inductive SyntaxFault where
  | expected (what : Expected)
  | assignmentTarget
  | tooManyParameters
  | tooManyArguments
deriving DecidableEq, Repr

/-- A syntax error and the token it is reported at. -/
structure SyntaxError where
  token : Token
  fault : SyntaxFault
deriving DecidableEq, Repr

/-- Misuse of names and keywords that shows without running the program. -/
inductive StaticFault where
  | returnAtTopLevel
  | returnFromInitializer
  | alreadyDeclared
  | ownInitializer
  | selfInheritance
  | thisOutsideClass
  | superOutsideClass
  | superWithoutSuperclass
  | directInitializerCall
deriving DecidableEq, Repr

structure StaticError where
  token : Token
  fault : StaticFault
deriving DecidableEq, Repr

/-- Why a running program stops. -/
inductive RuntimeFault where
  | undefinedVariable (name : String)
  | noScope (distance : Nat) (name : String)
  | undefinedProperty (name : String)
  | operandNotNumber
  | operandsNotAddable
  | operandsNotNumbers (operator : String)
  | unaryOperator (operator : String)
  | binaryOperator (operator : String)
  | notCallable
  | arity (expected got : Nat)
  | propertyOfNonInstance
  | fieldOfNonInstance
  | superclassNotClass
  | superOutsideClass
deriving DecidableEq, Repr

structure RuntimeError where
  line : Nat
  fault : RuntimeFault
deriving DecidableEq, Repr

/-- Anything that is reported to the user. -/
inductive Diagnostic where
  | lexical (e : LexicalError)
  | syntactic (e : SyntaxError)
  | static (e : StaticError)
  | runtime (e : RuntimeError)
  /-- The output could not be written, for the given reason. -/
  | output (reason : String)
deriving DecidableEq, Repr

/-! ### Wording -/

def LexicalFault.message : LexicalFault → String
  | unexpectedCharacter c => "Unexpected character: " ++ String.singleton c
  | unterminatedString => "Unterminated string."

def FunctionForm.word : FunctionForm → String
  | function => "function"
  | method => "method"

def Expected.message : Expected → String
  | expression => "Expect expression."
  | className => "Expect class name."
  | superclassName => "Expect superclass name."
  | classOpening => "Expect '\x7b' before class body."
  | classClosing => "Expect '\x7d' after class body."
  | functionName form => "Expect " ++ form.word ++ " name."
  | parametersOpening form => "Expect '(' after " ++ form.word ++ " name."
  | parameterName => "Expect parameter name."
  | parametersClosing => "Expect ')' after parameters."
  | bodyOpening form => "Expect '\x7b' before " ++ form.word ++ " body."
  | variableName => "Expect variable name."
  | variableEnd => "Expect ';' after variable declaration."
  | forOpening => "Expect '(' after 'for'."
  | forConditionEnd => "Expect ';' after loop condition."
  | forClosing => "Expect ')' after for clauses."
  | ifOpening => "Expect '(' after 'if'."
  | ifClosing => "Expect ')' after if condition."
  | whileOpening => "Expect '(' after 'while'."
  | whileClosing => "Expect ')' after condition."
  | printEnd => "Expect ';' after value."
  | returnEnd => "Expect ';' after return value."
  | expressionEnd => "Expect ';' after expression."
  | blockClosing => "Expect '\x7d' after block."
  | propertyName => "Expect property name after '.'."
  | argumentsClosing => "Expect ')' after arguments."
  | superDot => "Expect '.' after 'super'."
  | superMethodName => "Expect superclass method name."
  | groupClosing => "Expect ')' after expression."

def SyntaxFault.message : SyntaxFault → String
  | expected what => what.message
  | assignmentTarget => "Invalid assignment target."
  | tooManyParameters => "Can't have more than 255 parameters."
  | tooManyArguments => "Can't have more than 255 arguments."

def StaticFault.message : StaticFault → String
  | returnAtTopLevel => "Can't return from top-level code."
  | returnFromInitializer => "Can't return a value from an initializer."
  | alreadyDeclared => "Already a variable with this name in this scope."
  | ownInitializer => "Can't read local variable in its own initializer."
  | selfInheritance => "A class can't inherit from itself."
  | thisOutsideClass => "Can't use 'this' outside of a class."
  | superOutsideClass => "Can't use 'super' outside of a class."
  | superWithoutSuperclass => "Can't use 'super' in a class with no superclass."
  | directInitializerCall => "Can't call an initializer directly."

def RuntimeFault.message : RuntimeFault → String
  | undefinedVariable name => "Undefined variable '" ++ name ++ "'."
  | noScope distance name =>
    "No scope " ++ toString distance ++ " level(s) out for '" ++ name ++ "'."
  | undefinedProperty name => "Undefined property '" ++ name ++ "'."
  | operandNotNumber => "Operand must be a number."
  | operandsNotAddable => "Operands must be two numbers or two strings."
  | operandsNotNumbers operator => "Operands of '" ++ operator ++ "' must be numbers."
  | unaryOperator operator => "Invalid unary operator '" ++ operator ++ "'."
  | binaryOperator operator => "Invalid binary operator '" ++ operator ++ "'."
  | notCallable => "Can only call functions and classes."
  | arity expected got =>
    "Expected " ++ toString expected ++ " arguments but got " ++ toString got ++ "."
  | propertyOfNonInstance => "Only instances have properties."
  | fieldOfNonInstance => "Only instances have fields."
  | superclassNotClass => "Superclass must be a class."
  | superOutsideClass => "Can't use 'super' outside of a class."

/-- Where a diagnostic about a token points. -/
def Token.location (t : Token) : String :=
  if t.kind = .eof then " at end" else " at '" ++ t.lexeme ++ "'"

namespace Diagnostic

def message : Diagnostic → String
  | lexical e => e.fault.message
  | syntactic e => e.fault.message
  | static e => e.fault.message
  | runtime e => e.fault.message
  | output reason => reason

def line? : Diagnostic → Option Nat
  | lexical e => some e.line
  | syntactic e => some e.token.line
  | static e => some e.token.line
  | runtime e => some e.line
  | output _ => none

def location? : Diagnostic → Option String
  | syntactic e => some e.token.location
  | static e => some e.token.location
  | lexical _ | runtime _ | output _ => none

/-- A message behind the place it is about. -/
def placed (line : Nat) (location message : String) : String :=
  "[line " ++ toString line ++ "] Error" ++ location ++ ": " ++ message

/-- The diagnostic as the user sees it. A runtime error has its line below the message, any earlier
error in front of it. -/
def text : Diagnostic → String
  | lexical e => placed e.line "" e.fault.message
  | syntactic e => placed e.token.line e.token.location e.fault.message
  | static e => placed e.token.line e.token.location e.fault.message
  | runtime e => e.fault.message ++ "\n[line " ++ toString e.line ++ "]"
  | output reason => reason

end Diagnostic

end Treewalk
