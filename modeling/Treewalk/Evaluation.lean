import Treewalk.Heap.Basic
import Treewalk.Resolution
import Treewalk.Sink
/-!
# Evaluation

The evaluator walks the tree with a cursor at the scope that is executing. It is one non-recursive
rule per sort of node, given the evaluation of the parts; the rules are tied together by a fuel,
which bounds how deep evaluations nest and how often a loop repeats. Running out of fuel is an
outcome of its own.

What needs no state but may stop (operators, the order of parts, loops) is stated for any monad that
can stop.
-/

namespace Treewalk

/-- What evaluation depends on and does not change. -/
structure Setting where
  /-- How far up each reference is bound; one without an entry is global. -/
  distances : Distances
  /-- What the clock shows at each reading. -/
  clock : Nat → Float

/-- The state of a running program. -/
structure Machine where
  heap : Heap
  /-- The scope that is executing. -/
  cursor : ScopeId
  out : Sink
  /-- How often the clock has been read. -/
  readings : Nat

namespace Machine

def initial (out : Sink) : Machine := ⟨.initial, Heap.globals, out, 0⟩

end Machine

/-- Why evaluation stopped without a result. -/
inductive Stop where
  | runtime (e : RuntimeError)
  /-- The output could not be written, for the given reason. -/
  | output (reason : String)
  | outOfFuel
deriving DecidableEq, Repr

abbrev Eval := ReaderT Setting (EStateM Stop Machine)

/-- How a statement finished. -/
inductive Completion where
  | normal
  /-- A return is on its way to the nearest function call. -/
  | returned (v : Value)

/-- The value that a literal denotes. -/
def Literal.denotes : Literal → Value
  | .nil => .nil
  | .bool b => .bool b
  | .number x => .number x
  | .string s => .string s

namespace Eval

variable {α : Type} {m : Type → Type} [Monad m] [MonadExceptOf Stop m]

def fail (line : Nat) (fault : RuntimeFault) : m α :=
  throw (.runtime ⟨line, fault⟩)

/-- The outcome of an operation that may fail on the given line. -/
def lift (line : Nat) : Except RuntimeFault α → m α
  | .ok a => pure a
  | .error fault => fail line fault

def heap : Eval Heap :=
  return (← get).heap

def modifyHeap (f : Heap → Heap) : Eval Unit :=
  modify fun m => { m with heap := f m.heap }

/-! ### Making objects -/

def newScope (bindings : Bindings Value) (enclosing : ScopeId) : Eval ScopeId :=
  modifyGet fun m => (m.heap.scopes.size, { m with heap := m.heap.addScope bindings enclosing })

def newFunction (f : Function) : Eval FunctionId :=
  modifyGet fun m => (m.heap.functions.size, { m with heap := m.heap.addFunction f })

def newClass (c : Class) : Eval ClassId :=
  modifyGet fun m => (m.heap.classes.size, { m with heap := m.heap.addClass c })

def newInstance (c : ClassId) : Eval InstanceId :=
  modifyGet fun m => (m.heap.instances.size, { m with heap := m.heap.addInstance c })

/-! ### Names -/

/-- Binds a name in the scope that is executing. -/
def define (x : String) (v : Value) : Eval Unit :=
  modify fun m => { m with heap := m.heap.define m.cursor x v }

/-- What a name is bound to that many scopes up. -/
def getAt (distance : Nat) (x : String) (line : Nat) : Eval Value := do
  let m ← get
  lift line (m.heap.scopes.getAt m.cursor distance x)

/-- What a reference is bound to. -/
def lookUp (node : NodeId) (name : Token) : Eval Value := do
  match (← read).distances[node]? with
  | some distance => getAt distance name.lexeme name.line
  | none => lift name.line ((← heap).scopes.get Heap.globals name.lexeme)

/-- The scope in which a reference is bound. -/
def locate (node : NodeId) (name : Token) : Eval ScopeId := do
  let m ← get
  lift name.line <|
    match (← read).distances[node]? with
    | some distance => m.heap.scopes.findAt m.cursor distance name.lexeme
    | none => m.heap.scopes.find Heap.globals name.lexeme

/-- Assigns to what a reference is bound to. -/
def assign (node : NodeId) (name : Token) (v : Value) : Eval Unit := do
  let scope ← locate node name
  modifyHeap (·.define scope name.lexeme v)

/-- Runs `body` in the given scope and comes back, however `body` ends. -/
def within (scope : ScopeId) (body : Eval α) : Eval α := fun setting m =>
  let cursor := m.cursor
  match body setting { m with cursor := scope } with
  | .ok a m => .ok a { m with cursor := cursor }
  | .error e m => .error e { m with cursor := cursor }

/-- Prints a line. -/
def print (text : String) : Eval Unit := do
  let bytes := (text ++ "\n").toUTF8
  let refusal ← modifyGet fun m =>
    (m.out.refusal? bytes, { m with out := m.out.write bytes })
  match refusal with
  | none => return
  | some reason => throw (.output reason)

/-! ### Operators -/

def unary (operator : Token) (v : Value) : m Value :=
  match operator.kind with
  | .mark .bang => return .bool (!v.isTruthy)
  | .mark .minus =>
    match v with
    | .number x => return .number (-x)
    | _ => fail operator.line .operandNotNumber
  | _ => fail operator.line (.unaryOperator operator.lexeme)

/-- Operators on numbers other than addition. -/
def arithmetic (operator : Token) (x y : Float) : m Value :=
  match operator.kind with
  | .mark .minus => return .number (x - y)
  | .mark .star => return .number (x * y)
  | .mark .slash => return .number (x / y)
  | .mark .greater => return .bool (decide (x > y))
  | .mark .greaterEqual => return .bool (decide (x ≥ y))
  | .mark .less => return .bool (decide (x < y))
  | .mark .lessEqual => return .bool (decide (x ≤ y))
  | _ => fail operator.line (.binaryOperator operator.lexeme)

def binary (v : Value) (operator : Token) (w : Value) : m Value :=
  match operator.kind with
  | .mark .equalEqual => return .bool (v.equals w)
  | .mark .bangEqual => return .bool (!v.equals w)
  | .mark .plus =>
    match v, w with
    | .number x, .number y => return .number (x + y)
    | .string s, .string t => return .string (s ++ t)
    | _, _ => fail operator.line .operandsNotAddable
  | _ =>
    match v, w with
    | .number x, .number y => arithmetic operator x y
    | _, _ => fail operator.line (.operandsNotNumbers operator.lexeme)

/-- Whether the left operand decides: a true one does for `or`, a false one for `and`. -/
def decides (operator : Token) (v : Value) : Bool :=
  if operator.kind = .keyword .or then v.isTruthy else !v.isTruthy

/-! ### Functions and classes -/

/-- A method whose closure has one more scope, which binds `this`. -/
def bind (f : Function) (i : InstanceId) : Eval Function := do
  let scope ← newScope [("this", .instance i)] f.closure
  return { f with closure := scope }

/-- A method as a value, bound to an instance. -/
def boundMethod (f : Function) (i : InstanceId) : Eval Value := do
  return .function (← newFunction (← bind f i))

/-- The bindings of parameters to arguments. -/
def parameterBindings (parameters : List Token) (arguments : List Value) : Bindings Value :=
  (parameters.zip arguments).foldl (fun b (p, v) => b.set p.lexeme v) []

/-- Statements in order, up to the first that returns. -/
def statements (exec : Stmt → m Completion) : List Stmt → m Completion
  | [] => return .normal
  | s :: rest => do
    match ← exec s with
    | .normal => statements exec rest
    | .returned v => return .returned v

/-- Runs a function's body in a new scope under its closure. An initializer yields the instance it
is bound to, however its body finished. -/
def callFunction (exec : Stmt → Eval Completion) (f : Function) (arguments : List Value) :
    Eval Value := do
  let scope ← newScope (parameterBindings f.declaration.parameters arguments) f.closure
  let completion ← within scope (statements exec f.declaration.body)
  if f.isInitializer then
    lift f.declaration.name.line ((← heap).scopes.getAt f.closure 0 "this")
  else
    match completion with
    | .normal => return .nil
    | .returned v => return v

/-- Makes an instance and runs the initializer on it, if the class has one. -/
def instantiate (exec : Stmt → Eval Completion) (c : ClassId) (arguments : List Value) :
    Eval Value := do
  let i ← newInstance c
  match (← heap).findMethod? c initializerName with
  | some f =>
    let _ ← callFunction exec (← bind f i) arguments
    return .instance i
  | none => return .instance i

def callNative : Native → Eval Value
  | .clock => do
    let reading ← modifyGet fun m => (m.readings, { m with readings := m.readings + 1 })
    return .number ((← read).clock reading)

def checkArity (expected got line : Nat) : m Unit :=
  if expected = got then pure () else fail line (.arity expected got)

def callValue (exec : Stmt → Eval Completion) (callee : Value) (arguments : List Value)
    (line : Nat) : Eval Value := do
  match callee with
  | .native f =>
    checkArity f.arity arguments.length line
    callNative f
  | .function f =>
    match (← heap).functions[f]? with
    | some f =>
      checkArity f.arity arguments.length line
      callFunction exec f arguments
    | none => fail line .notCallable
  | .class c =>
    checkArity ((← heap).classArity c) arguments.length line
    instantiate exec c arguments
  | _ => fail line .notCallable

/-- A field of an instance, or else a method bound to it. -/
def getProperty (v : Value) (name : Token) : Eval Value := do
  match v with
  | .instance i =>
    let h ← heap
    match h.instances[i]? with
    | some o =>
      match o.fields.get? name.lexeme with
      | some field => return field
      | none =>
        match h.findMethod? o.ofClass name.lexeme with
        | some f => boundMethod f i
        | none => fail name.line (.undefinedProperty name.lexeme)
    | none => fail name.line (.undefinedProperty name.lexeme)
  | _ => fail name.line .propertyOfNonInstance

/-- A method of the superclass, bound to the instance in the scope below the one that binds
`super`. -/
def superMethod (node : NodeId) (keyword method : Token) : Eval Value := do
  match (← read).distances[node]? with
  | none => fail keyword.line .superOutsideClass
  | some distance =>
    let superclass ← getAt distance keyword.lexeme keyword.line
    let object ← getAt (distance - 1) "this" keyword.line
    match superclass, object with
    | .class c, .instance i =>
      match (← heap).findMethod? c method.lexeme with
      | some f => boundMethod f i
      | none => fail method.line (.undefinedProperty method.lexeme)
    | _, _ => fail keyword.line .superOutsideClass

/-- The line on which a superclass that is no class is reported. -/
def superclassLine (name : Token) : Expr → Nat
  | .variable _ superName => superName.line
  | _ => name.line

/-- The methods of a class, of which the last of a name counts. -/
def methodTable (methods : List FunctionDecl) (closure : ScopeId) : Bindings Function :=
  methods.foldl (fun b f => b.set f.name.lexeme ⟨f, closure, f.isInitializer⟩) []

/-- The scope that methods close over. For those of a subclass it is a new one, which binds
`super`. -/
def methodClosure (superclass : Option ClassId) : Eval ScopeId := do
  let cursor := (← get).cursor
  match superclass with
  | some s => newScope [("super", .class s)] cursor
  | none => return cursor

/-- Makes a class in the scope that is executing. -/
def declareClass (name : Token) (superclass : Option ClassId) (methods : List FunctionDecl) :
    Eval Unit := do
  let closure ← methodClosure superclass
  let c ← newClass ⟨name.lexeme, superclass, methodTable methods closure⟩
  define name.lexeme (.class c)

/-! ### The rules -/

/-- Expressions in order. -/
def values (eval : Expr → m Value) : List Expr → m (List Value)
  | [] => return []
  | e :: rest => return (← eval e) :: (← values eval rest)

/-- A loop, repeated at most that many times. -/
def loop (eval : Expr → m Value) (exec : Stmt → m Completion) (condition : Expr)
    (body : Stmt) : (n : Nat) → m Completion
  | 0 => throw .outOfFuel
  | n + 1 => do
    if (← eval condition).isTruthy then
      match ← exec body with
      | .normal => loop eval exec condition body n
      | .returned v => return .returned v
    else
      return .normal

/-- An expression, given the evaluation of its parts. -/
def exprRule (eval : Expr → Eval Value) (exec : Stmt → Eval Completion) : Expr → Eval Value
  | .literal value => return value.denotes
  | .grouping inner => eval inner
  | .unary operator operand => do unary operator (← eval operand)
  | .binary left operator right => do
    let v ← eval left
    binary v operator (← eval right)
  | .logical left operator right => do
    let v ← eval left
    if decides operator v then return v else eval right
  | .variable node name => lookUp node name
  | .assign node name value => do
    let v ← eval value
    assign node name v
    return v
  | .call callee closing arguments => do
    let f ← eval callee
    callValue exec f (← values eval arguments) closing.line
  | .get object name => do getProperty (← eval object) name
  | .set object name value => do
    match ← eval object with
    | .instance i =>
      let v ← eval value
      modifyHeap (·.setField i name.lexeme v)
      return v
    | _ => fail name.line .fieldOfNonInstance
  | .this node keyword => lookUp node keyword
  | .super node keyword method => superMethod node keyword method

/-- A statement, given the evaluation of its parts and a bound on loops. -/
def stmtRule (eval : Expr → Eval Value) (exec : Stmt → Eval Completion) (n : Nat) :
    Stmt → Eval Completion
  | .expression e => do
    let _ ← eval e
    return .normal
  | .print e => do
    let v ← eval e
    print ((← heap).text v)
    return .normal
  | .var name none => do
    define name.lexeme .nil
    return .normal
  | .var name (some e) => do
    define name.lexeme (← eval e)
    return .normal
  | .block body => do
    let scope ← newScope [] (← get).cursor
    within scope (statements exec body)
  | .if condition consequent alternative => do
    if (← eval condition).isTruthy then
      exec consequent
    else
      match alternative with
      | some s => exec s
      | none => return .normal
  | .while condition body => loop eval exec condition body n
  | .function f => do
    let id ← newFunction ⟨f, (← get).cursor, false⟩
    define f.name.lexeme (.function id)
    return .normal
  | .return _ none => return .returned .nil
  | .return _ (some e) => return .returned (← eval e)
  | .class name none methods => do
    declareClass name none methods
    return .normal
  | .class name (some superclass) methods => do
    match ← eval superclass with
    | .class s =>
      declareClass name (some s) methods
      return .normal
    | _ => fail (superclassLine name superclass) .superclassNotClass

mutual

/-- Evaluates an expression with the given fuel. -/
def expr : (fuel : Nat) → Expr → Eval Value
  | 0, _ => throw .outOfFuel
  | n + 1, e => exprRule (expr n) (stmt n) e

/-- Executes a statement with the given fuel. -/
def stmt : (fuel : Nat) → Stmt → Eval Completion
  | 0, _ => throw .outOfFuel
  | n + 1, s => stmtRule (expr n) (stmt n) n s

end

/-- Runs a program's statements in order. A return outside of functions ends its statement only. -/
def program (fuel : Nat) : List Stmt → Eval Unit
  | [] => return
  | s :: rest => do
    let _ ← stmt fuel s
    program fuel rest

end Eval

end Treewalk
