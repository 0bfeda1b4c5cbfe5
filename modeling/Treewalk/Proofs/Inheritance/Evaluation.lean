import Treewalk.Session
/-!
# Inheritance by declaration

An evaluator that looks for methods, `this` and `super` neither in scopes nor in the classes of the
heap. It keeps a ledger besides the machine. In it a class has the methods of its declaration and the
class that its superclass was when it was declared, and a function has its home: the class whose
declaration it is in, and the instance that the method around it was invoked on. What is called
`this` is the instance of the home, and what is called `super` is the superclass of its class.

Nothing in the ledger is ever changed.
-/

namespace Treewalk
namespace Inheritance

/-- What a method, with the functions in it, is run for. -/
structure Home where
  /-- The class whose declaration has the method. -/
  ofClass : ClassId
  /-- The instance that the method was invoked on. -/
  receiver : InstanceId

/-- A class as it was declared. -/
structure Declared where
  methods : List FunctionDecl
  /-- The class that the superclass was, when the class was declared. -/
  superclass : Option ClassId
  /-- The scope that the methods close over. -/
  closure : ScopeId

/-- The last method of the name that the declaration itself has. -/
def Declared.own? (d : Declared) (x : String) : Option Function :=
  (d.methods.reverse.find? (·.name.lexeme = x)).map fun f => ⟨f, d.closure, f.isInitializer⟩

/-- What has been declared. -/
structure Ledger where
  classes : Array Declared
  /-- The home of each function that is in the text of a method. -/
  homes : Array (Option Home)

namespace Ledger

def empty : Ledger := ⟨#[], #[]⟩

/-- The superclass that class `c` was declared with. It is always an earlier one. -/
def superclass? (l : Ledger) (c : ClassId) : Option ClassId :=
  (l.classes[c]?.bind (·.superclass)).filter (· < c)

theorem superclass?_lt {l : Ledger} {c s : ClassId} (hs : l.superclass? c = some s) : s < c := by
  simpa using (Option.filter_eq_some_iff.mp hs).2

/-- The nearest class, from `c` upwards, whose declaration has a method of the name, and the last
such method. -/
def nearest? (l : Ledger) (c : ClassId) (x : String) : Option (ClassId × Function) :=
  match l.classes[c]?.bind (·.own? x) with
  | some f => some (c, f)
  | none =>
    match _hs : l.superclass? c with
    | some s => nearest? l s x
    | none => none
termination_by c
decreasing_by exact superclass?_lt _hs

/-- A class takes as many arguments as its initializer. -/
def arity (l : Ledger) (c : ClassId) : Nat :=
  match l.nearest? c initializerName with
  | some (_, f) => f.arity
  | none => 0

end Ledger

structure State extends Machine where
  ledger : Ledger

abbrev Action := ReaderT Setting (EStateM Stop State)

variable {α : Type}

/-! ### Machine and ledger -/

/-- Does what needs no ledger. -/
def onMachine (x : Eval α) : Action α := fun σ t =>
  match x σ t.toMachine with
  | .ok a m => .ok a { t with toMachine := m }
  | .error e m => .error e { t with toMachine := m }

/-- Runs `body` in the given scope and comes back, however `body` ends. -/
def within (scope : ScopeId) (body : Action α) : Action α := fun σ t =>
  let cursor := t.cursor
  match body σ { t with cursor := scope } with
  | .ok a t => .ok a { t with cursor := cursor }
  | .error e t => .error e { t with cursor := cursor }

def newFunction (f : Function) (home : Option Home) : Action FunctionId :=
  modifyGet fun t => (t.heap.functions.size,
    { t with
      heap := t.heap.addFunction f
      ledger.homes := t.ledger.homes.push home })

def newClass (name : String) (d : Declared) : Action ClassId :=
  modifyGet fun t => (t.heap.classes.size,
    { t with
      heap := t.heap.addClass ⟨name, d.superclass, Eval.methodTable d.methods d.closure⟩
      ledger.classes := t.ledger.classes.push d })

/-! ### Methods -/

/-- The instance that is called `this`. -/
def receiver (home : Option Home) (line : Nat) : Action Value :=
  match home with
  | some here => return .instance here.receiver
  | none => Eval.fail line (.undefinedVariable "this")

/-- A method of a class as a value, bound to an instance. -/
def boundMethod (c : ClassId) (f : Function) (i : InstanceId) : Action Value := do
  let f ← onMachine (Eval.bind f i)
  return .function (← newFunction f (some ⟨c, i⟩))

/-- The method that the class has or inherits, bound to an instance. -/
def inherited (c : ClassId) (i : InstanceId) (name : Token) : Action Value := do
  match (← get).ledger.nearest? c name.lexeme with
  | some (owner, f) => boundMethod owner f i
  | none => Eval.fail name.line (.undefinedProperty name.lexeme)

/-- A field of an instance, or else a method that its class has or inherits. -/
def getProperty (v : Value) (name : Token) : Action Value := do
  match v with
  | .instance i =>
    match (← get).heap.instances[i]? with
    | some o =>
      match o.fields.get? name.lexeme with
      | some field => return field
      | none => inherited o.ofClass i name
    | none => Eval.fail name.line (.undefinedProperty name.lexeme)
  | _ => Eval.fail name.line .propertyOfNonInstance

/-- What the superclass of the home's class has or inherits, bound to the home's instance. -/
def superMethod (home : Option Home) (keyword method : Token) : Action Value := do
  match home with
  | some here =>
    match (← get).ledger.superclass? here.ofClass with
    | some s => inherited s here.receiver method
    | none => Eval.fail keyword.line .superOutsideClass
  | none => Eval.fail keyword.line .superOutsideClass

/-! ### Calls -/

/-- Runs a function's body at its home. -/
def callFunction (exec : Option Home → Stmt → Action Completion) (f : Function)
    (home : Option Home) (arguments : List Value) : Action Value := do
  let scope ← onMachine
    (Eval.newScope (Eval.parameterBindings f.declaration.parameters arguments) f.closure)
  let completion ← within scope (Eval.statements (exec home) f.declaration.body)
  if f.isInitializer then
    receiver home f.declaration.name.line
  else
    match completion with
    | .normal => return .nil
    | .returned v => return v

def instantiate (exec : Option Home → Stmt → Action Completion) (c : ClassId)
    (arguments : List Value) : Action Value := do
  let i ← onMachine (Eval.newInstance c)
  match (← get).ledger.nearest? c initializerName with
  | some (owner, f) =>
    let f ← onMachine (Eval.bind f i)
    let _ ← callFunction exec f (some ⟨owner, i⟩) arguments
    return .instance i
  | none => return .instance i

def callValue (exec : Option Home → Stmt → Action Completion) (callee : Value)
    (arguments : List Value) (line : Nat) : Action Value := do
  match callee with
  | .native f =>
    Eval.checkArity f.arity arguments.length line
    onMachine (Eval.callNative f)
  | .function f =>
    let t ← get
    match t.heap.functions[f]?, t.ledger.homes[f]? with
    | some f, some home =>
      Eval.checkArity f.arity arguments.length line
      callFunction exec f home arguments
    | _, _ => Eval.fail line .notCallable
  | .class c =>
    Eval.checkArity ((← get).ledger.arity c) arguments.length line
    instantiate exec c arguments
  | _ => Eval.fail line .notCallable

/-- Makes a class in the scope that is executing. -/
def declareClass (name : Token) (superclass : Option ClassId) (methods : List FunctionDecl) :
    Action Unit := do
  let closure ← onMachine (Eval.methodClosure superclass)
  let c ← newClass name.lexeme ⟨methods, superclass, closure⟩
  onMachine (Eval.define name.lexeme (.class c))

/-! ### The rules -/

def exprRule (eval : Expr → Action Value) (exec : Option Home → Stmt → Action Completion)
    (home : Option Home) : Expr → Action Value
  | .literal value => return value.denotes
  | .grouping inner => eval inner
  | .unary operator operand => do Eval.unary operator (← eval operand)
  | .binary left operator right => do
    let v ← eval left
    Eval.binary v operator (← eval right)
  | .logical left operator right => do
    let v ← eval left
    if Eval.decides operator v then return v else eval right
  | .variable node name => onMachine (Eval.lookUp node name)
  | .assign node name value => do
    let v ← eval value
    onMachine (Eval.assign node name v)
    return v
  | .call callee closing arguments => do
    let f ← eval callee
    callValue exec f (← Eval.values eval arguments) closing.line
  | .get object name => do getProperty (← eval object) name
  | .set object name value => do
    match ← eval object with
    | .instance i =>
      let v ← eval value
      onMachine (Eval.modifyHeap (·.setField i name.lexeme v))
      return v
    | _ => Eval.fail name.line .fieldOfNonInstance
  | .this _ keyword => receiver home keyword.line
  | .super _ keyword method => superMethod home keyword method

def stmtRule (eval : Expr → Action Value) (exec : Stmt → Action Completion) (n : Nat)
    (home : Option Home) : Stmt → Action Completion
  | .expression e => do
    let _ ← eval e
    return .normal
  | .print e => do
    let v ← eval e
    onMachine (Eval.print ((← get).heap.text v))
    return .normal
  | .var name none => do
    onMachine (Eval.define name.lexeme .nil)
    return .normal
  | .var name (some e) => do
    let v ← eval e
    onMachine (Eval.define name.lexeme v)
    return .normal
  | .block body => do
    let scope ← onMachine (Eval.newScope [] (← get).cursor)
    within scope (Eval.statements exec body)
  | .if condition consequent alternative => do
    if (← eval condition).isTruthy then
      exec consequent
    else
      match alternative with
      | some s => exec s
      | none => return .normal
  | .while condition body => Eval.loop eval exec condition body n
  | .function f => do
    let id ← newFunction ⟨f, (← get).cursor, false⟩ home
    onMachine (Eval.define f.name.lexeme (.function id))
    return .normal
  | .return _ none => return .returned .nil
  | .return _ (some e) => return .returned (← eval e)
  | .class name none methods => do
    declareClass name none methods
    return .normal
  | .class name (some superclass) methods => do
    match ← eval superclass with
    | .class s =>
      declareClass name (some s) methods
      return .normal
    | _ => Eval.fail (Eval.superclassLine name superclass) .superclassNotClass

mutual

def expr : (fuel : Nat) → Option Home → Expr → Action Value
  | 0, _, _ => throw .outOfFuel
  | n + 1, home, e => exprRule (expr n home) (stmt n) home e

def stmt : (fuel : Nat) → Option Home → Stmt → Action Completion
  | 0, _, _ => throw .outOfFuel
  | n + 1, home, s => stmtRule (expr n home) (stmt n home) n home s

end

def program (fuel : Nat) : List Stmt → Action Unit
  | [] => return
  | s :: rest => do
    let _ ← stmt fuel none s
    program fuel rest

/-! ### Sessions -/

structure Recorded where
  session : Session
  ledger : Ledger

namespace Recorded

def initial (out : Sink) : Recorded := ⟨.initial out, .empty⟩

/-- Reads, resolves and runs a source, with the ledger of the earlier ones. -/
def run (s : Recorded) (clock : Nat → Float) (fuel : Nat) (source : String) : Outcome × Recorded :=
  match s.session.accept source with
  | (.ok statements, session) =>
    match program fuel statements ⟨session.distances, clock⟩ ⟨session.machine, s.ledger⟩ with
    | .ok () t => (.ok, ⟨{ session with machine := t.toMachine }, t.ledger⟩)
    | .error e t => (.ofResult (.error e), ⟨{ session with machine := t.toMachine }, t.ledger⟩)
  | (.error errors, session) => (.rejected errors, ⟨session, s.ledger⟩)

end Recorded

end Inheritance
end Treewalk
