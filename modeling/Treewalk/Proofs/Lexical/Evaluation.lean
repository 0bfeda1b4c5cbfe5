import Treewalk.Session
/-!
# Lexical scoping without distances

An evaluator that knows nothing of distances or chains of scopes. It hands on a list of the local
names with the locations of their values, nearest first, which is never changed but only extended: by
a local declaration for the statements behind it, by a call for its parameters, by binding a method
for `this` and by a class for `super`. A function keeps the list as it is at its declaration, its own
name included. A name is read and written at the location next to it; one that is not in the list is
global.
-/

namespace Treewalk
namespace Lexical

abbrev Location := Nat

/-- Local names with the locations of their values, nearest first. -/
abbrev Env := List (String × Location)

/-- A declaration with the local names that it sees. -/
structure Closure where
  declaration : FunctionDecl
  env : Env
  isInitializer : Bool

structure Class where
  name : String
  superclass : Option ClassId
  methods : Bindings Closure

structure Store where
  /-- The values of local names. -/
  cells : Array Value
  globals : Bindings Value
  functions : Array Closure
  classes : Array Class
  instances : Array Instance
  out : Sink
  readings : Nat

structure Setting where
  clock : Nat → Float
  /-- Whether it is an error to assign to a local variable in the variable's own initializer. If not,
  the variable is not in the list there, and something further out is assigned to. -/
  strict : Bool

abbrev Action := ReaderT Setting (EStateM Stop Store)

/-- Where control is in the text. -/
structure Place where
  env : Env
  /-- Whether declarations are local. -/
  isLocal : Bool
  /-- The local variable whose initializer control is in. -/
  initializing : Option String

namespace Place

def outermost : Place := ⟨[], false, none⟩

/-- In the body of a block or function. -/
def body (env : Env) : Place := ⟨env, true, none⟩

/-- In the initializer of a variable. -/
def initializer (place : Place) (x : String) : Place :=
  if place.isLocal then { place with initializing := some x } else place

end Place

/-- How a statement finished. -/
inductive Finish where
  /-- Control is behind it, where its declarations are seen. -/
  | normal (place : Place)
  | returned (v : Value)

def Finish.leave (place : Place) : Finish → Finish
  | .normal _ => .normal place
  | .returned v => .returned v

/-! ### The store -/

namespace Store

def initial (out : Sink) : Store :=
  ⟨#[], [(Native.clock.name, .native .clock)], #[], #[], #[], out, 0⟩

def read? (s : Store) (env : Env) (x : String) : Option Value :=
  match env.lookup x with
  | some l => s.cells[l]?
  | none => s.globals.get? x

def write? (s : Store) (env : Env) (x : String) (v : Value) : Option Store :=
  match env.lookup x with
  | some l => some { s with cells := s.cells.setIfInBounds l v }
  | none =>
    if s.globals.contains x then some { s with globals := s.globals.set x v } else none

def setField (s : Store) (i : InstanceId) (x : String) (v : Value) : Store :=
  { s with instances := s.instances.modify i fun o => { o with fields := o.fields.set x v } }

/-- The superclass of class `c`. It is always an earlier one. -/
def superclass? (s : Store) (c : ClassId) : Option ClassId :=
  (s.classes[c]?.bind (·.superclass)).filter (· < c)

theorem superclass?_lt {s : Store} {c d : ClassId} (h : s.superclass? c = some d) : d < c := by
  simpa using (Option.filter_eq_some_iff.mp h).2

/-- A method of the class or of the nearest superclass that has one of that name. -/
def findMethod? (s : Store) (c : ClassId) (x : String) : Option Closure :=
  match s.classes[c]?.bind (·.methods.get? x) with
  | some f => some f
  | none =>
    match _h : s.superclass? c with
    | some d => findMethod? s d x
    | none => none
termination_by c
decreasing_by exact superclass?_lt _h

theorem findMethod?_eq (s : Store) (c : ClassId) (x : String) :
    s.findMethod? c x = (s.classes[c]?.bind (·.methods.get? x)).or
      ((s.superclass? c).bind (s.findMethod? · x)) := by
  rw [findMethod?]
  split
  · next f hf => rw [hf]; rfl
  · next hf =>
    rw [hf]
    split
    · next d hd => rw [hd]; rfl
    · next hd => rw [hd]; rfl

def classArity (s : Store) (c : ClassId) : Nat :=
  match s.findMethod? c initializerName with
  | some f => f.declaration.parameters.length
  | none => 0

def className (s : Store) (c : ClassId) : String :=
  match s.classes[c]? with
  | some c => c.name
  | none => ""

/-- A value as a program prints it. -/
def text (s : Store) : Value → String
  | .nil => "nil"
  | .bool true => "true"
  | .bool false => "false"
  | .number x => Value.numberText x
  | .string t => t
  | .native _ => "<native fn>"
  | .function f =>
    match s.functions[f]? with
    | some f => "<fn " ++ f.declaration.name.lexeme ++ ">"
    | none => "<fn >"
  | .class c => s.className c
  | .instance i =>
    match s.instances[i]? with
    | some o => s.className o.ofClass ++ " instance"
    | none => " instance"

end Store

/-! ### Primitives -/

/-- Puts values into new locations, of which it gives the first. -/
def newCells (vs : List Value) : Action Location :=
  modifyGet fun s => (s.cells.size, { s with cells := s.cells ++ vs.toArray })

def newFunction (f : Closure) : Action FunctionId :=
  modifyGet fun s => (s.functions.size, { s with functions := s.functions.push f })

def newClass (c : Class) : Action ClassId :=
  modifyGet fun s => (s.classes.size, { s with classes := s.classes.push c })

def newInstance (c : ClassId) : Action InstanceId :=
  modifyGet fun s => (s.instances.size, { s with instances := s.instances.push ⟨c, []⟩ })

/-- Declares a name, which is seen from there on. -/
def declare (place : Place) (x : String) (v : Value) : Action Place := do
  if place.isLocal then
    let l ← newCells [v]
    return { place with env := (x, l) :: place.env }
  else
    modify fun s => { s with globals := s.globals.set x v }
    return place

def lookUp (env : Env) (x : String) (line : Nat) : Action Value := do
  match (← get).read? env x with
  | some v => return v
  | none => Eval.fail line (.undefinedVariable x)

def assign (place : Place) (name : Token) (v : Value) : Action Unit := do
  if (← read).strict ∧ place.initializing = some name.lexeme then
    Eval.fail name.line (.undefinedVariable name.lexeme)
  match (← get).write? place.env name.lexeme v with
  | some s => set s
  | none => Eval.fail name.line (.undefinedVariable name.lexeme)

def print (text : String) : Action Unit := do
  let bytes := (text ++ "\n").toUTF8
  let refusal ← modifyGet fun s => (s.out.refusal? bytes, { s with out := s.out.write bytes })
  match refusal with
  | none => return
  | some reason => throw (.output reason)

/-! ### Functions and classes -/

/-- A method that sees the instance as `this`. -/
def bind (f : Closure) (i : InstanceId) : Action Closure := do
  let l ← newCells [.instance i]
  return { f with env := ("this", l) :: f.env }

def boundMethod (f : Closure) (i : InstanceId) : Action Value := do
  return .function (← newFunction (← bind f i))

/-- Parameters at consecutive locations. -/
def Env.bindAll : (first : Location) → List Token → Env → Env
  | _, [], env => env
  | l, p :: rest, env => bindAll (l + 1) rest ((p.lexeme, l) :: env)

/-- Statements in order, up to the first that returns. Each sees what those before it declare. -/
def statements (exec : Place → Stmt → Action Finish) : Place → List Stmt → Action Finish
  | place, [] => return .normal place
  | place, s :: rest => do
    match ← exec place s with
    | .normal place => statements exec place rest
    | .returned v => return .returned v

def callFunction (exec : Place → Stmt → Action Finish) (f : Closure) (arguments : List Value) :
    Action Value := do
  let l ← newCells arguments
  let finish ← statements exec (.body (Env.bindAll l f.declaration.parameters f.env))
    f.declaration.body
  if f.isInitializer then
    lookUp f.env "this" f.declaration.name.line
  else
    match finish with
    | .normal _ => return .nil
    | .returned v => return v

def instantiate (exec : Place → Stmt → Action Finish) (c : ClassId) (arguments : List Value) :
    Action Value := do
  let i ← newInstance c
  match (← get).findMethod? c initializerName with
  | some f =>
    let _ ← callFunction exec (← bind f i) arguments
    return .instance i
  | none => return .instance i

def callNative : Native → Action Value
  | .clock => do
    let reading ← modifyGet fun s => (s.readings, { s with readings := s.readings + 1 })
    return .number ((← read).clock reading)

def callValue (exec : Place → Stmt → Action Finish) (callee : Value) (arguments : List Value)
    (line : Nat) : Action Value := do
  match callee with
  | .native f =>
    Eval.checkArity f.arity arguments.length line
    callNative f
  | .function f =>
    match (← get).functions[f]? with
    | some f =>
      Eval.checkArity f.declaration.parameters.length arguments.length line
      callFunction exec f arguments
    | none => Eval.fail line .notCallable
  | .class c =>
    Eval.checkArity ((← get).classArity c) arguments.length line
    instantiate exec c arguments
  | _ => Eval.fail line .notCallable

def getProperty (v : Value) (name : Token) : Action Value := do
  match v with
  | .instance i =>
    let s ← get
    match s.instances[i]? with
    | some o =>
      match o.fields.get? name.lexeme with
      | some field => return field
      | none =>
        match s.findMethod? o.ofClass name.lexeme with
        | some f => boundMethod f i
        | none => Eval.fail name.line (.undefinedProperty name.lexeme)
    | none => Eval.fail name.line (.undefinedProperty name.lexeme)
  | _ => Eval.fail name.line .propertyOfNonInstance

/-- A method of what is seen as `super`, bound to what is seen as `this`. -/
def superMethod (env : Env) (keyword method : Token) : Action Value := do
  let s ← get
  match s.read? env keyword.lexeme, s.read? env "this" with
  | some (.class c), some (.instance i) =>
    match s.findMethod? c method.lexeme with
    | some f => boundMethod f i
    | none => Eval.fail method.line (.undefinedProperty method.lexeme)
  | _, _ => Eval.fail keyword.line .superOutsideClass

def methodTable (methods : List FunctionDecl) (env : Env) : Bindings Closure :=
  methods.foldl (fun b f => b.set f.name.lexeme ⟨f, env, f.isInitializer⟩) []

/-- The local names that the methods of a class see. -/
def methodEnv (superclass : Option ClassId) (env : Env) : Action Env := do
  match superclass with
  | some s =>
    let l ← newCells [.class s]
    return ("super", l) :: env
  | none => return env

/-- Declares a function, which sees its own name. -/
def declareFunction (place : Place) (f : FunctionDecl) : Action Place := do
  let place ← declare place f.name.lexeme (.function (← get).functions.size)
  let _ ← newFunction ⟨f, place.env, false⟩
  return place

/-- Declares a class, whose methods see its name. -/
def declareClass (place : Place) (name : Token) (superclass : Option ClassId)
    (methods : List FunctionDecl) : Action Place := do
  let place ← declare place name.lexeme (.class (← get).classes.size)
  let env ← methodEnv superclass place.env
  let _ ← newClass ⟨name.lexeme, superclass, methodTable methods env⟩
  return place

/-! ### The rules -/

def loop (eval : Expr → Action Value) (exec : Stmt → Action Finish) (place : Place)
    (condition : Expr) (body : Stmt) : (n : Nat) → Action Finish
  | 0 => throw .outOfFuel
  | n + 1 => do
    if (← eval condition).isTruthy then
      match ← exec body with
      | .normal _ => loop eval exec place condition body n
      | .returned v => return .returned v
    else
      return .normal place

def exprRule (eval : Expr → Action Value) (exec : Place → Stmt → Action Finish) (place : Place) :
    Expr → Action Value
  | .literal value => return value.denotes
  | .grouping inner => eval inner
  | .unary operator operand => do Eval.unary operator (← eval operand)
  | .binary left operator right => do
    let v ← eval left
    Eval.binary v operator (← eval right)
  | .logical left operator right => do
    let v ← eval left
    if Eval.decides operator v then return v else eval right
  | .variable _ name => lookUp place.env name.lexeme name.line
  | .assign _ name value => do
    let v ← eval value
    assign place name v
    return v
  | .call callee closing arguments => do
    let f ← eval callee
    callValue exec f (← Eval.values eval arguments) closing.line
  | .get object name => do getProperty (← eval object) name
  | .set object name value => do
    match ← eval object with
    | .instance i =>
      let v ← eval value
      modify (·.setField i name.lexeme v)
      return v
    | _ => Eval.fail name.line .fieldOfNonInstance
  | .this _ keyword => lookUp place.env keyword.lexeme keyword.line
  | .super _ keyword method => superMethod place.env keyword method

def stmtRule (eval : Place → Expr → Action Value) (exec : Place → Stmt → Action Finish) (n : Nat)
    (place : Place) : Stmt → Action Finish
  | .expression e => do
    let _ ← eval place e
    return .normal place
  | .print e => do
    let v ← eval place e
    print ((← get).text v)
    return .normal place
  | .var name none => do
    return .normal (← declare place name.lexeme .nil)
  | .var name (some e) => do
    let v ← eval (place.initializer name.lexeme) e
    return .normal (← declare place name.lexeme v)
  | .block body => do
    return (← statements exec (.body place.env) body).leave place
  | .if condition consequent alternative => do
    if (← eval place condition).isTruthy then
      exec place consequent
    else
      match alternative with
      | some s => exec place s
      | none => return .normal place
  | .while condition body => loop (eval place) (exec place) place condition body n
  | .function f => do
    return .normal (← declareFunction place f)
  | .return _ none => return .returned .nil
  | .return _ (some e) => return .returned (← eval place e)
  | .class name none methods => do
    return .normal (← declareClass place name none methods)
  | .class name (some superclass) methods => do
    match ← eval place superclass with
    | .class s => return .normal (← declareClass place name (some s) methods)
    | _ => Eval.fail (Eval.superclassLine name superclass) .superclassNotClass

mutual

def expr : (fuel : Nat) → Place → Expr → Action Value
  | 0, _, _ => throw .outOfFuel
  | n + 1, place, e => exprRule (expr n place) (stmt n) place e

def stmt : (fuel : Nat) → Place → Stmt → Action Finish
  | 0, _, _ => throw .outOfFuel
  | n + 1, place, s => stmtRule (expr n) (stmt n) n place s

end

def program (fuel : Nat) : List Stmt → Action Unit
  | [] => return
  | s :: rest => do
    let _ ← stmt fuel .outermost s
    program fuel rest

/-- Runs a program: how it ends, and what it has printed. -/
def run (setting : Setting) (fuel : Nat) (out : Sink) (statements : List Stmt) : Outcome × Sink :=
  match program fuel statements setting (.initial out) with
  | .ok () s => (.ok, s.out)
  | .error e s => (.ofResult (.error e), s.out)

end Lexical
end Treewalk
