import Treewalk.Heap.Scopes
import Treewalk.Tree.Basic
/-!
# The heap

What values refer to: the scopes, functions, classes and instances that a program has made. Nothing
is ever removed.
-/

namespace Treewalk

/-- A declaration together with the scope it was made in. -/
structure Function where
  declaration : FunctionDecl
  closure : ScopeId
  isInitializer : Bool

structure Class where
  name : String
  superclass : Option ClassId
  methods : Bindings Function

structure Instance where
  ofClass : ClassId
  fields : Bindings Value

structure Heap where
  scopes : Scopes
  functions : Array Function
  classes : Array Class
  instances : Array Instance

namespace Function

def name (f : Function) : String := f.declaration.name.lexeme

def arity (f : Function) : Nat := f.declaration.parameters.length

end Function

namespace Heap

/-- The scope of all global variables. -/
def globals : ScopeId := 0

/-- A heap with nothing but the global scope, which binds the native functions. -/
def initial : Heap :=
  let bindings := [(Native.clock.name, Value.native .clock)]
  ⟨Scopes.empty.add bindings none, #[], #[], #[]⟩

/-! ### Making objects

Each object's number is the number of objects of its sort before. -/

def addScope (h : Heap) (bindings : Bindings Value) (enclosing : ScopeId) : Heap :=
  { h with scopes := h.scopes.add bindings (some enclosing) }

def addFunction (h : Heap) (f : Function) : Heap :=
  { h with functions := h.functions.push f }

def addClass (h : Heap) (c : Class) : Heap :=
  { h with classes := h.classes.push c }

def addInstance (h : Heap) (c : ClassId) : Heap :=
  { h with instances := h.instances.push ⟨c, []⟩ }

def define (h : Heap) (i : ScopeId) (x : String) (v : Value) : Heap :=
  { h with scopes := h.scopes.define i x v }

def setField (h : Heap) (i : InstanceId) (x : String) (v : Value) : Heap :=
  { h with instances := h.instances.modify i fun o => { o with fields := o.fields.set x v } }

/-! ### Classes and instances -/

/-- The superclass of class `c`. It is always an earlier one. -/
def superclass? (h : Heap) (c : ClassId) : Option ClassId :=
  (h.classes[c]?.bind (·.superclass)).filter (· < c)

theorem superclass?_lt {h : Heap} {c s : ClassId} (hs : h.superclass? c = some s) : s < c := by
  simpa using (Option.filter_eq_some_iff.mp hs).2

/-- A method of the class or of the nearest superclass that has one of that name. -/
def findMethod? (h : Heap) (c : ClassId) (x : String) : Option Function :=
  match h.classes[c]?.bind (·.methods.get? x) with
  | some f => some f
  | none =>
    match _hs : h.superclass? c with
    | some s => findMethod? h s x
    | none => none
termination_by c
decreasing_by exact superclass?_lt _hs

theorem findMethod?_eq (h : Heap) (c : ClassId) (x : String) :
    h.findMethod? c x = (h.classes[c]?.bind (·.methods.get? x)).or
      ((h.superclass? c).bind (h.findMethod? · x)) := by
  rw [findMethod?]
  split
  · next f hf => rw [hf]; rfl
  · next hf =>
    rw [hf]
    split
    · next s hs => rw [hs]; rfl
    · next hs => rw [hs]; rfl

/-- A class takes as many arguments as its initializer. -/
def classArity (h : Heap) (c : ClassId) : Nat :=
  match h.findMethod? c initializerName with
  | some f => f.arity
  | none => 0

def className (h : Heap) (c : ClassId) : String :=
  match h.classes[c]? with
  | some c => c.name
  | none => ""

/-! ### Text -/

/-- A value as a program prints it. -/
def text (h : Heap) : Value → String
  | .nil => "nil"
  | .bool true => "true"
  | .bool false => "false"
  | .number x => Value.numberText x
  | .string s => s
  | .native _ => "<native fn>"
  | .function f =>
    match h.functions[f]? with
    | some f => "<fn " ++ f.name ++ ">"
    | none => "<fn >"
  | .class c => h.className c
  | .instance i =>
    match h.instances[i]? with
    | some o => h.className o.ofClass ++ " instance"
    | none => " instance"

end Heap

end Treewalk
