import Treewalk.Bindings
import Treewalk.Diagnostic
import Treewalk.Value
/-!
# Scopes

A scope binds names and may be enclosed by an earlier one. A name is looked up either along the
whole chain of enclosing scopes or in the one scope that is a given number of links up.
-/

namespace Treewalk

structure Scope where
  bindings : Bindings Value
  enclosing : Option ScopeId

/-- All scopes that were ever opened, numbered in the order of their creation. -/
structure Scopes where
  cells : Array Scope

namespace Scopes

def empty : Scopes := ⟨#[]⟩

/-- The number of the next scope. -/
def size (s : Scopes) : Nat := s.cells.size

/-- Opens a scope, whose number is the size before. -/
def add (s : Scopes) (bindings : Bindings Value) (enclosing : Option ScopeId) : Scopes :=
  ⟨s.cells.push ⟨bindings, enclosing⟩⟩

def lookup? (s : Scopes) (i : ScopeId) (x : String) : Option Value :=
  s.cells[i]?.bind (·.bindings.get? x)

/-- Binds `x` in scope `i`, whether or not it was bound there. -/
def define (s : Scopes) (i : ScopeId) (x : String) (v : Value) : Scopes :=
  ⟨s.cells.modify i fun scope => { scope with bindings := scope.bindings.set x v }⟩

/-- The scope that encloses scope `i`. It is always an earlier one. -/
def parent? (s : Scopes) (i : ScopeId) : Option ScopeId :=
  (s.cells[i]?.bind (·.enclosing)).filter (· < i)

theorem parent?_lt {s : Scopes} {i p : ScopeId} (h : s.parent? i = some p) : p < i := by
  simpa using (Option.filter_eq_some_iff.mp h).2

/-! ### What defining changes -/

@[simp] theorem size_define (s : Scopes) (i : ScopeId) (x : String) (v : Value) :
    (s.define i x v).size = s.size := by
  simp [define, size]

/-- Defining a name changes no link. -/
@[simp] theorem parent?_define (s : Scopes) (i j : ScopeId) (x : String) (v : Value) :
    (s.define i x v).parent? j = s.parent? j := by
  simp only [parent?, define, Array.getElem?_modify]
  split
  · cases s.cells[j]? <;> rfl
  · rfl

theorem lookup?_define_self {s : Scopes} {i : ScopeId} (h : i < s.size) (x : String) (v : Value) :
    (s.define i x v).lookup? i x = some v := by
  have hc : s.cells[i]? = some s.cells[i] := Array.getElem?_eq_getElem h
  simp [lookup?, define, Array.getElem?_modify, hc, Bindings.get?_set]

theorem lookup?_define_of_ne {s : Scopes} {i j : ScopeId} {x y : String} (h : i ≠ j ∨ x ≠ y)
    (v : Value) : (s.define i x v).lookup? j y = s.lookup? j y := by
  simp only [lookup?, define, Array.getElem?_modify]
  split
  next hij =>
    subst hij
    have hxy : x ≠ y := h.resolve_left (by simp)
    cases s.cells[i]? <;> simp [Bindings.get?_set, hxy]
  next => rfl

/-! ### Along the chain -/

/-- The nearest scope that binds `x`, from `i` outwards. -/
def nearest? (s : Scopes) (i : ScopeId) (x : String) : Option ScopeId :=
  if (s.lookup? i x).isSome then some i
  else
    match _h : s.parent? i with
    | some p => nearest? s p x
    | none => none
termination_by i
decreasing_by exact parent?_lt _h

/-- The scope in which `x` is found from `i` outwards. -/
def find (s : Scopes) (i : ScopeId) (x : String) : Except RuntimeFault ScopeId :=
  match s.nearest? i x with
  | some j => .ok j
  | none => .error (.undefinedVariable x)

/-! ### At a distance -/

/-- The scope that many links up, if the chain is that long. -/
def up? (s : Scopes) : (distance : Nat) → ScopeId → Option ScopeId
  | 0, i => some i
  | distance + 1, i => (s.parent? i).bind (up? s distance)

/-- The scope that many links up; its absence is reported for the name that is looked for. -/
def ancestor (s : Scopes) (i : ScopeId) (distance : Nat) (x : String) :
    Except RuntimeFault ScopeId :=
  match s.up? distance i with
  | some j => .ok j
  | none => .error (.noScope distance x)

/-- The scope that many links up, which has to bind `x` itself. -/
def findAt (s : Scopes) (i : ScopeId) (distance : Nat) (x : String) :
    Except RuntimeFault ScopeId := do
  let j ← s.ancestor i distance x
  if (s.lookup? j x).isSome then .ok j else .error (.undefinedVariable x)

/-! ### Reading and writing -/

/-- What `x` is bound to in scope `j`. -/
def read (s : Scopes) (j : ScopeId) (x : String) : Except RuntimeFault Value :=
  match s.lookup? j x with
  | some v => .ok v
  | none => .error (.undefinedVariable x)

def get (s : Scopes) (i : ScopeId) (x : String) : Except RuntimeFault Value := do
  s.read (← s.find i x) x

def assign (s : Scopes) (i : ScopeId) (x : String) (v : Value) : Except RuntimeFault Scopes :=
  return s.define (← s.find i x) x v

def getAt (s : Scopes) (i : ScopeId) (distance : Nat) (x : String) :
    Except RuntimeFault Value := do
  s.read (← s.ancestor i distance x) x

def assignAt (s : Scopes) (i : ScopeId) (distance : Nat) (x : String) (v : Value) :
    Except RuntimeFault Scopes :=
  return s.define (← s.findAt i distance x) x v

end Scopes

end Treewalk
