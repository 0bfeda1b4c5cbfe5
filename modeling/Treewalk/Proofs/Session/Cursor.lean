import Treewalk.Proofs.Session.Reached
/-!
# The scope that is executing

Every expression and every statement leaves the cursor where it was, whatever machine it begins on and
however it ends, and so a session that is used in any way has its cursor at the global scope between
two uses (`Session.cursor_restored`).

The evaluator makes a class without moving the cursor. Moving it into the scope that binds `super`
while the methods are made, and back, comes to the same (`Eval.declareClassMoving_eq`).
-/

namespace Treewalk

/-! ### Making a class with the cursor moved -/

namespace Eval

/-- Assigns to a name where it is found from the scope that is executing outwards. -/
def assignHere (name : Token) (v : Value) : Eval Unit := do
  let m ← get
  let j ← lift name.line (m.heap.scopes.find m.cursor name.lexeme)
  modifyHeap (·.define j name.lexeme v)

/-- Makes a class in small steps: its name is bound to nil, the cursor is in the scope that methods
close over while they are made, and behind that the class is assigned to the name. -/
def declareClassMoving (name : Token) (superclass : Option ClassId) (methods : List FunctionDecl) :
    Eval Unit := do
  define name.lexeme .nil
  let scope ← methodClosure superclass
  let c ← within scope do
    newClass ⟨name.lexeme, superclass, methodTable methods (← get).cursor⟩
  assignHere name (.class c)

theorem define_define (h : Heap) (i : ScopeId) (x : String) (v w : Value) :
    (h.define i x v).define i x w = h.define i x w := by
  have hcells : (h.scopes.define i x v).define i x w = h.scopes.define i x w := by
    refine congrArg Scopes.mk (Array.ext_getElem? fun j => ?_)
    simp only [Scopes.define, Array.getElem?_modify]
    split
    · cases h.scopes.cells[j]? <;> simp [Bindings.set_set]
    · rfl
  rw [Heap.define, Heap.define, Heap.define, hcells]

/-- A name that is bound in the scope itself is found there. -/
theorem find_of_isSome {s : Scopes} {i : ScopeId} {x : String} (h : (s.lookup? i x).isSome) :
    s.find i x = .ok i := by
  rw [Scopes.find, Scopes.nearest?, if_pos h]

/-- In the scope that is executing an assignment takes the place of what the name was bound to. -/
theorem assignHere_define {m : Machine} (hc : m.cursor < m.heap.scopes.size) (σ : Setting)
    (name : Token) (v w : Value) :
    assignHere name w σ { m with heap := m.heap.define m.cursor name.lexeme v } =
      .ok () { m with heap := m.heap.define m.cursor name.lexeme w } := by
  have bound : ((m.heap.define m.cursor name.lexeme v).scopes.lookup? m.cursor
      name.lexeme).isSome := by
    rw [Heap.define, Scopes.lookup?_define_self hc]; rfl
  unfold assignHere
  rw [get_bind, bind_run, lift_run, find_of_isSome bound, ← define_define m.heap m.cursor
    name.lexeme v w]
  rfl

/-- It makes no difference to a class whether the cursor is moved while its methods are made. -/
theorem declareClassMoving_eq {m : Machine} (hc : m.cursor < m.heap.scopes.size) (σ : Setting)
    (name : Token) (superclass : Option ClassId) (methods : List FunctionDecl) :
    declareClassMoving name superclass methods σ m = declareClass name superclass methods σ m := by
  cases superclass with
  | none =>
    let made := m.heap.addClass ⟨name.lexeme, none, methodTable methods m.cursor⟩
    exact assignHere_define (m := { m with heap := made }) hc σ name .nil
      (.class m.heap.classes.size)
  | some s =>
    let opened := m.heap.addScope [("super", .class s)] m.cursor
    let made := opened.addClass
      ⟨name.lexeme, some s, methodTable methods m.heap.scopes.size⟩
    let bound := m.heap.define m.cursor name.lexeme .nil
    have hlt : m.cursor < opened.scopes.size := by
      show _ < (Scopes.add ..).size
      rw [Scopes.size_add]
      exact Nat.lt_succ_of_lt hc
    -- the name may as well be bound behind the making of the scope
    have swapped : bound.addScope [("super", .class s)] m.cursor =
        opened.define m.cursor name.lexeme .nil :=
      (Heap.addScope_define hc ..).symm
    have hsize : bound.scopes.size = m.heap.scopes.size := Scopes.size_define ..
    calc declareClassMoving name (some s) methods σ m
      _ = assignHere name (.class m.heap.classes.size) σ { m with
            heap := (bound.addScope [("super", .class s)] m.cursor).addClass
              ⟨name.lexeme, some s, methodTable methods bound.scopes.size⟩ } := rfl
      _ = assignHere name (.class m.heap.classes.size) σ { m with
            heap := made.define m.cursor name.lexeme .nil } := by rw [swapped, hsize]; rfl
      _ = .ok () { m with heap := made.define m.cursor name.lexeme (.class m.heap.classes.size) } :=
        assignHere_define (m := { m with heap := made }) hlt σ name .nil _
      _ = declareClass name (some s) methods σ m := rfl

/-- The cursor is back when a class has been made in this way, or could not be. -/
theorem cursor_declareClassMoving (name : Token) (superclass : Option ClassId)
    (methods : List FunctionDecl) (σ : Setting) (m : Machine) :
    (after (declareClassMoving name superclass methods) σ m).cursor = m.cursor := by
  have assigned (w : Value) (m : Machine) :
      (after (assignHere name w) σ m).cursor = m.cursor := by
    unfold after assignHere
    rw [get_bind, bind_run, lift_run]
    cases m.heap.scopes.find m.cursor name.lexeme <;> rfl
  cases superclass with
  | none => exact assigned ..
  | some s => exact assigned ..

end Eval

/-! ### Sessions -/

namespace Session

/-- What may be done with a session: binding references to distances, resolving statements, running
them, evaluating an expression, and running a source. -/
inductive Use where
  | note (references : List Reference)
  | resolve (p : List Stmt)
  | interpret (clock : Nat → Float) (fuel : Nat) (p : List Stmt)
  | evaluate (clock : Nat → Float) (fuel : Nat) (e : Expr)
  | run (clock : Nat → Float) (fuel : Nat) (source : String)

def use (s : Session) : Use → Session
  | .note references => { s with distances := s.distances.record references }
  | .resolve p => (s.resolve p).2
  | .interpret clock fuel p => (s.interpret clock fuel p).2
  | .evaluate clock fuel e => (s.perform clock (Eval.expr fuel e)).2
  | .run clock fuel source => (s.run clock fuel source).2

/-- Runs statements and puts the cursor to the global scope if they stop at an error. -/
def interpretResetting (s : Session) (clock : Nat → Float) (fuel : Nat) (p : List Stmt) :
    Except Stop Unit × Session :=
  match s.interpret clock fuel p with
  | (.ok (), s) => (.ok (), s)
  | (.error e, s) => (.error e, { s with machine := { s.machine with cursor := Heap.globals } })

/-- What comes back to its scope leaves the cursor of a session where it was. -/
theorem cursor_perform {α : Type} {x : Eval α} {S : Prop} (hx : Eval.Frames S x) (s : Session)
    (clock : Nat → Float) : (s.perform clock x).2.machine.cursor = s.machine.cursor := by
  have back := (hx.run ⟨s.distances, clock⟩ s.machine).1
  unfold Eval.after at back
  rw [perform_run]
  cases hr : x ⟨s.distances, clock⟩ s.machine <;> rw [hr] at back <;> exact back

theorem cursor_interpret (s : Session) (clock : Nat → Float) (fuel : Nat) (p : List Stmt) :
    (s.interpret clock fuel p).2.machine.cursor = s.machine.cursor :=
  cursor_perform (Eval.program_frames fuel p) s clock

theorem cursor_run (s : Session) (clock : Nat → Float) (fuel : Nat) (source : String) :
    (s.run clock fuel source).2.machine.cursor = s.machine.cursor := by
  have unread := machine_accept s source
  unfold run
  generalize s.accept source = a at unread
  obtain ⟨_ | p, s'⟩ := a
  · exact congrArg Machine.cursor unread
  · exact (cursor_interpret s' clock fuel p).trans (congrArg Machine.cursor unread)

theorem cursor_use (s : Session) (u : Use) : (s.use u).machine.cursor = s.machine.cursor := by
  cases u with
  | note references => rfl
  | resolve p => rfl
  | interpret clock fuel p => exact cursor_interpret s clock fuel p
  | evaluate clock fuel e => exact cursor_perform (Eval.expr_frames fuel e True) s clock
  | run clock fuel source => exact cursor_run s clock fuel source

theorem cursor_uses (uses : List Use) (s : Session) :
    (uses.foldl use s).machine.cursor = s.machine.cursor := by
  induction uses generalizing s with
  | nil => rfl
  | cons u rest ih => exact (ih (s.use u)).trans (cursor_use s u)

/-- Where the cursor is at the global scope before a run, there is nothing to be put back. -/
theorem interpretResetting_eq {s : Session} (h : s.machine.cursor = Heap.globals)
    (clock : Nat → Float) (fuel : Nat) (p : List Stmt) :
    s.interpretResetting clock fuel p = s.interpret clock fuel p := by
  have back := (cursor_interpret s clock fuel p).trans h
  unfold interpretResetting
  rcases hr : s.interpret clock fuel p with ⟨_ | _, s'⟩
  · rw [hr] at back
    rw [← back]
  · rfl

/-- The cursor is restored on every path. Whatever machine an expression or a statement begins on,
resolved or not, and however it ends, the cursor is where it was, also when a class is made with the
cursor moved. So after any uses of a new session, however each of them ended, the cursor is at the
global scope, and that it is put there behind a failing run changes nothing. -/
theorem cursor_restored (out : Sink) :
    (∀ n e σ m, (Eval.after (Eval.expr n e) σ m).cursor = m.cursor) ∧
    (∀ n st σ m, (Eval.after (Eval.stmt n st) σ m).cursor = m.cursor) ∧
    (∀ name superclass methods σ m,
      (Eval.after (Eval.declareClassMoving name superclass methods) σ m).cursor = m.cursor) ∧
    ∀ uses : List Use,
      (uses.foldl use (.initial out)).machine.cursor = Heap.globals ∧
      ∀ clock fuel p, (uses.foldl use (.initial out)).interpretResetting clock fuel p =
        (uses.foldl use (.initial out)).interpret clock fuel p := by
  refine ⟨fun n e σ m => ?_, fun n st σ m => ?_, Eval.cursor_declareClassMoving, fun uses => ?_⟩
  · exact ((Eval.expr_frames n e True).run σ m).1
  · exact ((Eval.stmt_frames n st).run σ m).1
  · have back : (uses.foldl use (.initial out)).machine.cursor = Heap.globals :=
      cursor_uses uses (.initial out)
    exact ⟨back, interpretResetting_eq back⟩

end Session

end Treewalk
