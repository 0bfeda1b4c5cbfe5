import Treewalk.Proofs.Calling.Attended
import Treewalk.Proofs.Session.Reached
/-!
# Arguments in a session

While a session runs sources without static errors, the scope in which a function's body is run
binds the parameters, each to its own argument, and nothing else, and a class without an initializer
is only called without arguments. A call with another number of arguments fails before anything has
been made for it (`Reached.calls_complete`).
-/

namespace Treewalk

/-- How many arguments a call of the value takes. A class takes what its nearest initializer does,
or none if it has no initializer. -/
inductive Heap.Takes (h : Heap) : Value → Nat → Prop where
  | native (f : Native) : Takes h (.native f) f.arity
  | function {k : FunctionId} {f : Function} : h.functions[k]? = some f →
    Takes h (.function k) f.declaration.parameters.length
  | initializer {c : ClassId} {f : Function} : h.Nearest initializerName f c →
    Takes h (.class c) f.declaration.parameters.length
  | bare {c : ClassId} : (∀ f, ¬ h.Nearest initializerName f c) → Takes h (.class c) 0

namespace Eval

variable {σ : Setting} {m m₁ m₂ : Machine}

theorem classArity_of_nearest {h : Heap} {c : ClassId} {f : Function}
    (hf : h.Nearest initializerName f c) : h.classArity c = f.declaration.parameters.length := by
  simp only [Heap.classArity, Heap.nearest_iff.1 hf, Function.arity]

theorem classArity_of_bare {h : Heap} {c : ClassId}
    (hnone : ∀ f, ¬ h.Nearest initializerName f c) : h.classArity c = 0 := by
  unfold Heap.classArity
  split
  · next f hf => exact absurd (Heap.nearest_iff.2 hf) (hnone f)
  · rfl

/-- A call with another number of arguments fails and leaves the machine as it is. -/
theorem callValue_refused {exec : Stmt → Eval Completion} {v : Value} {k : Nat}
    (ht : m.heap.Takes v k) {arguments : List Value} (hne : k ≠ arguments.length) (line : Nat) :
    callValue exec v arguments line σ m =
      .error (.runtime ⟨line, .arity k arguments.length⟩) m := by
  unfold callValue
  cases ht with
  | native f =>
    dsimp only
    rw [checkArity_bind, if_neg hne]
  | @function i f hf =>
    dsimp only
    rw [heap_bind, hf]
    dsimp only
    rw [checkArity_bind, Function.arity, if_neg hne]
  | initializer hf =>
    dsimp only
    rw [heap_bind, classArity_of_nearest hf, checkArity_bind, if_neg hne]
  | bare hnone =>
    dsimp only
    rw [heap_bind, classArity_of_bare hnone, checkArity_bind, if_neg hne]

/-- So does the expression, on the machine on which its callee and its arguments have their
values. -/
theorem expr_call_refused {n : Nat} {callee : Expr} {closing : Token} {arguments : List Expr}
    {v : Value} {vs : List Value} {k : Nat} (hcallee : expr n callee σ m = .ok v m₁)
    (hvalues : values (expr n) arguments σ m₁ = .ok vs m₂) (ht : m₂.heap.Takes v k)
    (hne : k ≠ vs.length) : expr (n + 1) (.call callee closing arguments) σ m =
      .error (.runtime ⟨closing.line, .arity k vs.length⟩) m₂ := by
  rw [expr, exprRule, bind_ok hcallee, bind_ok hvalues]
  exact callValue_refused ht hne closing.line

end Eval

namespace Session

/-- Runs statements under an attendant. -/
def interpretAttended (w : Attendant) (s : Session) (clock : Nat → Float) (fuel : Nat)
    (statements : List Stmt) : Except Stop Unit × Session :=
  s.perform clock (Eval.programAttended w fuel statements)

/-- Runs a source under an attendant. -/
def runAttended (w : Attendant) (s : Session) (clock : Nat → Float) (fuel : Nat)
    (source : String) : Outcome × Session :=
  match s.accept source with
  | (.ok statements, s) =>
    let (result, s) := s.interpretAttended w clock fuel statements
    (.ofResult result, s)
  | (.error errors, s) => (.rejected errors, s)

variable {programs : List (List Stmt)} {s : Session}

theorem Sound.interpretAttended (h : s.Sound programs True) {w : Attendant}
    (hw : ∀ arrival m, arrival.Complete m → w arrival m = none) (clock : Nat → Float) (fuel : Nat)
    {p : List Stmt} (hp : p ∈ programs) :
    s.interpretAttended w clock fuel p = s.interpret clock fuel p := by
  rw [Session.interpretAttended, Session.interpret, perform_run, perform_run,
    Eval.program_attended (σ := ⟨s.distances, clock⟩) h.suits hw fuel hp h.heap h.cursor]

/-- While a session runs a source, whenever a call runs the body of a function, there are as many
arguments as parameters, no two parameters have one name, and the scope of the call binds each to
its own argument and nothing else, and whenever a class is called, it is with as many arguments as
its nearest initializer takes, or with none if it has none. A call with any other number of arguments
fails with the machine as it was when the last argument had its value, so nothing has been made for
it. -/
theorem Reached.calls_complete (h : s.Reached programs) (clock : Nat → Float) (fuel : Nat)
    (source : String) {w : Attendant} (hw : ∀ arrival m, arrival.Complete m → w arrival m = none) :
    s.runAttended w clock fuel source = s.run clock fuel source ∧
      ∀ n σ m callee closing arguments v m₁ vs m₂ k,
        Eval.expr n callee σ m = .ok v m₁ →
        Eval.values (Eval.expr n) arguments σ m₁ = .ok vs m₂ →
        m₂.heap.Takes v k → k ≠ vs.length →
        Eval.expr (n + 1) (.call callee closing arguments) σ m =
          .error (.runtime ⟨closing.line, .arity k vs.length⟩) m₂ := by
  refine ⟨?_, fun n σ m callee closing arguments v m₁ vs m₂ k => Eval.expr_call_refused⟩
  have hs := h.checked.accept source
  unfold accepted at hs
  unfold runAttended Session.run
  generalize s.accept source = a at hs ⊢
  obtain ⟨_ | p, s'⟩ := a
  · rfl
  dsimp only
  rw [hs.sound.interpretAttended hw clock fuel List.mem_cons_self]

/-- The machine behind `class A { init(x) {} }` and `class B < A {}`. -/
def inheriting : Machine :=
  let initializer : FunctionDecl :=
    ⟨⟨.identifier, "init", 1⟩, [⟨.identifier, "x", 1⟩], []⟩
  let a : Class := ⟨"A", none, [("init", ⟨initializer, Heap.globals, true⟩)]⟩
  let heap := (Heap.initial.addClass a).addClass ⟨"B", some 0, []⟩
  let heap := (heap.define Heap.globals "A" (.class 0)).define Heap.globals "B" (.class 1)
  { Machine.initial .unlimited with heap := heap }

open Classical in
/-- An attendant that stops wherever a call is not complete never stops the second of these sources.
An inherited initializer, which calls that of its superclass, is run there for a new instance and
again as a function, and a method is called that is bound to the instance. The call `D(3)` at the end
is refused, and so is `B()` on the machine above. -/
theorem Reached.calls_complete_inherited :
    let declared :=
      "class A \x7b init(x, y) \x7b this.x = x; \x7d get(z) \x7b return z; \x7d \x7d " ++
      "class B < A \x7b init(x) \x7b super.init(x, x); \x7d \x7d " ++
      "class C < B \x7b\x7d class D \x7b\x7d"
    let source := "var c = C(1); var init = c.init; init(2); print c.x; " ++
      "var get = c.get; print get(D()); D(3);"
    let s := ((Session.initial .unlimited).run (fun _ => 0) 9 declared).2
    let ended := s.run (fun _ => 0) 9 source
    let w : Attendant := fun arrival m => if arrival.Complete m then none else some .outOfFuel
    (s.runAttended w (fun _ => 0) 9 source = ended ∧
      Eval.expr 2 (.call (.variable 0 ⟨.identifier, "B", 3⟩) ⟨.mark .rightParen, ")", 3⟩ [])
          ⟨(∅ : Distances).insert 0 0, fun _ => 0⟩ inheriting =
        .error (.runtime ⟨3, .arity 1 0⟩) inheriting) ∧
      ended.1 = .failed (.runtime ⟨1, .arity 0 1⟩) ∧ ended.2.drain.1 = "2\nD instance\n" := by
  refine ⟨?_, by decide +kernel⟩
  refine And.imp id (fun refused => ?_) <| Reached.calls_complete
    (.run (fun _ => 0) 9 _ (.initial .unlimited)) (fun _ => 0) 9 _
    fun _ _ complete => if_pos complete
  have nearest : ∃ f, inheriting.heap.Nearest initializerName f 1 ∧
      f.declaration.parameters.length = 1 :=
    ⟨_, .inherited (fun k hk => by cases hk; rfl) rfl (.own rfl rfl), rfl⟩
  obtain ⟨f, hf, hl⟩ := nearest
  have takes := Heap.Takes.initializer hf
  rw [hl] at takes
  exact refused 1 _ _ _ _ _ _ _ [] _ _ rfl rfl takes nofun

end Session

end Treewalk
