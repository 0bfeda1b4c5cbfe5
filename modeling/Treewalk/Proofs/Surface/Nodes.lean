import Treewalk.Proofs.Surface.Calls
/-!
# A `for` and its lowering

What trees with `for` do on a store, the lowered trees do on the lowered store, unless one of the two
runs out of fuel (`nodes_lower`). The lowering of a `for` is up to two blocks around a `while` and
around its body, so that it nests deeper: four units of fuel for each one suffice.
-/

namespace Treewalk
namespace Surface

open Lexical (Location Env Place Finish)

variable {early late : Prop}

/-! ### Expressions -/

/-- Of a place only its names and the initializer around it matter to an expression. -/
def ExprLowers (early late : Prop) (eval : Place → Expr → Action Value)
    (eval' : Place → Expr → Lexical.Action Value) : Prop :=
  ∀ {p q : Place} (e : Expr), p.env = q.env → p.initializing = q.initializing →
    Lowers early late Eq (eval p e) (eval' q e)

theorem unary_lowers (operator : Token) (v : Value) :
    Lowers early late Eq (Eval.unary operator v : Action Value) (Eval.unary operator v) := by
  obtain ⟨r, hr, -⟩ := Eval.unary_plainly operator v
  rw [hr, hr]
  exact lowers_plainly

theorem binary_lowers (v : Value) (operator : Token) (w : Value) :
    Lowers early late Eq (Eval.binary v operator w : Action Value) (Eval.binary v operator w) := by
  obtain ⟨r, hr, -⟩ := Eval.binary_plainly v operator w
  rw [hr, hr]
  exact lowers_plainly

theorem values_lower {eval : Expr → Action Value} {eval' : Expr → Lexical.Action Value}
    (he : ∀ e, Lowers early late Eq (eval e) (eval' e)) (es : List Expr) :
    Lowers early late Eq (Eval.values eval es) (Eval.values eval' es) := by
  induction es with
  | nil => exact lowers_pure rfl
  | cons e rest ih =>
    refine lowers_bind (he e) ?_
    rintro v _ rfl
    refine lowers_bind ih ?_
    rintro vs _ rfl
    exact lowers_pure rfl

theorem exprRule_lowers {eval : Expr → Action Value} {eval' : Expr → Lexical.Action Value}
    {run : Env → List Declaration → Action Completion}
    {exec : Place → Treewalk.Stmt → Lexical.Action Finish}
    (he : ∀ e, Lowers early late Eq (eval e) (eval' e)) (hrun : BodyLowers early late run exec)
    {p q : Place} (henv : p.env = q.env) (hinitializing : p.initializing = q.initializing)
    (e : Expr) : Lowers early late Eq (exprRule eval run p e) (Lexical.exprRule eval' exec q e) := by
  cases e with
  | literal value => exact lowers_pure rfl
  | grouping inner => exact he inner
  | unary operator operand =>
    refine lowers_bind (he operand) ?_
    rintro v _ rfl
    exact unary_lowers ..
  | binary left operator right =>
    refine lowers_bind (he left) ?_
    rintro v _ rfl
    refine lowers_bind (he right) ?_
    rintro w _ rfl
    exact binary_lowers ..
  | logical left operator right =>
    refine lowers_bind (he left) ?_
    rintro v _ rfl
    split
    · exact lowers_pure rfl
    · exact he right
  | «variable» node name =>
    show Lowers early late Eq (lookUp p.env name.lexeme name.line)
      (Lexical.lookUp q.env name.lexeme name.line)
    rw [henv]
    exact lowers_lookUp ..
  | assign node name value =>
    refine lowers_bind (he value) ?_
    rintro v _ rfl
    exact lowers_bind (lowers_assign henv hinitializing name v) fun _ _ _ => lowers_pure rfl
  | call callee closing arguments =>
    refine lowers_bind (he callee) ?_
    rintro f _ rfl
    refine lowers_bind (values_lower he arguments) ?_
    rintro vs _ rfl
    exact callValue_lowers hrun ..
  | get object name =>
    refine lowers_bind (he object) ?_
    rintro v _ rfl
    exact getProperty_lowers ..
  | set object name value =>
    refine lowers_bind (he object) ?_
    rintro v _ rfl
    cases v with
    | «instance» i =>
      refine lowers_bind (he value) ?_
      rintro w _ rfl
      exact lowers_bind (lowers_modify fun _ => rfl) fun _ _ _ => lowers_pure rfl
    | _ => exact lowers_throw _
  | this node keyword =>
    show Lowers early late Eq (lookUp p.env keyword.lexeme keyword.line)
      (Lexical.lookUp q.env keyword.lexeme keyword.line)
    rw [henv]
    exact lowers_lookUp ..
  | super node keyword method =>
    show Lowers early late Eq (superMethod p.env keyword method)
      (Lexical.superMethod q.env keyword method)
    rw [henv]
    exact superMethod_lowers ..

/-! ### Declarations -/

/-- A statement finishes where it was. -/
inductive FinishesAt (place : Place) : Completion → Finish → Prop where
  | normal : FinishesAt place .normal (.normal place)
  | returned (v : Value) : FinishesAt place (.returned v) (.returned v)

theorem FinishesAt.finishes {place : Place} {c : Completion} {f : Finish}
    (h : FinishesAt place c f) : Finishes c f := by
  cases h with
  | normal => exact .normal place
  | returned v => exact .returned v

theorem Finishes.leave {c : Completion} {f : Finish} (h : Finishes c f) (place : Place) :
    FinishesAt place c (f.leave place) := by
  cases h with
  | normal => exact .normal
  | returned v => exact .returned v

/-- A declaration leaves control outside of initializers. -/
inductive Settles : Finish → Finish → Prop where
  | normal {place : Place} : place.initializing = none → Settles (.normal place) (.normal place)
  | returned (v : Value) : Settles (.returned v) (.returned v)

def StmtLowers (early late : Prop) (exec : Env → Stmt → Action Completion)
    (exec' : Place → Treewalk.Stmt → Lexical.Action Finish) : Prop :=
  ∀ {q : Place} (s : Stmt), q.initializing = none →
    Lowers early late (FinishesAt q) (exec q.env s) (exec' q s.lowered)

def DeclarationLowers (early late : Prop) (rule : Place → Declaration → Action Finish)
    (exec' : Place → Treewalk.Stmt → Lexical.Action Finish) : Prop :=
  ∀ {p : Place} (d : Declaration), p.initializing = none →
    Lowers early late Settles (rule p d) (exec' p d.lowered)

section Rules

variable {eval : Place → Expr → Action Value} {exec : Env → Stmt → Action Completion}
  {eval' : Place → Expr → Lexical.Action Value}
  {exec' : Place → Treewalk.Stmt → Lexical.Action Finish}

theorem declarations_lower (hd : DeclarationLowers early late (declarationRule eval exec) exec')
    (body : List Declaration) {p : Place} (hp : p.initializing = none) :
    Lowers early late Finishes (declarations eval exec p body)
      (Lexical.statements exec' p (Declaration.loweredAll body)) := by
  induction body generalizing p with
  | nil => exact lowers_pure (.normal p)
  | cons d rest ih =>
    refine lowers_bind (hd d hp) fun f f' hf => ?_
    cases hf with
    | normal hp' => exact ih hp'
    | returned v => exact lowers_pure (.returned v)

theorem declareVariable_lowers (he : ExprLowers early late eval eval') {p : Place}
    (hp : p.initializing = none) (name : Token) (value : Option Expr) (n : Nat) :
    Lowers early late (fun p f => f = .normal p ∧ p.initializing = none)
      (declareVariable eval p name value)
      (Lexical.stmtRule eval' exec' n p (.var name value)) := by
  cases value with
  | none => exact lowers_map (lowers_declare hp ..) fun p p' h => ⟨by rw [h.1], h.2⟩
  | some e =>
    refine lowers_bind (he e rfl rfl) ?_
    rintro v _ rfl
    exact lowers_map (lowers_declare hp ..) fun p p' h => ⟨by rw [h.1], h.2⟩

/-- Declarations lower if statements do. -/
theorem declarationRule_lowers {n : Nat} (he : ExprLowers early late eval eval')
    (hs : StmtLowers early late exec (Lexical.stmtRule eval' exec' n)) :
    DeclarationLowers early late (declarationRule eval exec) (Lexical.stmtRule eval' exec' n) := by
  intro p d hp
  match d with
  | .statement s =>
    refine lowers_bind_left (hs s hp) fun c f hf => ?_
    cases hf with
    | normal => exact lowers_pure (.normal hp)
    | returned v => exact lowers_pure (.returned v)
  | .variable name value =>
    refine lowers_bind_left (declareVariable_lowers he hp name value n) ?_
    rintro p' _ ⟨rfl, hp'⟩
    exact lowers_pure (.normal hp')
  | .function f =>
    refine lowers_bind (declareFunction_lowers hp f) ?_
    rintro p' _ ⟨rfl, hp'⟩
    exact lowers_pure (.normal hp')
  | .class name none methods =>
    refine lowers_bind (declareClass_lowers hp name none methods) ?_
    rintro p' _ ⟨rfl, hp'⟩
    exact lowers_pure (.normal hp')
  | .class name (some superclass) methods =>
    refine lowers_bind (he superclass rfl rfl) ?_
    rintro v _ rfl
    cases v with
    | «class» c =>
      refine lowers_bind (declareClass_lowers hp name _ methods) ?_
      rintro p' _ ⟨rfl, hp'⟩
      exact lowers_pure (.normal hp')
    | _ => exact lowers_throw _

/-! ### Loops -/

theorem loop_lowers {condition : Action Bool} {body : Action Completion} {c : Expr}
    {b : Treewalk.Stmt} {q : Place} (hc : Lowers early late (fun t v => t = v.isTruthy) condition
      (eval' q c))
    (hb : Lowers early late Finishes body (exec' q b)) {n m : Nat} (hlate : ¬ late → n ≤ m)
    (hearly : ¬ early → m ≤ n) :
    Lowers early late (FinishesAt q) (loop condition body n)
      (Lexical.loop (eval' q) (exec' q) q c b m) := by
  induction n generalizing m with
  | zero =>
    by_cases h : early
    · exact lowers_early h _
    · obtain rfl : m = 0 := Nat.le_zero.1 (hearly h)
      exact lowers_throw _
  | succ n ih =>
    cases m with
    | zero =>
      by_cases h : late
      · exact lowers_late h _
      · exact absurd (hlate h) (Nat.not_succ_le_zero n)
    | succ m =>
      refine lowers_bind hc ?_
      rintro _ v rfl
      split
      · refine lowers_bind hb fun f f' hf => ?_
        cases hf with
        | normal =>
          exact ih (fun h => Nat.le_of_succ_le_succ (hlate h))
            fun h => Nat.le_of_succ_le_succ (hearly h)
        | returned v => exact lowers_pure (.returned v)
      · exact lowers_pure .normal

/-- A block of two statements. -/
theorem block_pair (n : Nat) (q : Place) (a b : Treewalk.Stmt) :
    Lexical.stmtRule eval' exec' n q (.block [a, b]) = (do
      match ← exec' (.body q.env) a with
      | .normal p => return (← exec' p b).leave q
      | .returned v => return .returned v) := by
  simp only [Lexical.stmtRule, Lexical.statements, bind_assoc]
  congr 1
  funext f
  cases f with
  | normal p =>
    simp only [bind_assoc]
    congr 1
    funext f
    cases f <;> simp [Finish.leave]
  | returned v => simp [Finish.leave]

end Rules

/-! ### Fuel -/

/-- A lowered tree nests up to four times as deep. Unless it may run out of fuel first, it has four
times as much as the tree itself and some to spare; unless the tree itself may, it has no more. -/
def Suffices (early late : Prop) (spare n m : Nat) : Prop :=
  (¬ late → 4 * n + spare ≤ m) ∧ (¬ early → m ≤ n)

namespace Suffices

variable {k n m : Nat}

theorem inside (h : Suffices early late 0 (n + 1) (m + 1)) : Suffices early late 3 n m :=
  ⟨fun hl => by have := h.1 hl; omega, fun he => Nat.le_of_succ_le_succ (h.2 he)⟩

theorem spend (h : Suffices early late (k + 1) n (m + 1)) : Suffices early late k n m :=
  ⟨fun hl => Nat.le_of_succ_le_succ (h.1 hl), fun he => Nat.le_of_succ_le (h.2 he)⟩

theorem mono {k' : Nat} (h : Suffices early late k n m) (hk : k' ≤ k) :
    Suffices early late k' n m :=
  ⟨fun hl => (Nat.add_le_add_left hk _).trans (h.1 hl), h.2⟩

theorem late_of_zero (h : Suffices early late (k + 1) n 0) : late :=
  by_contra fun hl => Nat.not_succ_le_zero _ (h.1 hl)

end Suffices

/-- With `n` units of fuel `eval` and `exec` do what lowered trees do with fuel that suffices. -/
def LowersAt (early late : Prop) (n : Nat) (eval : Place → Expr → Action Value)
    (exec : Env → Stmt → Action Completion) : Prop :=
  ∀ {m : Nat}, Suffices early late 0 n m →
    ExprLowers early late eval (Lexical.expr m) ∧ StmtLowers early late exec (Lexical.stmt m)

section Nodes

variable {n m : Nat} {eval : Place → Expr → Action Value} {exec : Env → Stmt → Action Completion}
  (h : LowersAt early late n eval exec)

include h

theorem declaration_lowers (hm : Suffices early late 1 n m) :
    DeclarationLowers early late (declarationRule eval exec) (Lexical.stmt m) := by
  cases m with
  | zero => exact fun _ _ => lowers_late hm.late_of_zero _
  | succ m => exact declarationRule_lowers (h hm.spend).1 (h (hm.mono (Nat.zero_le _))).2

theorem body_lowers (hm : Suffices early late 1 n m) :
    BodyLowers early late (fun env => declarations eval exec (.body env)) (Lexical.stmt m) :=
  fun _ body => declarations_lower (declaration_lowers h hm) body rfl

theorem test_lowers {p q : Place} (henv : p.env = q.env)
    (hinitializing : p.initializing = q.initializing) (condition : Option Expr)
    (hm : Suffices early late 1 n m) :
    Lowers early late (fun t v => t = v.isTruthy) (test eval p condition)
      (Lexical.expr m q (condition.getD (.literal (.bool true)))) := by
  cases condition with
  | some c =>
    refine lowers_bind_left ((h (hm.mono (Nat.zero_le _))).1 c henv hinitializing) ?_
    rintro v _ rfl
    exact lowers_pure rfl
  | none =>
    cases m with
    | zero => exact lowers_late hm.late_of_zero _
    | succ m => exact lowers_pure rfl

/-- The increment runs in a block behind the body. -/
theorem iteration_lowers {p q : Place} (henv : p.env = q.env) (hp : p.initializing = none)
    (hq : q.initializing = none) (body : Stmt) (increment : Option Expr)
    (hm : Suffices early late 2 n m) :
    Lowers early late Finishes (iteration eval exec p body increment)
      (Lexical.stmt m q (match increment with
        | some e => .block [body.lowered, .expression e]
        | none => body.lowered)) := by
  unfold iteration
  rw [henv]
  cases increment with
  | none =>
    refine lowers_bind_left ((h (hm.mono (Nat.zero_le _))).2 body hq) fun c f hf => ?_
    cases hf with
    | normal => exact lowers_pure (.normal q)
    | returned v => exact lowers_pure (.returned v)
  | some e =>
    cases m with
    | zero => exact lowers_late hm.late_of_zero _
    | succ m =>
      show Lowers early late Finishes _
        (Lexical.stmtRule (Lexical.expr m) (Lexical.stmt m) m q (.block [body.lowered, .expression e]))
      rw [block_pair]
      refine lowers_bind ((h (hm.spend.mono (Nat.zero_le _))).2 (q := .body q.env) body rfl)
        fun c f hf => ?_
      cases hf with
      | returned v => exact lowers_pure (.returned v)
      | normal =>
        cases m with
        | zero => exact lowers_late hm.spend.late_of_zero _
        | succ m =>
          have he := (h (hm.spend.spend)).1 e (p := p) (q := .body q.env) henv hp
          show Lowers early late Finishes _
            ((Lexical.expr m (.body q.env) e >>= fun _ => pure (Finish.normal (.body q.env))) >>=
              fun f => pure (f.leave q))
          rw [bind_assoc]
          exact lowers_bind he fun _ _ _ => lowers_pure (.normal q)

/-- A loop with what surrounds it already in place. -/
theorem while_lowers {p q : Place} (henv : p.env = q.env) (hp : p.initializing = none)
    (hq : q.initializing = none) (condition increment : Option Expr) (body : Stmt)
    (hm : Suffices early late 2 n m) :
    Lowers early late (FinishesAt q)
      (loop (test eval p condition) (iteration eval exec p body increment) n)
      (Lexical.stmtRule (Lexical.expr m) (Lexical.stmt m) m q
        (Rule.desugarFor none condition increment body.lowered)) :=
  loop_lowers (test_lowers h henv (hp.trans hq.symm) condition (hm.mono (by decide)))
    (iteration_lowers h henv hp hq body increment hm) (fun hl => by have := hm.1 hl; omega) hm.2

/-- What the `for` begins with runs in a block in front of the loop. -/
theorem for_lowers {q : Place} (hq : q.initializing = none) (initial : Option Initial)
    (condition increment : Option Expr) (body : Stmt) (hm : Suffices early late 3 n m) :
    Lowers early late (FinishesAt q)
      (stmtRule eval exec n q.env (.for initial condition increment body))
      (Lexical.stmtRule (Lexical.expr m) (Lexical.stmt m) m q
        (Stmt.for initial condition increment body).lowered) := by
  cases initial with
  | none =>
    exact while_lowers h (p := .body q.env) (q := q) rfl rfl hq condition increment body
      (hm.mono (by decide))
  | some initial =>
    show Lowers early late _ (initialRule eval (.body q.env) (some initial) >>= fun inside =>
        loop (test eval inside condition) (iteration eval exec inside body increment) n)
      (Lexical.stmtRule (Lexical.expr m) (Lexical.stmt m) m q
        (.block [initial.lowered, Rule.desugarFor none condition increment body.lowered]))
    rw [block_pair]
    cases m with
    | zero => exact lowers_late hm.late_of_zero _
    | succ m =>
      have hinitial : Lowers early late (fun p f => f = .normal p ∧ p.initializing = none)
          (initialRule eval (.body q.env) (some initial))
          (Lexical.stmt (m + 1) (.body q.env) initial.lowered) := by
        obtain ⟨he, -⟩ := h (hm.spend.mono (Nat.zero_le 2))
        cases initial with
        | «variable» name value => exact declareVariable_lowers he rfl name value m
        | expression e => exact lowers_bind (he e rfl rfl) fun _ _ _ => lowers_pure ⟨rfl, rfl⟩
      refine lowers_bind hinitial ?_
      rintro p _ ⟨rfl, hp⟩
      exact lowers_map (while_lowers h rfl hp hp condition increment body hm.spend)
        fun _ _ hf => hf.finishes.leave q

theorem stmtRule_lowers (hm : Suffices early late 3 n m) :
    StmtLowers early late (stmtRule eval exec n)
      (Lexical.stmtRule (Lexical.expr m) (Lexical.stmt m) m) := by
  have hm₀ := hm.mono (Nat.zero_le 3)
  obtain ⟨he, hs⟩ := h hm₀
  intro q s hq
  have here (e : Expr) := he e (p := .body q.env) (q := q) rfl hq.symm
  match s with
  | .expression e => exact lowers_bind (here e) fun _ _ _ => lowers_pure .normal
  | .print e =>
    refine lowers_bind (here e) ?_
    rintro v _ rfl
    refine lowers_get_bind fun s => ?_
    rw [Store.text_lowered]
    exact lowers_bind (lowers_print _) fun _ _ _ => lowers_pure .normal
  | .block body =>
    exact lowers_map (body_lowers h (hm.mono (by decide)) q.env body) fun _ _ hf => hf.leave q
  | .if condition consequent none =>
    refine lowers_bind (here condition) ?_
    rintro v _ rfl
    split
    · exact hs consequent hq
    · exact lowers_pure .normal
  | .if condition consequent (some alternative) =>
    refine lowers_bind (here condition) ?_
    rintro v _ rfl
    split
    · exact hs consequent hq
    · exact hs alternative hq
  | .while condition body =>
    have hcondition := test_lowers h (p := .body q.env) (q := q) rfl hq.symm (some condition)
      (hm.mono (by decide))
    have hbody := (hs body hq).mono fun _ _ hf => hf.finishes
    exact loop_lowers hcondition hbody (fun hl => by have := hm.1 hl; omega) hm.2
  | .for initial condition increment body =>
    exact for_lowers h hq initial condition increment body hm
  | .return keyword none => exact lowers_pure (.returned _)
  | .return keyword (some e) =>
    refine lowers_bind (here e) ?_
    rintro v _ rfl
    exact lowers_pure (.returned v)

end Nodes

/-- What trees with `for` do on a store, the lowered trees do on the lowered store. -/
theorem nodes_lower (n : Nat) : LowersAt early late n (expr n) (stmt n) := by
  induction n with
  | zero =>
    intro m hm
    by_cases he : early
    · exact ⟨fun _ _ _ => lowers_early he _, fun _ _ => lowers_early he _⟩
    · obtain rfl : m = 0 := Nat.le_zero.1 (hm.2 he)
      exact ⟨fun _ _ _ => lowers_throw _, fun _ _ => lowers_throw _⟩
  | succ n ih =>
    intro m hm
    cases m with
    | zero =>
      have hl : late := by_contra fun hl => Nat.not_succ_le_zero _ (hm.1 hl)
      exact ⟨fun _ _ _ => lowers_late hl _, fun _ _ => lowers_late hl _⟩
    | succ m =>
      have hbody := body_lowers ih (hm.inside.mono (by decide))
      obtain ⟨he, -⟩ := ih (hm.inside.mono (Nat.zero_le 3))
      exact ⟨fun e henv hinitializing =>
        exprRule_lowers (fun e => he e henv hinitializing) hbody henv hinitializing e,
        stmtRule_lowers ih hm.inside⟩

theorem program_lowers {n m : Nat} (hm : Suffices early late 1 n m) (P : Program) :
    Lowers early late Eq (program n P) (Lexical.program m (Declaration.loweredAll P)) := by
  have hd : DeclarationLowers early late (declarationRule (expr n) (stmt n)) (Lexical.stmt m) :=
    declaration_lowers (nodes_lower n) hm
  induction P with
  | nil => exact lowers_pure rfl
  | cons d rest ih => exact lowers_bind (hd d rfl) fun _ _ _ => ih

end Surface
end Treewalk
