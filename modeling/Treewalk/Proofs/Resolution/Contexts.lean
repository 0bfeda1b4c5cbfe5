import Treewalk.Proofs.Resolution.Calls
import Treewalk.Proofs.Tree.Form
/-!
# What encloses a node

Where a walk stands, the outer scopes have only names that are defined (`Visits.settled`). In a
program that is well formed and has no static errors, a node inside a class moreover has the scope of
the class's `this` around it, and behind that the scope of `super` if the class has a superclass
(`Visits.placed`).
-/

namespace Treewalk

theorem Bindings.set_set {α : Type} (b : Bindings α) (x : String) (v w : α) :
    (b.set x v).set x w = b.set x w := by
  induction b with
  | nil => simp [set]
  | cons e rest ih =>
    obtain ⟨y, a⟩ := e
    by_cases h : y = x <;> simp [set, h, ih]

namespace Resolver

variable {r : Resolver}

/-! ### The scopes in declarations -/

@[simp] theorem scopes_named (name : Token) (r : Resolver) :
    (r.named name).scopes = defining name.lexeme r.scopes := by
  rw [named, scopes_define]
  rcases declare_scopes name r with h | ⟨-, h⟩
  · rw [h]
  · rw [h]
    cases r.scopes <;> simp [Bindings.set_set]

@[simp] theorem scopes_checkSuperclass (name : Token) (superclass : Expr) (r : Resolver) :
    (r.checkSuperclass name superclass).scopes = r.scopes :=
  (checkSuperclass_notes ..).scopes

@[simp] theorem scopes_beforeSuperclass (name : Token) (superclass : Expr) (r : Resolver) :
    (r.beforeSuperclass name superclass).scopes =
      defining name.lexeme r.scopes := by
  simp [beforeSuperclass]

@[simp] theorem scopes_classBody (name : Token) (r : Resolver) :
    (r.classBody name).scopes =
      [("this", true)] :: defining name.lexeme r.scopes := by
  simp [classBody, push]

@[simp] theorem scopes_subclassBody (name : Token) (superclass : Expr) (r : Resolver) :
    (r.subclassBody name superclass).scopes =
      [("this", true)] :: [("super", true)] :: defining name.lexeme r.scopes := by
  simp [subclassBody, push]

/-- The scope of a function's parameters. -/
def parameterScope (parameters : List Token) : Bindings Bool :=
  parameters.foldl (fun b p => b.set p.lexeme true) []

theorem scopes_declareAll (parameters : List Token) (b : Bindings Bool)
    (outer : List (Bindings Bool)) (h : r.scopes = b :: outer) :
    (r.declareAll parameters).scopes =
      parameters.foldl (fun b p => b.set p.lexeme true) b :: outer := by
  induction parameters generalizing r b with
  | nil => exact h
  | cons p rest ih =>
    refine ih _ ?_
    show (r.named p).scopes = _
    rw [scopes_named, h]; rfl

@[simp] theorem scopes_functionBody (parameters : List Token) (context : FunctionContext)
    (r : Resolver) :
    (r.functionBody parameters context).scopes = parameterScope parameters :: r.scopes :=
  scopes_declareAll parameters [] r.scopes rfl

theorem get?_parameterScope (parameters : List Token) (x : String) :
    (parameterScope parameters).get? x =
      if x ∈ parameters.map (·.lexeme) then some true else none := by
  have hfind : (parameters.reverse.find? (·.lexeme = x)).isSome ↔
      x ∈ parameters.map (·.lexeme) := by simp
  rw [parameterScope, Bindings.get?_foldl_set]
  cases hx : parameters.reverse.find? (·.lexeme = x) with
  | some p => rw [if_pos (hfind.1 (by rw [hx]; rfl))]; rfl
  | none => rw [if_neg (fun hmem => by simpa [hx] using hfind.2 hmem)]; rfl

theorem tail_scopes_stmts (body : List Stmt) (r : Resolver) :
    (stmts body r).scopes.tail = r.scopes.tail :=
  (stmts_gains body r).scopes.tail_eq

@[simp] theorem scopes_functionDecl (f : FunctionDecl) (context : FunctionContext) (r : Resolver) :
    (functionDecl f context r).scopes = r.scopes := by
  obtain ⟨name, parameters, body⟩ := f
  exact (tail_scopes_stmts body (r.functionBody parameters context)).trans
    (congrArg List.tail (scopes_functionBody parameters context r))

@[simp] theorem scopes_methods (ms : List FunctionDecl) (r : Resolver) :
    (methods ms r).scopes = r.scopes := by
  induction ms generalizing r with
  | nil => rfl
  | cons m rest ih => exact (ih _).trans (scopes_functionDecl ..)

/-- A well-formed statement changes the scopes by what it declares. -/
theorem scopes_stmt {T : Token → Prop} : ∀ {s : Stmt}, s.Formed T → ∀ r : Resolver,
    (stmt s r).scopes = match s.declared? with
      | some name => defining name.lexeme r.scopes
      | none => r.scopes
  | .expression e, _, r | .print e, _, r => scopes_expr e r
  | .var name none, _, r => scopes_named name r
  | .var name (some e), _, r => by
    show ((expr e (r.declare name)).define name).scopes = _
    rw [scopes_define, scopes_expr, ← scopes_define]
    exact scopes_named name r
  | .block body, _, r => tail_scopes_stmts body (r.push [])
  | .if condition consequent none, h, r => by
    simp only [Stmt.Formed] at h
    have := scopes_stmt h.2.2 (expr condition r)
    rw [h.2.1, scopes_expr] at this
    exact this
  | .if condition consequent (some alternative), h, r => by
    simp only [Stmt.Formed] at h
    have first := scopes_stmt h.2.1.2 (expr condition r)
    have second := scopes_stmt h.2.2.2 (stmt consequent (expr condition r))
    rw [h.2.1.1, scopes_expr] at first
    rw [h.2.2.1, first] at second
    exact second
  | .while condition body, h, r => by
    simp only [Stmt.Formed] at h
    have := scopes_stmt h.2.2 (expr condition r)
    rw [h.2.1, scopes_expr] at this
    exact this
  | .function f, _, r =>
    (scopes_functionDecl f .function (r.named f.name)).trans (scopes_named f.name r)
  | .return _ none, _, r => (checkReturn_notes ..).scopes
  | .return _ (some e), _, r => (scopes_expr ..).trans (checkReturn_notes ..).scopes
  | .class name none ms, _, r => by
    show (methods ms (r.classBody name)).scopes.tail = _
    simp [Stmt.declared?]
  | .class name (some superclass) ms, _, r => by
    show (methods ms (r.subclassBody name superclass)).scopes.tail.tail = _
    simp [Stmt.declared?]

end Resolver

open Resolver

/-! ### Well-formed programs -/

namespace Call

variable (T : Token → Prop)

/-- What the walk is in front of is well formed. -/
def Formed : Call → Prop
  | .expr e _ => e.Formed T
  | .exprs es _ => Expr.AllFormed T es
  | .stmt s _ => s.Formed T
  | .stmts ss _ => Stmt.AllFormed T ss
  | .function f _ _ => f.Formed T
  | .methods ms _ => Stmt.MethodsFormed T ms

variable {T}

theorem Formed.part {c p : Call} (h : c.Formed T) (hp : p ∈ c.parts) : p.Formed T := by
  match c with
  | .expr e r =>
    cases e <;> simp only [parts, List.mem_cons, List.not_mem_nil, or_false] at hp <;>
      simp only [Formed, Expr.Formed] at h
    case grouping | get => subst hp; first | exact h | exact h.1
    case unary | assign => subst hp; exact h.2
    case binary | logical | call | set => rcases hp with rfl | rfl <;> simp_all [Formed]
  | .exprs [] _ | .stmts [] _ | .methods [] _ => cases hp
  | .exprs (_ :: _) _ | .stmts (_ :: _) _ | .methods (_ :: _) _ =>
    simp only [parts, List.mem_cons, List.not_mem_nil, or_false] at hp
    simp only [Formed, Expr.AllFormed, Stmt.AllFormed, Stmt.MethodsFormed] at h
    rcases hp with rfl | rfl
    · exact h.1
    · exact h.2
  | .function ⟨_, _, _⟩ _ _ =>
    obtain rfl := List.mem_singleton.1 hp
    simp only [Formed, FunctionDecl.Formed] at h
    exact h.2.2
  | .stmt s r =>
    match s with
    | .var _ none | .return _ none => cases hp
    | .expression _ | .print _ | .var _ (some _) | .block _ | .function _ | .return _ (some _)
    | .class _ none _ =>
      obtain rfl := List.mem_singleton.1 hp
      simp only [Formed, Stmt.Formed] at h
      first | exact h | exact h.2
    | .if _ _ none | .while _ _ | .if _ _ (some _) =>
      simp only [parts, List.mem_cons, List.not_mem_nil, or_false] at hp
      simp only [Formed, Stmt.Formed] at h
      rcases hp with rfl | hp <;> (try rcases hp with rfl | rfl) <;> simp_all [Formed]
    | .class _ (some _) _ =>
      simp only [parts, List.mem_cons, List.not_mem_nil, or_false] at hp
      simp only [Formed, Stmt.Formed] at h
      obtain ⟨-, ⟨node, superName, rfl, hs⟩, hm⟩ := h
      rcases hp with rfl | rfl
      · simpa only [Formed, Expr.Formed] using hs
      · exact hm

end Call

theorem Visits.formed {T : Token → Prop} {programs : List (List Stmt)} {c : Call}
    (h : Visits programs c) (hf : ∀ p ∈ programs, Stmt.AllFormed T p) : c.Formed T := by
  induction h with
  | program hp => exact hf _ hp
  | part _ hp ih => exact ih.part hp

/-! ### The outer scopes -/

/-- No name is still in front of its definition. -/
def AllDefined (scopes : List (Bindings Bool)) : Prop :=
  ∀ b ∈ scopes, ∀ x, b.get? x ≠ some false

theorem AllDefined.tail {scopes : List (Bindings Bool)} (h : AllDefined scopes) :
    AllDefined scopes.tail :=
  fun b hb => h b (List.mem_of_mem_tail hb)

theorem AllDefined.cons {b : Bindings Bool} {outer : List (Bindings Bool)}
    (hb : ∀ x, b.get? x ≠ some false) (h : AllDefined outer) : AllDefined (b :: outer) := by
  intro c hc
  rcases List.mem_cons.1 hc with rfl | hc
  · exact hb
  · exact h c hc

theorem AllDefined.gained {a b : List (Bindings Bool)} (h : AllDefined a) (hg : Gained a b) :
    AllDefined b := by
  match a with
  | [] => obtain rfl : b = [] := hg; exact h
  | c :: outer =>
    obtain ⟨c', rfl, hc⟩ := hg
    refine .cons (fun x hx => ?_) (fun d hd => h d (List.mem_cons_of_mem _ hd))
    rcases hc x with he | he
    · exact h c List.mem_cons_self x (he ▸ hx)
    · rw [he] at hx; cases hx

theorem AllDefined.defining {scopes : List (Bindings Bool)} (h : AllDefined scopes) (x : String) :
    AllDefined (Resolver.defining x scopes) := by
  cases scopes with
  | nil => exact h
  | cons b outer =>
    refine .cons (fun y => ?_) h.tail
    rw [Bindings.get?_set]
    split
    · simp
    · exact h b List.mem_cons_self y

namespace Call

/-- All names are defined, but perhaps one of the innermost scope inside its own initializer. -/
def Settled : Call → Prop
  | .expr _ r | .exprs _ r => AllDefined r.scopes.tail
  | .stmt _ r | .stmts _ r | .function _ _ r | .methods _ r => AllDefined r.scopes

theorem Settled.part {c p : Call} (h : c.Settled) (hp : p ∈ c.parts) : p.Settled := by
  match c with
  | .expr e r =>
    cases e <;> simp only [parts, List.mem_cons, List.not_mem_nil, or_false] at hp
    case grouping | unary | get | assign => subst hp; exact h
    case binary | logical | set =>
      rcases hp with rfl | rfl <;> simpa [Settled] using h
    case call callee _ arguments =>
      have hs : (r.checkCallee callee).scopes = r.scopes := (checkCallee_notes callee r).scopes
      rcases hp with rfl | rfl <;> simpa [Settled, hs] using h
  | .exprs [] _ | .stmts [] _ | .methods [] _ => cases hp
  | .exprs (e :: _) r =>
    simp only [parts, List.mem_cons, List.not_mem_nil, or_false] at hp
    rcases hp with rfl | rfl <;> simpa [Settled] using h
  | .stmts (s :: _) r =>
    simp only [parts, List.mem_cons, List.not_mem_nil, or_false] at hp
    rcases hp with rfl | rfl
    · exact h
    · exact AllDefined.gained h (stmt_gains s r).scopes
  | .methods (m :: _) r =>
    simp only [parts, List.mem_cons, List.not_mem_nil, or_false] at hp
    rcases hp with rfl | rfl
    · exact h
    · simpa [Settled] using h
  | .function ⟨_, parameters, _⟩ context r =>
    obtain rfl := List.mem_singleton.1 hp
    simp only [Settled, scopes_functionBody]
    refine .cons (fun x => ?_) h
    rw [get?_parameterScope]; split <;> simp
  | .stmt s r =>
    replace h : AllDefined r.scopes := h
    have condition {e : Expr} : AllDefined (Resolver.expr e r).scopes := by simpa using h
    match s with
    | .var _ none | .return _ none => cases hp
    | .expression _ | .print _ => obtain rfl := List.mem_singleton.1 hp; exact h.tail
    | .var name (some _) =>
      obtain rfl := List.mem_singleton.1 hp
      show AllDefined (r.declare name).scopes.tail
      rcases declare_scopes name r with he | ⟨-, he⟩ <;> rw [he]
      · exact h.tail
      · rw [List.tail_modifyHead]; exact h.tail
    | .block _ => obtain rfl := List.mem_singleton.1 hp; exact .cons (by simp [Bindings.get?]) h
    | .function f =>
      obtain rfl := List.mem_singleton.1 hp
      simpa [Settled] using h.defining _
    | .return keyword (some _) =>
      obtain rfl := List.mem_singleton.1 hp
      have : (r.checkReturn keyword true).scopes = r.scopes := (checkReturn_notes ..).scopes
      simpa [Settled, this] using h.tail
    | .if _ consequent none =>
      simp only [parts, List.mem_cons, List.not_mem_nil, or_false] at hp
      rcases hp with rfl | rfl
      · exact h.tail
      · exact condition
    | .if _ consequent (some _) =>
      simp only [parts, List.mem_cons, List.not_mem_nil, or_false] at hp
      rcases hp with rfl | rfl | rfl
      · exact h.tail
      · exact condition
      · exact condition.gained (stmt_gains ..).scopes
    | .while _ _ =>
      simp only [parts, List.mem_cons, List.not_mem_nil, or_false] at hp
      rcases hp with rfl | rfl
      · exact h.tail
      · exact condition
    | .class _ none _ =>
      obtain rfl := List.mem_singleton.1 hp
      simp only [Settled, scopes_classBody]
      exact .cons (by simp [Bindings.get?]) (h.defining _)
    | .class _ (some _) _ =>
      simp only [parts, List.mem_cons, List.not_mem_nil, or_false] at hp
      rcases hp with rfl | rfl
      · simpa [Settled] using (h.defining _).tail
      · simp only [Settled, scopes_subclassBody]
        exact .cons (by simp [Bindings.get?]) (.cons (by simp [Bindings.get?]) (h.defining _))

end Call

theorem Visits.settled {programs : List (List Stmt)} {c : Call} (h : Visits programs c) :
    c.Settled := by
  induction h with
  | program => exact fun _ hb => nomatch hb
  | part _ hp ih => exact ih.part hp

/-! ### Around a node in a class -/

/-- The scope binds what a program itself declares. -/
def Ordinary (b : Bindings Bool) : Prop :=
  b.get? "this" = none ∧ b.get? "super" = none

/-- Behind some ordinary scopes stands the one of a class's `this`, and next to it the one of `super`
if the class has a superclass. -/
inductive Enclosed (context : ClassContext) : List (Bindings Bool) → Prop where
  | body {outer : List (Bindings Bool)} :
    (context = .derived → outer.head? = some [("super", true)]) →
    Enclosed context ([("this", true)] :: outer)
  | inner {b : Bindings Bool} {outer : List (Bindings Bool)} :
    Ordinary b → Enclosed context outer → Enclosed context (b :: outer)

theorem Ordinary.set {b : Bindings Bool} (h : Ordinary b) {name : Token}
    (hn : name.Names Token.Spelled) (v : Bool) : Ordinary (b.set name.lexeme v) := by
  have this : name.lexeme ≠ "this" := hn.ne_keyword .this
  have super : name.lexeme ≠ "super" := hn.ne_keyword .super
  exact ⟨by rw [Bindings.get?_set, if_neg this]; exact h.1,
    by rw [Bindings.get?_set, if_neg super]; exact h.2⟩

theorem ordinary_parameterScope {parameters : List Token}
    (h : ∀ p ∈ parameters, p.Names Token.Spelled) : Ordinary (parameterScope parameters) := by
  have absent (k : Keyword) : (parameterScope parameters).get? k.spelling = none := by
    rw [get?_parameterScope, if_neg]
    intro hk
    obtain ⟨p, hp, he⟩ := List.mem_map.1 hk
    exact (h p hp).ne_keyword k he
  exact ⟨absent .this, absent .super⟩

/-- Where `this` is found, and `super` next to it. -/
theorem Enclosed.findIdx? {context : ClassContext} {scopes : List (Bindings Bool)}
    (h : Enclosed context scopes) :
    ∃ k, scopes.findIdx? (·.contains "this") = some k ∧ scopes[k]? = some [("this", true)] ∧
      (context = .derived → scopes.findIdx? (·.contains "super") = some (k + 1) ∧
        scopes[k + 1]? = some [("super", true)]) := by
  induction h with
  | @body outer ho =>
    refine ⟨0, rfl, rfl, fun hc => ?_⟩
    obtain ⟨rest, rfl⟩ := List.head?_eq_some_iff.1 (ho hc)
    exact ⟨rfl, rfl⟩
  | @inner b outer hb _ ih =>
    obtain ⟨k, hk, hthis, hsuper⟩ := ih
    have this : b.contains "this" = false := by rw [Bindings.contains, hb.1]; rfl
    have super : b.contains "super" = false := by rw [Bindings.contains, hb.2]; rfl
    refine ⟨k + 1, ?_, hthis, fun hc => ⟨?_, (hsuper hc).2⟩⟩
    · simp [List.findIdx?_cons, this, hk]
    · simp [List.findIdx?_cons, super, (hsuper hc).1]

namespace Resolver

/-- The walk is outside of classes or in a method, where the innermost scope is an ordinary one. -/
def Inside (r : Resolver) : Prop :=
  r.inClass = .none ∨ ∃ b outer, r.scopes = b :: outer ∧ Ordinary b ∧ Enclosed r.inClass outer

variable {r r' : Resolver}

theorem Inside.of_eq (h : Inside r) (hs : r'.scopes = r.scopes) (hc : r'.inClass = r.inClass) :
    Inside r' := by
  rw [Inside, hs, hc]; exact h

theorem Inside.notes (h : Inside r) (hn : Notes r r') : Inside r' :=
  h.of_eq hn.scopes hn.inClass

theorem Inside.defining (h : Inside r) {name : Token} (hn : name.Names Token.Spelled)
    (hs : r'.scopes = Resolver.defining name.lexeme r.scopes) (hc : r'.inClass = r.inClass) :
    Inside r' := by
  rw [Inside, hs, hc]
  refine h.imp_right ?_
  rintro ⟨b, outer, he, hb, henc⟩
  exact ⟨_, outer, by rw [he]; rfl, hb.set hn true, henc⟩

theorem Inside.stmt (h : Inside r) {s : Stmt} (hs : s.Formed Token.Spelled) :
    Inside (Resolver.stmt s r) := by
  have scopes := scopes_stmt hs r
  have context := (stmt_gains s r).inClass
  cases hd : s.declared? with
  | none => rw [hd] at scopes; exact h.of_eq scopes context
  | some name => rw [hd] at scopes; exact h.defining (hs.declared hd) scopes context

theorem Inside.enclosed (h : Inside r) : r.inClass = .none ∨ Enclosed r.inClass r.scopes := by
  refine h.imp_right ?_
  rintro ⟨b, outer, he, hb, henc⟩
  rw [he]; exact .inner hb henc

@[simp] theorem inClass_named (name : Token) (r : Resolver) :
    (r.named name).inClass = r.inClass := by
  simp [named, define]

@[simp] theorem inClass_functionBody (parameters : List Token) (context : FunctionContext)
    (r : Resolver) : (r.functionBody parameters context).inClass = r.inClass :=
  (declareAll_gains parameters (r.push [])).inClass

@[simp] theorem inClass_subclassBody (name : Token) (superclass : Expr) (r : Resolver) :
    (r.subclassBody name superclass).inClass = .derived :=
  (expr_notes superclass (r.beforeSuperclass name superclass)).inClass

end Resolver

namespace Call

/-- What encloses the walk. A superclass is in front of the scopes of its class. -/
def Placed : Call → Prop
  | .expr e r => (∃ node name, e = .variable node name) ∨ r.Inside
  | .exprs _ r | .stmt _ r | .stmts _ r => r.Inside
  | .function _ _ r | .methods _ r => r.inClass = .none ∨ Enclosed r.inClass r.scopes

theorem Placed.stmt_part {s : Stmt} {r : Resolver} (h : r.Inside) (hf : s.Formed Token.Spelled)
    {p : Call} (hp : p ∈ (Call.stmt s r).parts) : p.Placed := by
  have after (e : Expr) : (Resolver.expr e r).Inside := h.notes (expr_notes e r)
  cases s with
  | expression e | print e => obtain rfl := List.mem_singleton.1 hp; exact .inr h
  | var name initial =>
    cases initial with
    | none => cases hp
    | some e =>
      obtain rfl := List.mem_singleton.1 hp
      simp only [Stmt.Formed] at hf
      refine .inr ?_
      rcases declare_scopes name r with he | ⟨-, he⟩
      · exact h.of_eq he (by simp)
      · rw [Inside, he, inClass_declare]
        refine h.imp_right ?_
        rintro ⟨b, outer, hs, hb, henc⟩
        exact ⟨_, outer, by rw [hs]; rfl, hb.set hf.1 false, henc⟩
  | block body =>
    obtain rfl := List.mem_singleton.1 hp
    exact h.enclosed.imp_right fun henc => ⟨[], _, rfl, ⟨rfl, rfl⟩, henc⟩
  | function f =>
    obtain rfl := List.mem_singleton.1 hp
    simp only [Stmt.Formed] at hf
    exact (h.defining hf.name (scopes_named f.name r) (by simp)).enclosed
  | «return» keyword value =>
    cases value with
    | none => cases hp
    | some e =>
      obtain rfl := List.mem_singleton.1 hp
      exact .inr (h.notes (checkReturn_notes ..))
  | «while» condition body =>
    simp only [parts, List.mem_cons, List.not_mem_nil, or_false] at hp
    rcases hp with rfl | rfl
    · exact .inr h
    · exact after condition
  | «if» condition consequent alternative =>
    cases alternative with
    | none =>
      simp only [parts, List.mem_cons, List.not_mem_nil, or_false] at hp
      rcases hp with rfl | rfl
      · exact .inr h
      · exact after condition
    | some alternative =>
      simp only [parts, List.mem_cons, List.not_mem_nil, or_false] at hp
      simp only [Stmt.Formed] at hf
      rcases hp with rfl | rfl | rfl
      · exact .inr h
      · exact after condition
      · exact (after condition).stmt hf.2.1.2
  | «class» name superclass methods =>
    cases superclass with
    | none =>
      obtain rfl := List.mem_singleton.1 hp
      simp only [Placed, scopes_classBody]
      exact .inr (.body fun hc => by cases hc)
    | some superclass =>
      simp only [parts, List.mem_cons, List.not_mem_nil, or_false] at hp
      simp only [Stmt.Formed] at hf
      rcases hp with rfl | rfl
      · obtain ⟨-, ⟨node, superName, rfl, -⟩, -⟩ := hf
        exact .inl ⟨node, superName, rfl⟩
      · simp only [Placed, scopes_subclassBody, inClass_subclassBody]
        exact .inr (.body fun _ => rfl)

theorem Placed.part {c p : Call} (h : c.Placed) (hf : c.Formed Token.Spelled)
    (hp : p ∈ c.parts) : p.Placed := by
  cases c with
  | expr e r =>
    rcases h with ⟨node, name, rfl⟩ | h
    · cases hp
    cases e <;> simp only [parts, List.mem_cons, List.not_mem_nil, or_false] at hp
    case grouping | unary | get | assign => subst hp; exact .inr h
    case binary | logical | set =>
      rcases hp with rfl | rfl
      · exact .inr h
      · exact .inr (h.notes (expr_notes ..))
    case call =>
      rcases hp with rfl | rfl
      · exact .inr (h.notes (checkCallee_notes ..))
      · exact (h.notes (checkCallee_notes ..)).notes (expr_notes ..)
  | exprs es r =>
    cases es with
    | nil => cases hp
    | cons e rest =>
      simp only [parts, List.mem_cons, List.not_mem_nil, or_false] at hp
      rcases hp with rfl | rfl
      · exact .inr h
      · exact Inside.notes h (expr_notes ..)
  | stmts ss r =>
    cases ss with
    | nil => cases hp
    | cons s rest =>
      simp only [parts, List.mem_cons, List.not_mem_nil, or_false] at hp
      simp only [Formed, Stmt.AllFormed] at hf
      rcases hp with rfl | rfl
      · exact h
      · exact Inside.stmt h hf.1
  | methods ms r =>
    cases ms with
    | nil => cases hp
    | cons m rest =>
      simp only [parts, List.mem_cons, List.not_mem_nil, or_false] at hp
      rcases hp with rfl | rfl
      · exact h
      · simpa [Placed, (functionDecl_gains m m.methodContext r).inClass] using h
  | function f context r =>
    obtain ⟨name, parameters, body⟩ := f
    obtain rfl := List.mem_singleton.1 hp
    simp only [Formed, FunctionDecl.Formed] at hf
    show Inside _
    rw [Inside, inClass_functionBody, scopes_functionBody]
    exact h.imp_right fun henc => ⟨_, _, rfl, ordinary_parameterScope hf.2.1, henc⟩
  | stmt s r =>
    replace h : r.Inside := h
    simp only [Formed] at hf
    exact .stmt_part h hf hp

end Call

theorem Visits.placed {programs : List (List Stmt)} {c : Call} (h : Visits programs c)
    (hf : ∀ p ∈ programs, Stmt.AllFormed Token.Spelled p) : c.Placed := by
  induction h with
  | program => exact .inl rfl
  | part hc hp ih => exact ih.part (hc.formed hf) hp

end Treewalk
