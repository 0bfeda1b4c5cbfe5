import Mathlib
import Treewalk.Resolution
/-!
# What a walk changes

An expression changes neither the scopes nor the contexts of a walk, it only adds to the references
and errors (`expr_notes`). A statement moreover changes the innermost scope, where each name stays
as it was or becomes defined (`stmt_gains`). So the stack of scopes is as high behind a node as in
front of it.
-/

namespace Treewalk
namespace Resolver

/-- `r'` has at least the references and errors of `r`. -/
structure Onward (r r' : Resolver) : Prop where
  references : r.references <:+ r'.references
  errors : r.errors <:+ r'.errors

/-- `r'` is `r` with more references and errors. -/
structure Notes (r r' : Resolver) : Prop extends Onward r r' where
  scopes : r'.scopes = r.scopes
  inFunction : r'.inFunction = r.inFunction
  inClass : r'.inClass = r.inClass

/-- Each name is as it was or has become defined. -/
def GainedScope (b b' : Bindings Bool) : Prop :=
  ∀ x, b'.get? x = b.get? x ∨ b'.get? x = some true

/-- The innermost scope has gained names, the others are as they were. -/
def Gained : List (Bindings Bool) → List (Bindings Bool) → Prop
  | [], scopes => scopes = []
  | b :: outer, scopes => ∃ b', scopes = b' :: outer ∧ GainedScope b b'

/-- `r'` is `r` with more references, errors and names in its innermost scope. -/
structure Gains (r r' : Resolver) : Prop extends Onward r r' where
  scopes : Gained r.scopes r'.scopes
  inFunction : r'.inFunction = r.inFunction
  inClass : r'.inClass = r.inClass

variable {r r' r'' : Resolver}

theorem Onward.refl (r : Resolver) : Onward r r :=
  ⟨List.suffix_refl _, List.suffix_refl _⟩

theorem Onward.trans (h : Onward r r') (h' : Onward r' r'') : Onward r r'' :=
  ⟨h.references.trans h'.references, h.errors.trans h'.errors⟩

theorem Notes.refl (r : Resolver) : Notes r r :=
  ⟨.refl r, rfl, rfl, rfl⟩

theorem Notes.trans (h : Notes r r') (h' : Notes r' r'') : Notes r r'' :=
  ⟨h.toOnward.trans h'.toOnward, h'.scopes.trans h.scopes, h'.inFunction.trans h.inFunction,
    h'.inClass.trans h.inClass⟩

/-! ### Gained names -/

theorem GainedScope.trans {b b' b'' : Bindings Bool} (h : GainedScope b b')
    (h' : GainedScope b' b'') : GainedScope b b'' := by
  intro x
  rcases h' x with hx | hx
  · rw [hx]; exact h x
  · exact .inr hx

theorem Gained.refl : ∀ scopes, Gained scopes scopes
  | [] => rfl
  | b :: _ => ⟨b, rfl, fun _ => .inl rfl⟩

theorem Gained.trans {a b c : List (Bindings Bool)} (h : Gained a b) (h' : Gained b c) :
    Gained a c := by
  match a with
  | [] => obtain rfl : b = [] := h; exact h'
  | _ :: _ =>
    obtain ⟨b', rfl, hb⟩ := h
    obtain ⟨c', rfl, hc⟩ := h'
    exact ⟨c', rfl, hb.trans hc⟩

theorem Gained.length_eq {a b : List (Bindings Bool)} (h : Gained a b) : b.length = a.length := by
  match a with
  | [] => obtain rfl : b = [] := h; rfl
  | _ :: _ => obtain ⟨b', rfl, -⟩ := h; rfl

theorem Gained.tail_eq {a b : List (Bindings Bool)} (h : Gained a b) : b.tail = a.tail := by
  match a with
  | [] => obtain rfl : b = [] := h; rfl
  | _ :: _ => obtain ⟨b', rfl, -⟩ := h; rfl

theorem Notes.gains (h : Notes r r') : Gains r r' :=
  ⟨h.toOnward, h.scopes ▸ .refl _, h.inFunction, h.inClass⟩

theorem Gains.trans (h : Gains r r') (h' : Gains r' r'') : Gains r r'' :=
  ⟨h.toOnward.trans h'.toOnward, h.scopes.trans h'.scopes, h'.inFunction.trans h.inFunction,
    h'.inClass.trans h.inClass⟩

theorem Gains.length_eq (h : Gains r r') : r'.scopes.length = r.scopes.length :=
  h.scopes.length_eq

/-! ### The steps of a walk -/

theorem error_notes (t : Token) (fault : StaticFault) (r : Resolver) : Notes r (r.error t fault) :=
  ⟨⟨List.suffix_refl _, List.suffix_cons _ _⟩, rfl, rfl, rfl⟩

theorem errorIf_notes (c : Bool) (t : Token) (fault : StaticFault) (r : Resolver) :
    Notes r (r.errorIf c t fault) := by
  unfold errorIf; split
  · exact error_notes ..
  · exact .refl r

theorem refer_notes (node : NodeId) (name : Token) (r : Resolver) : Notes r (r.refer node name) :=
  ⟨⟨List.suffix_cons _ _, List.suffix_refl _⟩, rfl, rfl, rfl⟩

theorem checkCallee_notes (callee : Expr) (r : Resolver) : Notes r (r.checkCallee callee) := by
  unfold checkCallee; split
  · exact errorIf_notes ..
  · exact .refl r

theorem checkSuperclass_notes (name : Token) (superclass : Expr) (r : Resolver) :
    Notes r (r.checkSuperclass name superclass) := by
  unfold checkSuperclass; split
  · exact errorIf_notes ..
  · exact .refl r

theorem checkReturn_notes (keyword : Token) (hasValue : Bool) (r : Resolver) :
    Notes r (r.checkReturn keyword hasValue) :=
  (errorIf_notes ..).trans (errorIf_notes ..)

theorem this_notes (node : NodeId) (keyword : Token) (r : Resolver) :
    Notes r (r.this node keyword) := by
  unfold this; split
  · exact error_notes ..
  · exact refer_notes ..
  · exact refer_notes ..

theorem super_notes (node : NodeId) (keyword : Token) (r : Resolver) :
    Notes r (r.super node keyword) := by
  unfold super; split
  · exact error_notes ..
  · exact error_notes ..
  · exact refer_notes ..

/-! ### Binding names -/

@[simp] theorem scopes_bind (x : String) (b : Bool) (r : Resolver) :
    (r.bind x b).scopes = r.scopes.modifyHead (·.set x b) := by
  unfold bind; split <;> simp [*]

theorem bind_onward (x : String) (b : Bool) (r : Resolver) : Onward r (r.bind x b) := by
  unfold bind; split <;> exact ⟨List.suffix_refl _, List.suffix_refl _⟩

@[simp] theorem inFunction_bind (x : String) (b : Bool) (r : Resolver) :
    (r.bind x b).inFunction = r.inFunction := by
  unfold bind; split <;> rfl

@[simp] theorem inClass_bind (x : String) (b : Bool) (r : Resolver) :
    (r.bind x b).inClass = r.inClass := by
  unfold bind; split <;> rfl

theorem declare_onward (name : Token) (r : Resolver) : Onward r (r.declare name) := by
  unfold declare; split
  · exact (error_notes ..).toOnward
  · exact bind_onward ..

@[simp] theorem inFunction_declare (name : Token) (r : Resolver) :
    (r.declare name).inFunction = r.inFunction := by
  unfold declare; split
  · rfl
  · exact inFunction_bind ..

@[simp] theorem inClass_declare (name : Token) (r : Resolver) :
    (r.declare name).inClass = r.inClass := by
  unfold declare; split
  · rfl
  · exact inClass_bind ..

/-- Declaring changes nothing but a name that was not there. -/
theorem declare_scopes (name : Token) (r : Resolver) :
    (r.declare name).scopes = r.scopes ∨
      r.innermost? name.lexeme = none ∧
        (r.declare name).scopes = r.scopes.modifyHead (·.set name.lexeme false) := by
  unfold declare; split
  · exact .inl rfl
  · next h => exact .inr ⟨by simpa using h, scopes_bind ..⟩

/-- The scopes with one more name in the innermost one, if there is one. -/
def defining (x : String) : List (Bindings Bool) → List (Bindings Bool)
  | [] => []
  | b :: outer => b.set x true :: outer

@[simp] theorem defining_cons (x : String) (b : Bindings Bool) (outer : List (Bindings Bool)) :
    defining x (b :: outer) = b.set x true :: outer := rfl

@[simp] theorem length_defining (x : String) (scopes : List (Bindings Bool)) :
    (defining x scopes).length = scopes.length := by
  cases scopes <;> rfl

/-- A scope in which a name is defined is not the one of another name. -/
theorem head?_defining_ne {x y : String} (hx : x ≠ y) (scopes : List (Bindings Bool)) :
    (defining x scopes).head? ≠ some [(y, true)] := by
  intro hhead
  cases scopes with
  | nil => cases hhead
  | cons b outer =>
    have hset : b.set x true = [(y, true)] := Option.some.inj hhead
    have hget : (b.set x true).get? x = some true := by rw [Bindings.get?_set, if_pos rfl]
    rw [hset, Bindings.get?, if_neg hx.symm] at hget
    cases hget

@[simp] theorem scopes_define (name : Token) (r : Resolver) :
    (r.define name).scopes = defining name.lexeme r.scopes := by
  rw [define, scopes_bind]; cases r.scopes <;> rfl

/-- Whatever of the name was declared in front, in the end it is defined. -/
theorem define_gained (name : Token) {scopes : List (Bindings Bool)}
    (h : r'.scopes = (r.declare name).scopes) (hs : r.scopes = scopes) :
    Gained scopes (r'.define name).scopes := by
  subst hs
  rw [scopes_define, h]
  rcases declare_scopes name r with he | ⟨-, he⟩ <;> rw [he] <;> cases r.scopes with
  | nil => rfl
  | cons b outer =>
    refine ⟨_, rfl, fun x => ?_⟩
    simp only [Bindings.get?_set]
    split
    · exact .inr rfl
    · exact .inl rfl

/-- Declaring a name and then defining it, with a walk that binds nothing in between. -/
theorem define_gains (name : Token) (h : Notes (r.declare name) r') :
    Gains r (r'.define name) :=
  ⟨((declare_onward name r).trans h.toOnward).trans (bind_onward ..),
    define_gained name h.scopes rfl, by simp [define, h.inFunction], by simp [define, h.inClass]⟩

theorem declareAll_gains (names : List Token) (r : Resolver) : Gains r (r.declareAll names) := by
  induction names generalizing r with
  | nil => exact (Notes.refl r).gains
  | cons name rest ih => exact (define_gains name (.refl _)).trans (ih _)

/-! ### Expressions -/

mutual

theorem expr_notes : ∀ (e : Expr) (r : Resolver), Notes r (expr e r)
  | .literal _, _ => .refl _
  | .grouping inner, r => expr_notes inner r
  | .unary _ operand, r => expr_notes operand r
  | .binary left _ right, r => (expr_notes left r).trans (expr_notes right _)
  | .logical left _ right, r => (expr_notes left r).trans (expr_notes right _)
  | .variable node name, _ => (errorIf_notes ..).trans (refer_notes node name _)
  | .assign node name value, r => (expr_notes value r).trans (refer_notes node name _)
  | .call callee _ arguments, r =>
    ((checkCallee_notes callee r).trans (expr_notes callee _)).trans (exprs_notes arguments _)
  | .get object _, r => expr_notes object r
  | .set object _ value, r => (expr_notes value r).trans (expr_notes object _)
  | .this node keyword, r => this_notes node keyword r
  | .super node keyword _, r => super_notes node keyword r

theorem exprs_notes : ∀ (es : List Expr) (r : Resolver), Notes r (exprs es r)
  | [], r => .refl r
  | e :: rest, r => (expr_notes e r).trans (exprs_notes rest _)

end

@[simp] theorem scopes_expr (e : Expr) (r : Resolver) : (expr e r).scopes = r.scopes :=
  (expr_notes e r).scopes

/-! ### Statements -/

/-- Leaving the scope that was opened last. -/
theorem Gains.pop {b : Bindings Bool} (h : Gains (r.push b) r') : Gains r r'.pop :=
  ⟨⟨h.references, h.errors⟩, by
    have : r'.pop.scopes = r.scopes := h.scopes.tail_eq
    rw [this]; exact .refl _, h.inFunction, h.inClass⟩

mutual

theorem stmt_gains : ∀ (s : Stmt) (r : Resolver), Gains r (stmt s r)
  | .expression e, r => (expr_notes e r).gains
  | .print e, r => (expr_notes e r).gains
  | .var name none, r => define_gains name (.refl _)
  | .var name (some e), r => define_gains name (expr_notes e _)
  | .block body, r => (stmts_gains body _).pop
  | .if condition consequent none, r =>
    (expr_notes condition r).gains.trans (stmt_gains consequent _)
  | .if condition consequent (some alternative), r =>
    ((expr_notes condition r).gains.trans (stmt_gains consequent _)).trans
      (stmt_gains alternative _)
  | .while condition body, r => (expr_notes condition r).gains.trans (stmt_gains body _)
  | .function f, r =>
    (define_gains f.name (.refl _)).trans (functionDecl_gains f .function _)
  | .return _ none, r => (checkReturn_notes ..).gains
  | .return _ (some e), r => ((checkReturn_notes ..).trans (expr_notes e _)).gains
  | .class name none ms, r => by
    have named : Gains r ((r.declare name).define name) := define_gains name (.refl _)
    have body := (methods_gains ms
      (push [("this", true)] { (r.declare name).define name with inClass := .plain })).pop
    exact ⟨named.toOnward.trans ⟨body.references, body.errors⟩, named.scopes.trans body.scopes,
      body.inFunction.trans named.inFunction, rfl⟩
  | .class name (some superclass) ms, r => by
    have named : Gains r ((r.declare name).define name) := define_gains name (.refl _)
    have checked := checkSuperclass_notes name superclass ((r.declare name).define name)
    have parent := expr_notes superclass
      { ((r.declare name).define name).checkSuperclass name superclass with inClass := .derived }
    have body := (methods_gains ms (((expr superclass
      { ((r.declare name).define name).checkSuperclass name superclass with
        inClass := .derived }).push [("super", true)]).push [("this", true)])).pop.pop
    have before := (named.toOnward.trans checked.toOnward).trans ⟨parent.references, parent.errors⟩
    refine ⟨before.trans ⟨body.references, body.errors⟩, ?_, ?_, rfl⟩
    · have := parent.scopes.trans checked.scopes
      exact named.scopes.trans (this ▸ body.scopes)
    · exact body.inFunction.trans (parent.inFunction.trans
        (checked.inFunction.trans named.inFunction))

theorem stmts_gains : ∀ (ss : List Stmt) (r : Resolver), Gains r (stmts ss r)
  | [], r => (Notes.refl r).gains
  | s :: rest, r => (stmt_gains s r).trans (stmts_gains rest _)

theorem functionDecl_gains : ∀ (f : FunctionDecl) (context : FunctionContext) (r : Resolver),
    Gains r (functionDecl f context r)
  | ⟨_, parameters, body⟩, context, r => by
    have inner := stmts_gains body
      { (r.push []).declareAll parameters with inFunction := context }
    have outer := declareAll_gains parameters (r.push [])
    have both : Gains (r.push []) { stmts body { (r.push []).declareAll parameters with
        inFunction := context } with inFunction := r.inFunction } :=
      ⟨outer.toOnward.trans ⟨inner.references, inner.errors⟩, outer.scopes.trans inner.scopes, rfl,
        inner.inClass.trans outer.inClass⟩
    exact both.pop

theorem methods_gains : ∀ (ms : List FunctionDecl) (r : Resolver), Gains r (methods ms r)
  | [], r => (Notes.refl r).gains
  | m :: rest, r => (functionDecl_gains m _ r).trans (methods_gains rest _)

end

/-- Outside of all scopes a statement declares none. -/
theorem scopes_stmt_outermost {r : Resolver} (hr : r.scopes = []) (s : Stmt) :
    (stmt s r).scopes = [] := by
  have hgained := (stmt_gains s r).scopes
  rw [hr] at hgained
  exact hgained

end Resolver
end Treewalk
