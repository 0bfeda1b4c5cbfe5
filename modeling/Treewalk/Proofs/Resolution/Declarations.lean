import Treewalk.Proofs.Resolution.Contexts
/-!
# Names are declared once

In a walk without errors, the innermost scope does not have a name yet when a statement declares it,
the parameters of a function have different names, and a superclass is not spelled like its class.
-/

namespace Treewalk
namespace Resolver

variable {r r' : Resolver} {name : Token}

theorem Onward.errors_eq_nil (h : Onward r r') (hr : r'.errors = []) : r.errors = [] :=
  List.suffix_nil.1 (hr ▸ h.errors)

theorem innermost?_of_declare (h : (r.declare name).errors = []) :
    r.innermost? name.lexeme = none := by
  unfold declare at h
  split at h
  · cases h
  · next hn => simpa using hn

/-! ### Statements -/

theorem declare_onward_named (name : Token) (r : Resolver) :
    Onward (r.declare name) (r.named name) :=
  bind_onward ..

theorem declare_onward_classBody (name : Token) (r : Resolver) :
    Onward (r.declare name) (r.classBody name) := by
  have h := declare_onward_named name r
  exact ⟨h.references, h.errors⟩

theorem checkSuperclass_onward_subclassBody (name : Token) (superclass : Expr) (r : Resolver) :
    Onward ((r.named name).checkSuperclass name superclass) (r.subclassBody name superclass) := by
  have h := (expr_notes superclass (r.beforeSuperclass name superclass)).toOnward
  exact ⟨h.references, h.errors⟩

theorem declare_onward_stmt {s : Stmt} (hs : s.declared? = some name) (r : Resolver) :
    Onward (r.declare name) (stmt s r) := by
  cases s with
  | var x initial =>
    obtain rfl := Option.some.inj hs
    cases initial with
    | none => exact bind_onward ..
    | some e => exact (expr_notes e _).toOnward.trans (bind_onward ..)
  | function f =>
    obtain rfl := Option.some.inj hs
    exact (declare_onward_named f.name r).trans (functionDecl_gains f .function _).toOnward
  | «class» x superclass ms =>
    obtain rfl := Option.some.inj hs
    cases superclass with
    | none =>
      have hpart : Onward (methods ms (r.classBody x)) (stmt (.class x none ms) r) :=
        Call.part_onward (p := .methods ms (r.classBody x)) (c := .stmt (.class x none ms) r)
          (by simp [Call.parts])
      have hwalk := (methods_gains ms (r.classBody x)).toOnward
      exact ((declare_onward_classBody x r).trans hwalk).trans hpart
    | some e =>
      have hpart : Onward (methods ms (r.subclassBody x e)) (stmt (.class x (some e) ms) r) :=
        Call.part_onward (p := .methods ms (r.subclassBody x e))
          (c := .stmt (.class x (some e) ms) r) (by simp [Call.parts])
      have hwalk := (methods_gains ms (r.subclassBody x e)).toOnward
      have hcheck := (checkSuperclass_notes x e (r.named x)).toOnward
      have hbody := hcheck.trans (checkSuperclass_onward_subclassBody x e r)
      exact (((declare_onward_named x r).trans hbody).trans hwalk).trans hpart
  | _ => cases hs

theorem undeclared {s : Stmt} (hs : s.declared? = some name) (h : (stmt s r).errors = []) :
    r.innermost? name.lexeme = none :=
  innermost?_of_declare ((declare_onward_stmt hs r).errors_eq_nil h)

/-! ### Parameters -/

theorem declareAll_nodup {names : List Token} {b : Bindings Bool} {outer : List (Bindings Bool)}
    (hs : r.scopes = b :: outer) (h : (r.declareAll names).errors = []) :
    (names.map (·.lexeme)).Nodup ∧ ∀ p ∈ names, b.get? p.lexeme = none := by
  induction names generalizing r b with
  | nil => exact ⟨List.nodup_nil, fun _ hp => by cases hp⟩
  | cons name rest ih =>
    have hrest : ((r.named name).declareAll rest).errors = [] := h
    have hnamed := (declareAll_gains rest (r.named name)).toOnward.errors_eq_nil hrest
    have hname : b.get? name.lexeme = none := by
      have := innermost?_of_declare ((declare_onward_named name r).errors_eq_nil hnamed)
      rw [innermost?, hs] at this
      exact this
    have hscopes : (r.named name).scopes = b.set name.lexeme true :: outer := by
      rw [scopes_named, hs, defining_cons]
    obtain ⟨hnodup, habsent⟩ := ih hscopes hrest
    have later {p : Token} (hp : p ∈ rest) : name.lexeme ≠ p.lexeme ∧ b.get? p.lexeme = none := by
      have := habsent p hp
      rw [Bindings.get?_set] at this
      split at this
      · cases this
      · next hne => exact ⟨hne, this⟩
    constructor
    · rw [List.map_cons, List.nodup_cons]
      refine ⟨fun hmem => ?_, hnodup⟩
      obtain ⟨p, hp, he⟩ := List.mem_map.1 hmem
      exact (later hp).1 he.symm
    · intro p hp
      rcases List.mem_cons.1 hp with rfl | hp
      · exact hname
      · exact (later hp).2

theorem parameters_nodup {f : FunctionDecl} {context : FunctionContext}
    (h : (functionDecl f context r).errors = []) : (f.parameters.map (·.lexeme)).Nodup := by
  obtain ⟨name, parameters, body⟩ := f
  have hbody : (stmts body (r.functionBody parameters context)).errors = [] := h
  have hentered := (stmts_gains body (r.functionBody parameters context)).toOnward.errors_eq_nil hbody
  exact (declareAll_nodup (r := r.push []) rfl hentered).1

/-! ### Superclasses -/

theorem superclass_ne {node : NodeId} {superName : Token} {ms : List FunctionDecl}
    (h : (stmt (.class name (some (.variable node superName)) ms) r).errors = []) :
    superName.lexeme ≠ name.lexeme := by
  intro hsame
  let e : Expr := .variable node superName
  have hpart : Onward (methods ms (r.subclassBody name e)) (stmt (.class name (some e) ms) r) :=
    Call.part_onward (p := .methods ms (r.subclassBody name e))
      (c := .stmt (.class name (some e) ms) r) (by simp [Call.parts])
  have hbody := (methods_gains ms (r.subclassBody name e)).toOnward.errors_eq_nil
    (hpart.errors_eq_nil h)
  have := (checkSuperclass_onward_subclassBody name e r).errors_eq_nil hbody
  simp [e, checkSuperclass, errorIf, hsame, error] at this

end Resolver
end Treewalk
