import Treewalk.Proofs.Resolution.Calls
/-!
# Identities of references

`Stmt.nodes` lists the identities in a tree. A walk records no identity oftener than it is in the tree
(`resolve_nodes`), each at an expression that it visits (`resolve_origin`).
-/

namespace Treewalk

mutual

/-- The identities in an expression, in the order of the walk. -/
def Expr.nodes : Expr → List NodeId
  | .literal _ => []
  | .grouping inner => inner.nodes
  | .unary _ operand => operand.nodes
  | .binary left _ right => left.nodes ++ right.nodes
  | .logical left _ right => left.nodes ++ right.nodes
  | .variable node _ => [node]
  | .assign node _ value => value.nodes ++ [node]
  | .call callee _ arguments => callee.nodes ++ Expr.nodesOfAll arguments
  | .get object _ => object.nodes
  | .set object _ value => value.nodes ++ object.nodes
  | .this node _ => [node]
  | .super node _ _ => [node]

def Expr.nodesOfAll : List Expr → List NodeId
  | [] => []
  | e :: rest => e.nodes ++ Expr.nodesOfAll rest

end

mutual

/-- The identities in a statement, in the order of the walk. -/
def Stmt.nodes : Stmt → List NodeId
  | .expression e => e.nodes
  | .print e => e.nodes
  | .var _ none => []
  | .var _ (some e) => e.nodes
  | .block body => Stmt.nodesOfAll body
  | .if condition consequent none => condition.nodes ++ consequent.nodes
  | .if condition consequent (some alternative) =>
    condition.nodes ++ consequent.nodes ++ alternative.nodes
  | .while condition body => condition.nodes ++ body.nodes
  | .function f => f.nodes
  | .return _ none => []
  | .return _ (some e) => e.nodes
  | .class _ none methods => Stmt.nodesOfMethods methods
  | .class _ (some superclass) methods => superclass.nodes ++ Stmt.nodesOfMethods methods

def Stmt.nodesOfAll : List Stmt → List NodeId
  | [] => []
  | s :: rest => s.nodes ++ Stmt.nodesOfAll rest

def FunctionDecl.nodes : FunctionDecl → List NodeId
  | ⟨_, _, body⟩ => Stmt.nodesOfAll body

def Stmt.nodesOfMethods : List FunctionDecl → List NodeId
  | [] => []
  | m :: rest => m.nodes ++ Stmt.nodesOfMethods rest

end

/-- The reference that the walk records at an expression which it visits in state `r`. -/
def Expr.reference? : Expr → Resolver → Option Reference
  | .variable node name, r | .assign node name _, r =>
    some ⟨node, name.lexeme, r.distance? name.lexeme⟩
  | .this node keyword, r =>
    if r.inClass = .none then none else some ⟨node, keyword.lexeme, r.distance? keyword.lexeme⟩
  | .super node keyword _, r =>
    if r.inClass = .derived then some ⟨node, keyword.lexeme, r.distance? keyword.lexeme⟩ else none
  | _, _ => none

namespace Resolver

variable {programs : List (List Stmt)}

/-- What `r'` has recorded since `r` are references of the given identities, in that order, each at
an expression that the walk has visited. -/
def Records (programs : List (List Stmt)) (nodes : List NodeId) (r r' : Resolver) : Prop :=
  ∃ new, r'.references = new ++ r.references ∧ (new.reverse.map (·.node)).Sublist nodes ∧
    ∀ ref ∈ new, ∃ e r, Visits programs (.expr e r) ∧ e.reference? r = some ref

variable {ns ns' : List NodeId} {r r' r'' : Resolver}

theorem Records.of_eq (h : r'.references = r.references) : Records programs ns r r' :=
  ⟨[], h, List.nil_sublist _, nofun⟩

theorem Records.trans (h : Records programs ns r r') (h' : Records programs ns' r' r'') :
    Records programs (ns ++ ns') r r'' := by
  obtain ⟨a, ha, hs, ho⟩ := h
  obtain ⟨b, hb, hs', ho'⟩ := h'
  refine ⟨b ++ a, by rw [hb, ha, List.append_assoc], ?_, fun ref hmem => ?_⟩
  · rw [List.reverse_append, List.map_append]
    exact hs.append hs'
  · exact (List.mem_append.1 hmem).elim (ho' ref) (ho ref)

/-- Steps that record nothing may stand around a walk. -/
theorem Records.between {a b : Resolver} (h : Records programs ns a b)
    (ha : a.references = r.references) (hb : r'.references = b.references) :
    Records programs ns r r' := by
  obtain ⟨new, he, hs⟩ := h
  exact ⟨new, by rw [hb, he, ha], hs⟩

@[simp] theorem references_errorIf (c : Bool) (t : Token) (fault : StaticFault) (r : Resolver) :
    (r.errorIf c t fault).references = r.references := by
  unfold errorIf; split <;> rfl

@[simp] theorem references_checkCallee (callee : Expr) (r : Resolver) :
    (r.checkCallee callee).references = r.references := by
  unfold checkCallee; split <;> simp

@[simp] theorem references_checkSuperclass (name : Token) (superclass : Expr) (r : Resolver) :
    (r.checkSuperclass name superclass).references = r.references := by
  unfold checkSuperclass; split <;> simp

@[simp] theorem references_checkReturn (keyword : Token) (hasValue : Bool) (r : Resolver) :
    (r.checkReturn keyword hasValue).references = r.references := by
  simp [checkReturn]

@[simp] theorem references_bind (x : String) (b : Bool) (r : Resolver) :
    (r.bind x b).references = r.references := by
  unfold bind; split <;> rfl

@[simp] theorem references_declare (name : Token) (r : Resolver) :
    (r.declare name).references = r.references := by
  unfold declare; split
  · rfl
  · exact references_bind ..

@[simp] theorem references_define (name : Token) (r : Resolver) :
    (r.define name).references = r.references :=
  references_bind ..

@[simp] theorem references_declareAll (names : List Token) (r : Resolver) :
    (r.declareAll names).references = r.references := by
  induction names generalizing r with
  | nil => rfl
  | cons name rest ih => exact (ih _).trans (by simp)

/-- Recording one reference at the expression that is visited. -/
theorem refer_records {e : Expr} {node : NodeId} {name : Token} {rv : Resolver}
    (h : Visits programs (.expr e rv)) (hr : r.scopes = rv.scopes)
    (he : e.reference? rv = some ⟨node, name.lexeme, rv.distance? name.lexeme⟩) :
    Records programs [node] r (r.refer node name) := by
  refine ⟨[_], rfl, List.Sublist.refl _, fun ref hmem => ⟨e, rv, h, ?_⟩⟩
  obtain rfl := List.mem_singleton.1 hmem
  rw [he, distance?, hr]

theorem this_records {node : NodeId} {keyword : Token}
    (h : Visits programs (.expr (.this node keyword) r)) :
    Records programs [node] r (r.this node keyword) := by
  unfold this
  cases hc : r.inClass with
  | none => exact .of_eq rfl
  | plain | derived => exact refer_records h rfl (by simp [Expr.reference?, hc])

theorem super_records {node : NodeId} {keyword method : Token}
    (h : Visits programs (.expr (.super node keyword method) r)) :
    Records programs [node] r (r.super node keyword) := by
  unfold super
  cases hc : r.inClass with
  | none | plain => exact .of_eq rfl
  | derived => exact refer_records h rfl (by simp [Expr.reference?, hc])

mutual

theorem expr_records : ∀ (e : Expr) (r : Resolver), Visits programs (.expr e r) →
    Records programs e.nodes r (expr e r)
  | .literal _, _, _ => .of_eq rfl
  | .grouping inner, r, h => expr_records inner r (h.part (by simp [Call.parts]))
  | .unary _ operand, r, h => expr_records operand r (h.part (by simp [Call.parts]))
  | .binary left _ right, r, h | .logical left _ right, r, h =>
    (expr_records left r (h.part (by simp [Call.parts]))).trans
      (expr_records right _ (h.part (by simp [Call.parts])))
  | .variable node name, _, h =>
    (refer_records (r := errorIf ..) h (errorIf_notes ..).scopes rfl).between (by simp) rfl
  | .assign node name value, r, h =>
    (expr_records value r (h.part (by simp [Call.parts]))).trans
      (refer_records h (scopes_expr ..) rfl)
  | .call callee _ arguments, _, h =>
    ((expr_records callee _ (h.part (by simp [Call.parts]))).between (by simp) rfl).trans
      (exprs_records arguments _ (h.part (by simp [Call.parts])))
  | .get object _, r, h => expr_records object r (h.part (by simp [Call.parts]))
  | .set object _ value, r, h =>
    (expr_records value r (h.part (by simp [Call.parts]))).trans
      (expr_records object _ (h.part (by simp [Call.parts])))
  | .this _ _, _, h => this_records h
  | .super _ _ _, _, h => super_records h

theorem exprs_records : ∀ (es : List Expr) (r : Resolver), Visits programs (.exprs es r) →
    Records programs (Expr.nodesOfAll es) r (exprs es r)
  | [], _, _ => .of_eq rfl
  | e :: rest, r, h =>
    (expr_records e r (h.part (by simp [Call.parts]))).trans
      (exprs_records rest _ (h.part (by simp [Call.parts])))

end

mutual

theorem stmt_records : ∀ (s : Stmt) (r : Resolver), Visits programs (.stmt s r) →
    Records programs s.nodes r (stmt s r)
  | .expression e, r, h | .print e, r, h => expr_records e r (h.part (by simp [Call.parts]))
  | .var _ none, _, _ => .of_eq (by simp [stmt])
  | .var name (some e), r, h =>
    (expr_records e _ (h.part (by simp [Call.parts]))).between (by simp) (references_define ..)
  | .block body, r, h => 
    (stmts_records body (r.push []) (h.part (by simp [Call.parts]))).between rfl rfl
  | .if condition consequent none, r, h =>
    (expr_records condition r (h.part (by simp [Call.parts]))).trans
      (stmt_records consequent _ (h.part (by simp [Call.parts])))
  | .if condition consequent (some alternative), r, h =>
    ((expr_records condition r (h.part (by simp [Call.parts]))).trans
      (stmt_records consequent _ (h.part (by simp [Call.parts])))).trans
        (stmt_records alternative _ (h.part (by simp [Call.parts])))
  | .while condition body, r, h =>
    (expr_records condition r (h.part (by simp [Call.parts]))).trans
      (stmt_records body _ (h.part (by simp [Call.parts])))
  | .function f, r, h =>
    (functionDecl_records f .function (r.named f.name) (h.part (by simp [Call.parts]))).between
      (by simp [named]) rfl
  | .return _ none, _, _ => .of_eq (by simp [stmt])
  | .return _ (some e), _, h =>
    (expr_records e _ (h.part (by simp [Call.parts]))).between (by simp) rfl
  | .class name none ms, r, h =>
    (methods_records ms (r.classBody name) (h.part (by simp [Call.parts]))).between
      (by simp [classBody, named, push]) rfl
  | .class name (some superclass) ms, r, h =>
    ((expr_records superclass _ (h.part (by simp [Call.parts]))).between
        (by simp [beforeSuperclass, named]) rfl).trans
      ((methods_records ms (r.subclassBody name superclass)
        (h.part (by simp [Call.parts]))).between rfl rfl)

theorem stmts_records : ∀ (ss : List Stmt) (r : Resolver), Visits programs (.stmts ss r) →
    Records programs (Stmt.nodesOfAll ss) r (stmts ss r)
  | [], _, _ => .of_eq rfl
  | s :: rest, r, h =>
    (stmt_records s r (h.part (by simp [Call.parts]))).trans
      (stmts_records rest _ (h.part (by simp [Call.parts])))

theorem functionDecl_records : ∀ (f : FunctionDecl) (context : FunctionContext) (r : Resolver),
    Visits programs (.function f context r) →
    Records programs f.nodes r (functionDecl f context r)
  | ⟨_, parameters, body⟩, context, r, h =>
    (stmts_records body (r.functionBody parameters context)
      (h.part (by simp [Call.parts]))).between
      (by simp [functionBody, push]) rfl

theorem methods_records : ∀ (ms : List FunctionDecl) (r : Resolver),
    Visits programs (.methods ms r) →
    Records programs (Stmt.nodesOfMethods ms) r (methods ms r)
  | [], _, _ => .of_eq rfl
  | m :: rest, r, h =>
    (functionDecl_records m m.methodContext r (h.part (by simp [Call.parts]))).trans
      (methods_records rest (functionDecl m m.methodContext r) (h.part (by simp [Call.parts])))

end

/-- What is recorded at an expression. -/
theorem reference_mem_expr {e : Expr} {ref : Reference} (h : e.reference? r = some ref) :
    ref ∈ (expr e r).references := by
  unfold Expr.reference? at h
  split at h
  · obtain rfl := Option.some.inj h
    simp [expr, refer, distance?, (errorIf_notes ..).scopes]
  · obtain rfl := Option.some.inj h
    simp [expr, refer, distance?]
  · split at h
    · cases h
    · next node keyword r hc =>
      obtain rfl := Option.some.inj h
      unfold expr this
      split <;> first | contradiction | exact List.mem_cons_self
  · split at h
    · next node keyword method r hc =>
      obtain rfl := Option.some.inj h
      unfold expr super
      rw [hc]; exact List.mem_cons_self
    · cases h
  · cases h

end Resolver

/-- Resolving a program records identities of it only, and each at most as often as it is there. -/
theorem resolve_nodes (program : List Stmt) :
    ((resolve program).references.map (·.node)).Sublist (Stmt.nodesOfAll program) := by
  obtain ⟨new, he, hs, -⟩ := Resolver.stmts_records program .initial
    (.program (List.mem_singleton_self program))
  have : (resolve program).references = new.reverse := by
    rw [resolve, he]; simp [Resolver.initial]
  rw [this]; exact hs

/-- Each reference is recorded at an expression that the walk visits. -/
theorem resolve_origin {programs : List (List Stmt)} {program : List Stmt}
    (hp : program ∈ programs) {ref : Reference} (h : ref ∈ (resolve program).references) :
    ∃ e r, Visits programs (.expr e r) ∧ e.reference? r = some ref := by
  obtain ⟨new, he, -, ho⟩ := Resolver.stmts_records program .initial (.program hp)
  refine ho ref ?_
  rw [resolve, he] at h
  simpa [Resolver.initial] using h

/-- At an expression that the walk visits its reference is recorded. -/
theorem reference_mem_resolve {programs : List (List Stmt)} {e : Expr} {r : Resolver}
    (h : Visits programs (.expr e r)) {ref : Reference} (he : e.reference? r = some ref) :
    ∃ p ∈ programs, ref ∈ (resolve p).references := by
  obtain ⟨p, hp, hon⟩ := h.onward
  refine ⟨p, hp, List.mem_reverse.2 (hon.references.subset ?_)⟩
  exact Resolver.reference_mem_expr he

end Treewalk
