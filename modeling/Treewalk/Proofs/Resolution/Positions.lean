import Treewalk.Proofs.Resolution.Sites
import Treewalk.Proofs.Resolution.Table
import Treewalk.Session
/-!
# Names and errors by position

What resolving a program finds is what its sites say, whether or not there are errors. The errors are
the faults of the sites (`resolve_errors`), and the table has for each reference the distance that its
surroundings give it (`Session.resolve_distances`).
-/

namespace Treewalk

/-! ### Identities -/

section

variable {sort : Region} {outer : Surroundings}

theorem nodes_sitesOfAll_append (before a b : List Entry) :
    (Entry.sitesOfAll sort outer before (a ++ b)).filterMap Site.node? =
      (Entry.sitesOfAll sort outer before a).filterMap Site.node? ++
        (Entry.sitesOfAll sort outer (before ++ a) b).filterMap Site.node? := by
  rw [Entry.sitesOfAll_append, List.filterMap_append]

mutual

theorem Expr.nodes_outline : ∀ (e : Expr) (before : List Entry),
    (Entry.sitesOfAll sort outer before e.outline).filterMap Site.node? = e.nodes
  | .literal _, _ => rfl
  | .grouping inner, before => inner.nodes_outline before
  | .unary _ operand, before => operand.nodes_outline before
  | .binary left _ right, before | .logical left _ right, before => by
    simp only [outline, nodes, nodes_sitesOfAll_append, left.nodes_outline, right.nodes_outline]
  | .variable .., _ | .this .., _ | .super .., _ => rfl
  | .assign node name value, before => by
    simp only [outline, nodes, nodes_sitesOfAll_append, value.nodes_outline]
    rfl
  | .call callee closing arguments, before => by
    simp only [outline, nodes, List.cons_append]
    rw [← List.singleton_append, nodes_sitesOfAll_append, nodes_sitesOfAll_append,
      callee.nodes_outline, Expr.nodes_outlineOfAll arguments]
    rfl
  | .get object _, before => object.nodes_outline before
  | .set object _ value, before => by
    simp only [outline, nodes, nodes_sitesOfAll_append, value.nodes_outline, object.nodes_outline]

theorem Expr.nodes_outlineOfAll : ∀ (es : List Expr) (before : List Entry),
    (Entry.sitesOfAll sort outer before (Expr.outlineOfAll es)).filterMap Site.node? =
      Expr.nodesOfAll es
  | [], _ => rfl
  | e :: rest, before => by
    simp only [outlineOfAll, nodesOfAll, nodes_sitesOfAll_append, e.nodes_outline,
      Expr.nodes_outlineOfAll rest]

end

theorem nodes_region (inner : Region) (before entries rest : List Entry) :
    (Entry.sitesOfAll sort outer before (.region inner entries :: rest)).filterMap Site.node? =
      (Entry.sitesOfAll inner (⟨sort, before⟩ :: outer) [] entries).filterMap Site.node? ++
        (Entry.sitesOfAll sort outer (before ++ [.region inner entries]) rest).filterMap Site.node? :=
  List.filterMap_append

theorem nodes_sitesOfAll_declarations (names : List Token) (before : List Entry) :
    (Entry.sitesOfAll sort outer before (names.map .declaration)).filterMap Site.node? = [] := by
  induction names generalizing before with
  | nil => rfl
  | cons name rest ih => exact ih _

/-- A declaration has no identity. -/
theorem nodes_declaration (name : Token) (before rest : List Entry) :
    (Entry.sitesOfAll sort outer before (.declaration name :: rest)).filterMap Site.node? =
      (Entry.sitesOfAll sort outer (before ++ [.declaration name]) rest).filterMap Site.node? :=
  rfl

theorem nodes_implicit (x : String) (before rest : List Entry) :
    (Entry.sitesOfAll sort outer before (.implicit x :: rest)).filterMap Site.node? =
      (Entry.sitesOfAll sort outer (before ++ [.implicit x]) rest).filterMap Site.node? :=
  rfl

theorem nodes_superclass (name : Token) (e : Expr) (before rest : List Entry) :
    (Entry.sitesOfAll sort outer before (.superclass name e :: rest)).filterMap Site.node? =
      (Entry.sitesOfAll sort outer (before ++ [.superclass name e]) rest).filterMap Site.node? :=
  rfl

theorem nodes_nil (before : List Entry) :
    (Entry.sitesOfAll sort outer before []).filterMap Site.node? = [] :=
  rfl

mutual

theorem Stmt.nodes_outline : ∀ (s : Stmt) {sort : Region} {outer : Surroundings}
    (before : List Entry),
    (Entry.sitesOfAll sort outer before s.outline).filterMap Site.node? = s.nodes
  | .expression e, _, _, before | .print e, _, _, before => e.nodes_outline before
  | .var _ none, _, _, _ | .return _ none, _, _, _ => rfl
  | .var name (some e), _, _, before => by
    simp only [Stmt.outline, Stmt.nodes, nodes_declaration, nodes_region, nodes_nil, e.nodes_outline,
      List.append_nil]
  | .block body, _, _, before => by
    simp only [Stmt.outline, Stmt.nodes, nodes_region, nodes_nil, Stmt.nodes_outlineOfAll body,
      List.append_nil]
  | .if condition consequent none, _, _, before => by
    simp only [Stmt.outline, Stmt.nodes, nodes_sitesOfAll_append, condition.nodes_outline,
      consequent.nodes_outline]
  | .if condition consequent (some alternative), _, _, before => by
    simp only [Stmt.outline, Stmt.nodes, nodes_sitesOfAll_append, condition.nodes_outline,
      consequent.nodes_outline, alternative.nodes_outline]
  | .while condition body, _, _, before => by
    simp only [Stmt.outline, Stmt.nodes, nodes_sitesOfAll_append, condition.nodes_outline,
      body.nodes_outline]
  | .function f, _, _, before => by
    simp only [Stmt.outline, Stmt.nodes, nodes_declaration, nodes_region, nodes_nil,
      f.nodes_outline, List.append_nil]
  | .return _ (some e), _, _, before => e.nodes_outline _
  | .class name none methods, _, _, before => by
    simp only [Stmt.outline, Stmt.nodes, nodes_declaration, nodes_implicit, nodes_region, nodes_nil,
      Stmt.nodes_outlineOfMethods methods, List.append_nil]
  | .class name (some superclass) methods, _, _, before => by
    simp only [Stmt.outline, Stmt.nodes, List.cons_append, nodes_declaration, nodes_region,
      nodes_superclass, nodes_sitesOfAll_append, superclass.nodes_outline, nodes_implicit, nodes_nil,
      Stmt.nodes_outlineOfMethods methods, List.append_nil]

theorem Stmt.nodes_outlineOfAll : ∀ (ss : List Stmt) {sort : Region} {outer : Surroundings}
    (before : List Entry),
    (Entry.sitesOfAll sort outer before (Stmt.outlineOfAll ss)).filterMap Site.node? =
      Stmt.nodesOfAll ss
  | [], _, _, _ => rfl
  | s :: rest, _, _, before => by
    simp only [Stmt.outlineOfAll, Stmt.nodesOfAll, nodes_sitesOfAll_append, s.nodes_outline,
      Stmt.nodes_outlineOfAll rest]

theorem FunctionDecl.nodes_outline : ∀ (f : FunctionDecl) {sort : Region} {outer : Surroundings}
    (before : List Entry),
    (Entry.sitesOfAll sort outer before f.outline).filterMap Site.node? = f.nodes
  | ⟨_, parameters, body⟩, _, _, before => by
    simp only [FunctionDecl.outline, FunctionDecl.nodes, nodes_sitesOfAll_append,
      nodes_sitesOfAll_declarations, List.nil_append, Stmt.nodes_outlineOfAll body]

theorem Stmt.nodes_outlineOfMethods : ∀ (ms : List FunctionDecl) {sort : Region}
    {outer : Surroundings} (before : List Entry),
    (Entry.sitesOfAll sort outer before (Stmt.outlineOfMethods ms)).filterMap Site.node? =
      Stmt.nodesOfMethods ms
  | [], _, _, _ => rfl
  | m :: rest, _, _, before => by
    simp only [Stmt.outlineOfMethods, Stmt.nodesOfMethods, nodes_region, m.nodes_outline,
      Stmt.nodes_outlineOfMethods rest]

end

end

/-- Each identity of a program is at as many sites as it is in the tree. -/
theorem Site.nodes_all (p : List Stmt) : (all p).filterMap node? = Stmt.nodesOfAll p :=
  Stmt.nodes_outlineOfAll p []

/-! ### The table -/

namespace Site

theorem node?_of_reference? {s : Site} {ref : Reference} (h : s.reference? = some ref) :
    s.node? = some ref.node := by
  unfold reference? at h
  unfold node?
  split at h <;> try split at h
  all_goals first
    | cases h; done
    | simp_all only [Option.some.injEq]; subst h; rfl

/-- The distance of a site is the one of the reference that is recorded there. -/
theorem resolved?_eq (s : Site) : s.resolved? = s.reference?.bind (·.distance) := by
  obtain ⟨entry, around⟩ := s
  cases entry with
  | expression e =>
    cases e with
    | this node keyword =>
      cases h : around.class? <;> simp [reference?, resolved?, h]
    | super node keyword method =>
      by_cases h : around.class? = some true <;> simp [reference?, resolved?, h]
    | _ => rfl
  | _ => rfl

/-- What is recorded at the sites has identities of theirs only. -/
theorem reference_nodes_sublist (l : List Site) :
    ((l.filterMap reference?).map (·.node)).Sublist (l.filterMap node?) := by
  induction l with
  | nil => exact List.Sublist.refl _
  | cons s rest ih =>
    cases href : s.reference? with
    | none =>
      rw [List.filterMap_cons_none href]
      exact ih.trans ((List.sublist_cons_self s rest).filterMap node?)
    | some ref =>
      rw [List.filterMap_cons_some href, List.filterMap_cons_some (node?_of_reference? href)]
      exact ih.cons_cons ref.node

/-- Where no identity is at two sites, recording what is at them gives each the distance of its own
site. -/
theorem record_sites {l : List Site} (hn : (l.filterMap node?).Nodup) (d : Distances) {s : Site}
    (hs : s ∈ l) {node : NodeId} (hnode : s.node? = some node) :
    (d.record (l.filterMap reference?))[node]? = s.resolved?.or d[node]? := by
  have hrefs := hn.sublist (reference_nodes_sublist l)
  rw [resolved?_eq]
  cases href : s.reference? with
  | some ref =>
    obtain rfl : ref.node = node := Option.some.inj ((node?_of_reference? href).symm.trans hnode)
    exact Distances.record_of_mem hrefs (List.mem_filterMap.2 ⟨s, hs, href⟩)
  | none =>
    refine Distances.record_of_notMem fun hmem => ?_
    obtain ⟨ref, hrefs, rfl⟩ := List.mem_map.1 hmem
    obtain ⟨s', hs', href'⟩ := List.mem_filterMap.1 hrefs
    rw [List.filterMap_eq_flatMap_toList] at hn
    have hsame : s = s' := eq_of_mem_of_nodup_flatMap hn hs hs' (x := ref.node) (by simp [hnode])
      (by simp [node?_of_reference? href'])
    rw [← hsame, href] at href'
    cases href'

end Site

namespace Session

/-- After a program is resolved, each reference in it has the distance to the innermost scope around
it that has its name declared in front of it. Where there is none, and for all identities that are
not in the program, the table is as it was. No identity is recorded more than once, and errors do not
matter. -/
theorem resolve_distances (s : Session) (p : List Stmt) (hp : (Stmt.nodesOfAll p).Nodup) :
    let d := (s.resolve p).2.distances
    (Site.all p).filterMap Site.node? = Stmt.nodesOfAll p ∧
      (∀ site ∈ Site.all p, ∀ node, site.node? = some node →
        d[node]? = site.resolved?.or s.distances[node]?) ∧
      ((s.resolve p).1.references.map (·.node)).Nodup ∧
      ∀ node, node ∉ Stmt.nodesOfAll p → d[node]? = s.distances[node]? := by
  have hd : (s.resolve p).2.distances =
      s.distances.record ((Site.all p).filterMap Site.reference?) :=
    congrArg s.distances.record (resolve_finds p).1
  rw [hd]
  refine ⟨Site.nodes_all p, fun site hsite node hnode => ?_, hp.sublist (resolve_nodes p),
    fun node hnode => ?_⟩
  · rw [← Site.nodes_all p] at hp
    exact Site.record_sites hp s.distances hsite hnode
  · rw [← (resolve_finds p).1]
    exact Distances.record_of_notMem fun hmem => hnode ((resolve_nodes p).subset hmem)

/-- The reference to `a` in `f` passes over the block that declares it only later. -/
def laterDeclared : String :=
  "\x7b var a = 1; \x7b fun f(b) \x7b return a + b; \x7d var a = a; \x7d \x7d"

theorem resolve_distances_laterDeclared :
    let p := (Source.read laterDeclared 0).statements
    let d := ((Session.initial .unlimited).resolve p).2.distances
    (Stmt.nodesOfAll p).Nodup ∧
      ((Site.all p).filter (·.node?.isSome)).map Site.resolved? = [some 2, some 0, some 0] ∧
      ∀ site ∈ Site.all p, ∀ node, site.node? = some node →
        d[node]? = site.resolved?.or (Session.initial .unlimited).distances[node]? := by
  intro p d
  have hp : (Stmt.nodesOfAll p).Nodup := by decide +kernel
  exact ⟨hp, by decide +kernel, (resolve_distances (Session.initial .unlimited) p hp).2.1⟩

end Session

/-- The errors that resolving a program finds are what is wrong at its sites, in the order of the
text. -/
theorem resolve_errors (p : List Stmt) : (resolve p).errors = (Site.all p).flatMap Site.faults :=
  (resolve_finds p).2

example :
    let p := (Source.read
      ("class A \x7b init() \x7b fun f() \x7b return 1; \x7d return 1; \x7d \x7d " ++
        "\x7b var a = a; \x7d return;") 0).statements
    (resolve p).errors.map (·.fault) =
      [.returnFromInitializer, .ownInitializer, .returnAtTopLevel] := by
  decide +kernel

end Treewalk
