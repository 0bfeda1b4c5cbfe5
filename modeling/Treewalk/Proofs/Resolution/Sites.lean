import Treewalk.Proofs.Resolution.Contexts
import Treewalk.Proofs.Resolution.Outline
/-!
# A walk goes through the sites

Where the state of a walk says what surrounds a place (`Stands`), walking over what stands there finds
what is at the sites in it, in their order (`Finds`), and leaves the walk standing behind it. So
resolving a program finds what is at its sites (`resolve_finds`).
-/

namespace Treewalk

/-! ### Entries without names -/

mutual

theorem Expr.name?_of_mem_outline : ∀ (e : Expr), ∀ entry ∈ e.outline, entry.name? = none
  | .literal _ => by simp [outline]
  | .grouping inner => by simpa [outline] using inner.name?_of_mem_outline
  | .unary _ operand => by simpa [outline] using operand.name?_of_mem_outline
  | .binary left _ right | .logical left _ right => by
    simp only [outline, List.mem_append]
    exact fun entry h => h.elim (left.name?_of_mem_outline entry) (right.name?_of_mem_outline entry)
  | .variable .. | .this .. | .super .. => by simp [outline, Entry.name?]
  | .assign _ _ value => by
    simp only [outline, List.mem_append, List.mem_singleton]
    rintro entry (h | rfl)
    · exact value.name?_of_mem_outline entry h
    · rfl
  | .call callee _ arguments => by
    simp only [outline, List.cons_append, List.mem_cons, List.mem_append]
    rintro entry (rfl | h | h)
    · rfl
    · exact callee.name?_of_mem_outline entry h
    · exact Expr.name?_of_mem_outlineOfAll arguments entry h
  | .get object _ => by simpa [outline] using object.name?_of_mem_outline
  | .set object _ value => by
    simp only [outline, List.mem_append]
    exact fun entry h => h.elim (value.name?_of_mem_outline entry) (object.name?_of_mem_outline entry)

theorem Expr.name?_of_mem_outlineOfAll : ∀ (es : List Expr), ∀ entry ∈ Expr.outlineOfAll es,
    entry.name? = none
  | [] => by simp [outlineOfAll]
  | e :: rest => by
    simp only [outlineOfAll, List.mem_append]
    exact fun entry h => h.elim (e.name?_of_mem_outline entry)
      (Expr.name?_of_mem_outlineOfAll rest entry)

end

theorem Entry.sitesOfAll_append (sort : Region) (outer : Surroundings) (before a b : List Entry) :
    sitesOfAll sort outer before (a ++ b) =
      sitesOfAll sort outer before a ++ sitesOfAll sort outer (before ++ a) b := by
  induction a generalizing before with
  | nil => simp [sitesOfAll]
  | cons entry rest ih => simp [sitesOfAll, ih, List.append_assoc]

/-! ### Surroundings -/

/-- The body that a region is. -/
def Region.context : Region → FunctionContext
  | .method name => if name.lexeme = initializerName then .initializer else .method
  | _ => .function

namespace Surroundings

variable {around : Surroundings} {sort : Region} {before entries : List Entry} {outer : Surroundings}

def functionContext (around : Surroundings) : FunctionContext :=
  around.body?.elim .none Region.context

def classContext (around : Surroundings) : ClassContext :=
  around.class?.elim .none fun hasSuperclass => if hasSuperclass then .derived else .plain

theorem classContext_eq_none : around.classContext = .none ↔ around.class? = none := by
  unfold classContext
  rcases around.class? with _ | _ | _ <;> simp

/-- The names of scopes are as in the given ones. -/
def Names (around : Surroundings) (scopes : List (Bindings Bool)) : Prop :=
  List.Forall₂ (fun f b => ∀ x, b.contains x = true ↔ f.Declares x) around.scopes scopes

theorem Names.distance? {scopes : List (Bindings Bool)} (h : around.Names scopes) (x : String) :
    scopes.findIdx? (·.contains x) = around.distance? x := by
  unfold Names at h
  unfold Surroundings.distance?
  generalize around.scopes = frames at h ⊢
  induction h with
  | nil => rfl
  | @cons f b frames scopes hx _ ih =>
    have : b.contains x = decide (f.Declares x) := Bool.eq_iff_iff.2 (by simpa using hx x)
    rw [List.findIdx?_cons, List.findIdx?_cons, ih, this]

theorem Names.hasOwn {scopes : List (Bindings Bool)} (h : around.Names scopes) (x : String) :
    (scopes.head?.bind (·.get? x)).isSome = true ↔ around.HasOwn x := by
  unfold Names at h
  unfold HasOwn
  generalize around.scopes = frames at h ⊢
  cases h with
  | nil => simp
  | cons hx _ => simpa [Bindings.contains] using hx x

/-- A region whose statements may declare names that are its own, or global. -/
def IsBody (sort : Region) (outer : Surroundings) : Prop :=
  sort.isScope = true ∨ sort = .program ∧ outer = []

theorem IsBody.not_initializing (h : IsBody sort outer) (x : String) :
    ¬ Initializing (⟨sort, before⟩ :: outer) x := by
  rintro hx
  unfold Initializing at hx
  split at hx
  · next he =>
    obtain ⟨he, -⟩ := List.cons.inj he
    obtain ⟨rfl, -⟩ := Frame.mk.inj he
    rcases h with h | ⟨h, -⟩ <;> cases h
  · exact hx

theorem initializing_cons {name : Token} {f : Frame} {x : String} :
    Initializing (⟨.initializer name, before⟩ :: f :: outer) x ↔ name.lexeme = x ∧
      f.sort.isScope = true ∧ (f.before.map Entry.name?).count (some x) = 1 :=
  Iff.rfl

theorem scopes_cons_of_isScope (h : sort.isScope = true) :
    scopes (⟨sort, before⟩ :: outer) = ⟨sort, before⟩ :: outer.scopes :=
  List.filter_cons_of_pos h

theorem scopes_cons_of_not_isScope (h : ¬ sort.isScope = true) :
    scopes (⟨sort, before⟩ :: outer) = outer.scopes :=
  List.filter_cons_of_neg h

theorem declares_append {x : String} :
    Frame.Declares ⟨sort, before ++ entries⟩ x ↔
      Frame.Declares ⟨sort, before⟩ x ∨ some x ∈ entries.map Entry.name? := by
  simp [Frame.Declares]

theorem declares_declaration {name : Token} {x : String} :
    Frame.Declares ⟨sort, before ++ [.declaration name]⟩ x ↔
      Frame.Declares ⟨sort, before⟩ x ∨ name.lexeme = x := by
  simp [declares_append, Entry.name?, eq_comm]

theorem declares_append_of_no_names (h : ∀ entry ∈ entries, entry.name? = none) (x : String) :
    Frame.Declares ⟨sort, before ++ entries⟩ x ↔ Frame.Declares ⟨sort, before⟩ x := by
  rw [declares_append, or_iff_left]
  intro hx
  obtain ⟨entry, he, hn⟩ := List.mem_map.1 hx
  rw [h entry he] at hn
  cases hn

end Surroundings

/-- The reference that is recorded at the site. -/
def Site.reference? (s : Site) : Option Reference :=
  match s.entry with
  | .expression (.variable node name) | .expression (.assign node name _) =>
    some ⟨node, name.lexeme, s.around.distance? name.lexeme⟩
  | .expression (.this node keyword) =>
    if s.around.class? = none then none
    else some ⟨node, keyword.lexeme, s.around.distance? keyword.lexeme⟩
  | .expression (.super node keyword _) =>
    if s.around.class? = some true then
      some ⟨node, keyword.lexeme, s.around.distance? keyword.lexeme⟩
    else none
  | _ => none

namespace Resolver

open Surroundings

variable {r r' r'' : Resolver} {around outer : Surroundings} {sort : Region}
  {before entries : List Entry} {name : Token}

/-! ### Where a walk stands -/

/-- The state of the walk says what surrounds the place. -/
structure Stands (around : Surroundings) (r : Resolver) : Prop where
  names : around.Names r.scopes
  settled : AllDefined r.scopes.tail
  initializing : ∀ x, r.innermost? x = some false ↔ around.Initializing x
  inFunction : r.inFunction = around.functionContext
  inClass : r.inClass = around.classContext

theorem Stands.of_eq (h : Stands around r) (hs : r'.scopes = r.scopes)
    (hf : r'.inFunction = r.inFunction) (hc : r'.inClass = r.inClass) : Stands around r' where
  names := hs ▸ h.names
  settled := hs ▸ h.settled
  initializing x := by rw [innermost?, hs]; exact h.initializing x
  inFunction := hf.trans h.inFunction
  inClass := hc.trans h.inClass

theorem Stands.notes (h : Stands around r) (hn : Notes r r') : Stands around r' :=
  h.of_eq hn.scopes hn.inFunction hn.inClass

theorem Stands.allDefined (h : Stands around r) (hn : ∀ x, ¬ around.Initializing x) :
    AllDefined r.scopes := by
  cases hs : r.scopes with
  | nil => exact fun _ hb => nomatch hb
  | cons b rest =>
    refine .cons (fun x hx => hn x ((h.initializing x).1 ?_)) ?_
    · rw [innermost?, hs]; exact hx
    · have := h.settled
      rwa [hs] at this

/-- Behind what declares no names the walk stands as in front of it. -/
theorem Stands.behind (h : Stands (⟨sort, before⟩ :: outer) r)
    (he : ∀ entry ∈ entries, entry.name? = none) :
    Stands (⟨sort, before ++ entries⟩ :: outer) r where
  names := by
    have hnames := h.names
    unfold Names at hnames ⊢
    by_cases hsort : sort.isScope = true
    · rw [scopes_cons_of_isScope hsort] at hnames ⊢
      obtain ⟨_, _, hx, hrest, hs⟩ := List.forall₂_cons_left_iff.1 hnames
      rw [hs]
      exact .cons (fun x => (hx x).trans (declares_append_of_no_names he x).symm) hrest
    · rwa [scopes_cons_of_not_isScope hsort] at hnames ⊢
  settled := h.settled
  initializing x := by
    rw [h.initializing]
    cases sort <;> cases outer <;> rfl
  inFunction := h.inFunction
  inClass := h.inClass

/-- Behind a declaration the name is there. -/
theorem Stands.defining (h : Stands (⟨sort, before⟩ :: outer) r) (hb : IsBody sort outer)
    (hs : r'.scopes = Resolver.defining name.lexeme r.scopes) (hf : r'.inFunction = r.inFunction)
    (hc : r'.inClass = r.inClass) :
    Stands (⟨sort, before ++ [.declaration name]⟩ :: outer) r' where
  names := by
    have hnames := h.names
    unfold Names at hnames ⊢
    rcases hb with hsort | ⟨rfl, rfl⟩
    · rw [scopes_cons_of_isScope hsort] at hnames ⊢
      obtain ⟨b, rest, hx, hrest, hr⟩ := List.forall₂_cons_left_iff.1 hnames
      rw [hs, hr]
      refine .cons (fun x => ?_) hrest
      rw [declares_declaration, ← hx x, Bindings.contains, Bindings.contains, Bindings.get?_set]
      by_cases he : name.lexeme = x <;> simp [he]
    · have : r.scopes = [] := List.forall₂_nil_left_iff.1 hnames
      rw [hs, this]
      exact .nil
  settled := by
    have hd := (h.allDefined hb.not_initializing).defining name.lexeme
    rw [hs]
    exact hd.tail
  initializing x := by
    have hd := (h.allDefined hb.not_initializing).defining name.lexeme
    refine ⟨fun hx => ?_, fun hx => absurd hx (hb.not_initializing x)⟩
    rw [innermost?, hs] at hx
    obtain ⟨b, hmem, hget⟩ := Option.bind_eq_some_iff.1 hx
    exact absurd hget (hd b (List.mem_of_mem_head? hmem) x)
  inFunction := hf.trans h.inFunction
  inClass := hc.trans h.inClass

/-- In a scope of its own the walk has the names that stand there. -/
theorem Stands.enter {b : Bindings Bool} (h : Stands around r)
    (hn : ∀ x, ¬ around.Initializing x) (hsort : sort.isScope = true)
    (hs : r'.scopes = b :: r.scopes)
    (hb : ∀ x, b.get? x = if Frame.Declares ⟨sort, entries⟩ x then some true else none)
    (hf : r'.inFunction = functionContext (⟨sort, entries⟩ :: around))
    (hc : r'.inClass = classContext (⟨sort, entries⟩ :: around)) :
    Stands (⟨sort, entries⟩ :: around) r' where
  names := by
    unfold Names
    rw [scopes_cons_of_isScope hsort, hs]
    refine .cons (fun x => ?_) h.names
    rw [Bindings.contains, hb]
    split <;> simp [*]
  settled := by
    rw [hs]
    exact h.allDefined hn
  initializing x := by
    have hbody : IsBody sort around := .inl hsort
    refine ⟨fun hx => ?_, fun hx => absurd hx (hbody.not_initializing x)⟩
    rw [innermost?, hs, List.head?_cons, Option.bind_some, hb] at hx
    split at hx <;> cases hx
  inFunction := hf
  inClass := hc

/-- In a class the walk has the names that are around it. -/
theorem Stands.enterClass {hasSuperclass : Bool} (h : Stands around r)
    (hn : ∀ x, ¬ around.Initializing x) (hs : r'.scopes = r.scopes)
    (hf : r'.inFunction = r.inFunction)
    (hc : r'.inClass = if hasSuperclass then .derived else .plain) :
    Stands (⟨.class hasSuperclass, entries⟩ :: around) r' where
  names := by
    unfold Names
    rw [scopes_cons_of_not_isScope (by simp [Region.isScope]), hs]
    exact h.names
  settled := hs ▸ h.settled
  initializing x := by
    rw [innermost?, hs]
    exact iff_of_false (fun hx => hn x ((h.initializing x).1 hx)) nofun
  inFunction := hf.trans h.inFunction
  inClass := hc

theorem scopes_declare {b : Bindings Bool} {rest : List (Bindings Bool)} (name : Token)
    (hs : r.scopes = b :: rest) : ∃ b', (r.declare name).scopes = b' :: rest ∧
      ∀ x, b'.get? x = if name.lexeme = x then some ((b.get? x).getD false) else b.get? x := by
  have hown : r.innermost? name.lexeme = b.get? name.lexeme := by
    rw [innermost?, hs]; rfl
  unfold declare
  split
  · next h =>
    rw [hown] at h
    obtain ⟨v, hv⟩ := Option.isSome_iff_exists.1 h
    refine ⟨b, hs, fun x => ?_⟩
    split
    · next hx =>
      subst hx
      rw [hv]; rfl
    · rfl
  · next h =>
    rw [hown, Option.not_isSome_iff_eq_none] at h
    refine ⟨b.set name.lexeme false, by rw [scopes_bind, hs]; rfl, fun x => ?_⟩
    rw [Bindings.get?_set]
    split
    · next hx =>
      subst hx
      rw [h]; rfl
    · rfl

/-- In the initial value of a variable its name is declared, and not yet defined if it is new. -/
theorem Stands.enterInitializer (h : Stands (⟨sort, before⟩ :: outer) r) (hb : IsBody sort outer) :
    Stands (⟨.initializer name, []⟩ :: ⟨sort, before ++ [.declaration name]⟩ :: outer)
      (r.declare name) := by
  have hf := (inFunction_declare name r).trans h.inFunction
  have hc := (inClass_declare name r).trans h.inClass
  have hnames := h.names
  unfold Names at hnames
  by_cases hsort : sort.isScope = true
  · rw [scopes_cons_of_isScope hsort] at hnames
    obtain ⟨b, rest, hx, hrest, hr⟩ := List.forall₂_cons_left_iff.1 hnames
    obtain ⟨b', hs, hget⟩ := scopes_declare name hr
    have hall := h.allDefined hb.not_initializing
    rw [hr] at hall
    refine ⟨?_, by rw [hs]; exact hall.tail, fun x => ?_, hf, hc⟩
    · unfold Names
      rw [scopes_cons_of_not_isScope (by simp [Region.isScope]), scopes_cons_of_isScope hsort, hs]
      refine .cons (fun x => ?_) hrest
      rw [declares_declaration, ← hx x, Bindings.contains, Bindings.contains, hget]
      split <;> simp [*]
    · -- the name is not yet defined exactly if there was none
      have hnew : b.get? x = none ↔ (before.map Entry.name?).count (some x) = 0 := by
        rw [List.count_eq_zero, ← Option.not_isSome_iff_eq_none]
        exact not_congr (hx x)
      rw [innermost?, hs, List.head?_cons, Option.bind_some, hget]
      rw [initializing_cons]
      by_cases he : name.lexeme = x
      · have hne : b.get? x ≠ some false := hall b List.mem_cons_self x
        rw [if_pos he, List.map_append, List.count_append]
        simp only [he, hsort, true_and, Entry.name?, List.map_cons, List.map_nil,
          List.count_singleton_self, Nat.add_eq_right, ← hnew]
        cases hv : b.get? x with
        | none => simp
        | some v => simpa [hv] using hne
      · rw [if_neg he]
        exact ⟨fun hx => absurd hx (hall b List.mem_cons_self x), fun hx => absurd hx.1 he⟩
  · obtain ⟨rfl, rfl⟩ : sort = .program ∧ outer = [] := hb.resolve_left hsort
    have hr : r.scopes = [] := List.forall₂_nil_left_iff.1 hnames
    have hs : (r.declare name).scopes = [] := by
      rcases declare_scopes name r with hs | ⟨-, hs⟩ <;> rw [hs, hr]
      rfl
    refine ⟨?_, by rw [hs]; exact List.forall_mem_nil _, fun x => ?_, hf, hc⟩
    · unfold Names
      rw [hs]
      exact .nil
    · rw [innermost?, hs]
      simp [initializing_cons, Region.isScope]

/-! ### What a walk finds -/

/-- The walk has come over the sites: it has found what is there, in their order. -/
structure Finds (sites : List Site) (r r' : Resolver) : Prop where
  references : r'.references = (sites.filterMap Site.reference?).reverse ++ r.references
  errors : r'.errors = (sites.flatMap Site.faults).reverse ++ r.errors

theorem finds_nil (r : Resolver) : Finds [] r r :=
  ⟨rfl, rfl⟩

theorem Finds.trans {s s' : List Site} (h : Finds s r r') (h' : Finds s' r' r'') :
    Finds (s ++ s') r r'' where
  references := by
    rw [h'.references, h.references, List.filterMap_append, List.reverse_append, List.append_assoc]
  errors := by
    rw [h'.errors, h.errors, List.flatMap_append, List.reverse_append, List.append_assoc]

/-- What changes neither references nor errors may stand around a walk. -/
theorem Finds.between {s : List Site} {a b : Resolver} (h : Finds s a b)
    (har : a.references = r.references) (hae : a.errors = r.errors)
    (hbr : r'.references = b.references) (hbe : r'.errors = b.errors) : Finds s r r' :=
  ⟨by rw [hbr, h.references, har], by rw [hbe, h.errors, hae]⟩

theorem finds_at {s : Site} (hr : r'.references = s.reference?.toList ++ r.references)
    (he : r'.errors = s.faults.reverse ++ r.errors) : Finds [s] r r' where
  references := by
    rw [hr]
    cases hs : s.reference? <;> simp [hs]
  errors := by
    rw [he]
    simp

theorem Finds.append {a b : List Entry}
    (h : Finds (Entry.sitesOfAll sort outer before a) r r')
    (h' : Finds (Entry.sitesOfAll sort outer (before ++ a) b) r' r'') :
    Finds (Entry.sitesOfAll sort outer before (a ++ b)) r r'' := by
  rw [Entry.sitesOfAll_append]
  exact h.trans h'

theorem finds_single {s : List Site} {entry : Entry}
    (h : Finds s r r') (hs : entry.sites (⟨sort, before⟩ :: outer) = s) :
    Finds (Entry.sitesOfAll sort outer before [entry]) r r' := by
  simpa [Entry.sitesOfAll, hs] using h

/-! ### Expressions -/

theorem errors_errorIf (c : Bool) (t : Token) (fault : StaticFault) (r : Resolver) :
    (r.errorIf c t fault).errors = (if c then [⟨t, fault⟩] else []) ++ r.errors := by
  unfold errorIf
  split <;> rfl

theorem variable_finds {node : NodeId} (h : Stands around r) :
    Finds [⟨.expression (.variable node name), around⟩] r (expr (.variable node name) r) := by
  refine finds_at ?_ ?_
  · simp [expr, refer, Site.reference?, (errorIf_notes ..).scopes, h.names.distance?]
  · simp only [expr, refer, errors_errorIf, Site.faults, decide_eq_true_eq, h.initializing]
    split <;> rfl

theorem assign_finds {node : NodeId} {value : Expr} (h : Stands around r) :
    Finds [⟨.expression (.assign node name value), around⟩] r (r.refer node name) := by
  refine finds_at ?_ rfl
  simp [refer, Site.reference?, h.names.distance?]

theorem call_finds {callee : Expr} {closing : Token} {arguments : List Expr} :
    Finds [⟨.expression (.call callee closing arguments), around⟩] r (r.checkCallee callee) := by
  refine finds_at (references_checkCallee callee r) ?_
  cases callee with
  | get object name =>
    by_cases h : name.lexeme = "init" <;>
      simp [checkCallee, Site.faults, errors_errorIf, initializerName, h]
  | _ => rfl

theorem this_finds {node : NodeId} (h : Stands around r) :
    Finds [⟨.expression (.this node name), around⟩] r (r.this node name) := by
  have hc : r.inClass = .none ↔ around.class? = none := h.inClass ▸ classContext_eq_none
  unfold this
  cases hr : r.inClass with
  | none =>
    exact finds_at (by simp [Site.reference?, hc.1 hr, error]) (by simp [Site.faults, hc.1 hr, error])
  | plain | derived =>
    have hne : around.class? ≠ none := fun hn => by rw [hc.2 hn] at hr; cases hr
    refine finds_at ?_ (by simp [Site.faults, hne, refer])
    simp [Site.reference?, hne, refer, h.names.distance?]

theorem super_finds {node : NodeId} {method : Token} (h : Stands around r) :
    Finds [⟨.expression (.super node name method), around⟩] r (r.super node name) := by
  have hc := h.inClass
  unfold classContext at hc
  unfold super
  cases hclass : around.class? with
  | none =>
    rw [hclass] at hc
    rw [hc]
    exact finds_at (by simp [Site.reference?, hclass, error]) (by simp [Site.faults, hclass, error])
  | some hasSuperclass =>
    rw [hclass] at hc
    rw [hc]
    cases hasSuperclass with
    | false =>
      exact finds_at (by simp [Site.reference?, hclass, error]) (by simp [Site.faults, hclass, error])
    | true =>
      refine finds_at ?_ (by simp [Site.faults, hclass, refer])
      simp [Site.reference?, hclass, refer, h.names.distance?]

mutual

theorem expr_finds : ∀ (e : Expr) {before : List Entry} {r : Resolver},
    Stands (⟨sort, before⟩ :: outer) r →
    Finds (Entry.sitesOfAll sort outer before e.outline) r (expr e r)
  | .literal _, _, r, _ => finds_nil r
  | .grouping inner, _, _, h => expr_finds inner h
  | .unary _ operand, _, _, h => expr_finds operand h
  | .binary left _ right, _, r, h | .logical left _ right, _, r, h =>
    (expr_finds left h).append
      (expr_finds right ((h.notes (expr_notes left r)).behind left.name?_of_mem_outline))
  | .variable node name, _, _, h => variable_finds h
  | .assign node name value, _, r, h =>
    (expr_finds value h).append
      (assign_finds ((h.notes (expr_notes value r)).behind value.name?_of_mem_outline))
  | .call callee closing arguments, before, r, h => by
    have hcallee : Stands (⟨sort, before ++ [.expression (.call callee closing arguments)]⟩ :: outer)
        (r.checkCallee callee) :=
      (h.notes (checkCallee_notes callee r)).behind (by simp [Entry.name?])
    have harguments := (hcallee.notes (expr_notes callee _)).behind callee.name?_of_mem_outline
    exact Finds.append (a := [_]) call_finds
      ((expr_finds callee hcallee).append (exprs_finds arguments harguments))
  | .get object _, _, _, h => expr_finds object h
  | .set object _ value, _, r, h =>
    (expr_finds value h).append
      (expr_finds object ((h.notes (expr_notes value r)).behind value.name?_of_mem_outline))
  | .this node keyword, _, _, h => this_finds h
  | .super node keyword method, _, _, h => super_finds h

theorem exprs_finds : ∀ (es : List Expr) {before : List Entry} {r : Resolver},
    Stands (⟨sort, before⟩ :: outer) r →
    Finds (Entry.sitesOfAll sort outer before (Expr.outlineOfAll es)) r (exprs es r)
  | [], _, r, _ => finds_nil r
  | e :: rest, _, r, h =>
    (expr_finds e h).append
      (exprs_finds rest ((h.notes (expr_notes e r)).behind e.name?_of_mem_outline))

end

/-! ### Where statements leave the walk -/

theorem inFunction_named (name : Token) (r : Resolver) :
    (r.named name).inFunction = r.inFunction := by
  simp [named, define]

theorem scopes_var (name : Token) (e : Expr) (r : Resolver) :
    (stmt (.var name (some e)) r).scopes = Resolver.defining name.lexeme r.scopes := by
  show ((expr e (r.declare name)).define name).scopes = _
  rw [scopes_define, scopes_expr, ← scopes_define]
  exact scopes_named name r

/-- A statement that declares a name has a region at most behind the name. -/
theorem Stands.declaring {entry : Entry} (h : Stands (⟨sort, before⟩ :: outer) r)
    (hb : IsBody sort outer) {s : Stmt}
    (hs : (stmt s r).scopes = Resolver.defining name.lexeme r.scopes) (he : entry.name? = none) :
    Stands (⟨sort, before ++ [.declaration name, entry]⟩ :: outer) (stmt s r) := by
  have hgains := stmt_gains s r
  have hnamed := h.defining hb hs hgains.inFunction hgains.inClass
  have hbehind : Stands (⟨sort, before ++ [.declaration name] ++ [entry]⟩ :: outer) (stmt s r) :=
    hnamed.behind (by simpa using he)
  rwa [List.append_assoc] at hbehind

/-- A statement leaves the walk behind what it declares. -/
theorem Stands.stmt (hb : IsBody sort outer) : ∀ (s : Stmt) {before : List Entry} {r : Resolver},
    Stands (⟨sort, before⟩ :: outer) r →
    Stands (⟨sort, before ++ s.outline⟩ :: outer) (Resolver.stmt s r)
  | .expression e, _, r, h | .print e, _, r, h =>
    (h.notes (expr_notes e r)).behind e.name?_of_mem_outline
  | .var name none, _, r, h =>
    h.defining hb (scopes_named name r) (inFunction_named name r) (inClass_named name r)
  | .var name (some e), _, r, h => h.declaring hb (scopes_var name e r) rfl
  | .block body, _, r, h =>
    have hgains := stmt_gains (.block body) r
    (h.of_eq (tail_scopes_stmts body (r.push [])) hgains.inFunction hgains.inClass).behind
      (by simp [Stmt.outline, Entry.name?])
  | .if condition consequent none, before, r, h => by
    have hcondition := (h.notes (expr_notes condition r)).behind condition.name?_of_mem_outline
    have hconsequent := hcondition.stmt hb consequent
    rwa [List.append_assoc] at hconsequent
  | .if condition consequent (some alternative), _, r, h => by
    have hcondition := (h.notes (expr_notes condition r)).behind condition.name?_of_mem_outline
    have hboth := (hcondition.stmt hb consequent).stmt hb alternative
    rwa [List.append_assoc, List.append_assoc, ← List.append_assoc condition.outline] at hboth
  | .while condition body, _, r, h => by
    have hcondition := (h.notes (expr_notes condition r)).behind condition.name?_of_mem_outline
    have hbody := hcondition.stmt hb body
    rwa [List.append_assoc] at hbody
  | .function f, _, r, h => h.declaring hb
    ((scopes_functionDecl f .function (r.named f.name)).trans (scopes_named f.name r)) rfl
  | .return keyword none, _, r, h =>
    (h.notes (checkReturn_notes keyword false r)).behind (by simp [Stmt.outline, Entry.name?])
  | .return keyword (some e), _, r, h => by
    refine (h.notes ((checkReturn_notes keyword true r).trans (expr_notes e _))).behind ?_
    simp only [Stmt.outline, List.mem_cons, forall_eq_or_imp]
    exact ⟨rfl, e.name?_of_mem_outline⟩
  | .class name none ms, _, r, h => h.declaring hb
    (show (methods ms (r.classBody name)).scopes.tail = _ by simp) rfl
  | .class name (some superclass) ms, _, r, h => h.declaring hb
    (show (methods ms (r.subclassBody name superclass)).scopes.tail.tail = _ by simp) rfl

/-! ### Statements -/

theorem errors_bind (x : String) (b : Bool) (r : Resolver) : (r.bind x b).errors = r.errors := by
  unfold bind
  split <;> rfl

theorem declare_finds (h : Stands around r) :
    Finds [⟨.declaration name, around⟩] r (r.declare name) := by
  have hown : (r.innermost? name.lexeme).isSome = true ↔ around.HasOwn name.lexeme :=
    h.names.hasOwn name.lexeme
  refine finds_at (references_declare name r) ?_
  unfold declare
  by_cases hd : around.HasOwn name.lexeme
  · rw [if_pos (hown.2 hd)]
    simp [Site.faults, hd, error]
  · rw [if_neg fun hs => hd (hown.1 hs), errors_bind]
    simp [Site.faults, hd]

theorem named_finds (h : Stands around r) :
    Finds [⟨.declaration name, around⟩] r (r.named name) :=
  (declare_finds h).between rfl rfl (references_define name _) (errors_bind ..)

theorem Stands.named (h : Stands (⟨sort, before⟩ :: outer) r) (hb : IsBody sort outer) :
    Stands (⟨sort, before ++ [.declaration name]⟩ :: outer) (r.named name) :=
  h.defining hb (scopes_named name r) (inFunction_named name r) (inClass_named name r)

theorem declareAll_finds (hb : IsBody sort outer) (names : List Token)
    (h : Stands (⟨sort, before⟩ :: outer) r) :
    Finds (Entry.sitesOfAll sort outer before (names.map .declaration)) r (r.declareAll names) ∧
      Stands (⟨sort, before ++ names.map .declaration⟩ :: outer) (r.declareAll names) := by
  induction names generalizing before r with
  | nil =>
    rw [List.map_nil, List.append_nil]
    exact ⟨finds_nil r, h⟩
  | cons name rest ih =>
    obtain ⟨hfinds, hstands⟩ := ih (h.named hb)
    rw [List.append_assoc] at hstands
    exact ⟨Finds.append (a := [_]) (named_finds h) hfinds, hstands⟩

/-- The body that the walk is in does not matter to parameters. -/
theorem named_inFunction (name : Token) (context : FunctionContext) (r : Resolver) :
    ({ r with inFunction := context } : Resolver).named name =
      { r.named name with inFunction := context } := by
  obtain ⟨scopes, _, _, _, _⟩ := r
  cases scopes with
  | nil => rfl
  | cons b outer =>
    by_cases h : (b.get? name.lexeme).isSome = true <;>
      simp [Resolver.named, declare, define, bind, innermost?, error, h]

theorem declareAll_inFunction (names : List Token) (context : FunctionContext) (r : Resolver) :
    Resolver.declareAll names { r with inFunction := context } =
      { r.declareAll names with inFunction := context } := by
  induction names generalizing r with
  | nil => rfl
  | cons name rest ih =>
    show Resolver.declareAll rest (Resolver.named name _) = _
    rw [named_inFunction, ih]
    rfl

theorem checkReturn_finds {keyword : Token} {hasValue : Bool} (h : Stands around r) :
    Finds [⟨.return keyword hasValue, around⟩] r (r.checkReturn keyword hasValue) := by
  refine finds_at (references_checkReturn keyword hasValue r) ?_
  have hf := h.inFunction
  unfold functionContext at hf
  unfold checkReturn
  rw [errors_errorIf, errors_errorIf, hf]
  unfold Site.faults
  dsimp only
  match around.body? with
  | none => simp
  | some (.method name) =>
    by_cases hname : name.lexeme = "init" <;> cases hasValue <;>
      simp [Region.context, initializerName, hname]
  | some .program | some .block | some .function | some (.initializer _) | some (.class _)
  | some .super | some .this => simp [Region.context]

theorem checkSuperclass_finds {superclass : Expr} :
    Finds [⟨.superclass name superclass, around⟩] r (r.checkSuperclass name superclass) := by
  refine finds_at (references_checkSuperclass name superclass r) ?_
  cases superclass with
  | «variable» node superName =>
    by_cases h : superName.lexeme = name.lexeme <;>
      simp [checkSuperclass, Site.faults, errors_errorIf, h]
  | _ => rfl

/-- In front of the parameters of a function or method. -/
theorem Stands.enterFunction {context : FunctionContext} (h : Stands around r)
    (hn : ∀ x, ¬ around.Initializing x) (hsort : sort.isScope = true)
    (hf : functionContext (⟨sort, []⟩ :: around) = context)
    (hc : classContext (⟨sort, []⟩ :: around) = around.classContext) :
    Stands (⟨sort, []⟩ :: around) { r.push [] with inFunction := context } :=
  h.enter hn hsort rfl (by simp [Bindings.get?, Frame.Declares]) hf.symm (h.inClass.trans hc.symm)

/-- In a scope that has one name of its own. -/
theorem Stands.enterImplicit {x : String} (h : Stands around r)
    (hn : ∀ x, ¬ around.Initializing x) (hsort : sort.isScope = true)
    (hf : functionContext (⟨sort, [.implicit x]⟩ :: around) = around.functionContext)
    (hc : classContext (⟨sort, [.implicit x]⟩ :: around) = around.classContext) :
    Stands (⟨sort, [.implicit x]⟩ :: around) (r.push [(x, true)]) :=
  h.enter hn hsort rfl
    (fun y => by
      by_cases hy : x = y <;> simp [Bindings.get?, Frame.Declares, Entry.name?, hy, Ne.symm])
    (h.inFunction.trans hf.symm) (h.inClass.trans hc.symm)

/-- A name that a scope has of itself refers to nothing and is no error. -/
theorem implicit_finds {x : String}
    (h : Finds (Entry.sitesOfAll sort around [.implicit x] entries) (r.push [(x, true)]) r') :
    Finds (Entry.sites around (.region sort (.implicit x :: entries))) r r'.pop :=
  Finds.trans (s := [_]) ⟨rfl, rfl⟩ (h.between rfl rfl rfl rfl)

/-- In front of a superclass. -/
theorem Stands.beforeSuperclass {superclass : Expr} (h : Stands around (r.named name))
    (hn : ∀ x, ¬ around.Initializing x) :
    Stands (⟨.class true, [.superclass name superclass]⟩ :: around)
      (r.beforeSuperclass name superclass) :=
  h.enterClass hn (scopes_checkSuperclass ..) (checkSuperclass_notes ..).inFunction rfl

theorem beforeSuperclass_finds {superclass : Expr} :
    Finds (Entry.sitesOfAll sort outer before [.superclass name superclass]) (r.named name)
      (r.beforeSuperclass name superclass) :=
  finds_single (checkSuperclass_finds.between rfl rfl rfl rfl) rfl

theorem functionContext_method (m : FunctionDecl) :
    functionContext (⟨.method m.name, before⟩ :: outer) = m.methodContext := by
  show Region.context (.method m.name) = _
  simp [Region.context, FunctionDecl.methodContext, FunctionDecl.isInitializer]

/-! ### Statements -/

mutual

theorem stmt_finds : ∀ (s : Stmt) {sort : Region} {outer : Surroundings} {before : List Entry}
    {r : Resolver}, IsBody sort outer → Stands (⟨sort, before⟩ :: outer) r →
    Finds (Entry.sitesOfAll sort outer before s.outline) r (stmt s r)
  | .expression e, _, _, _, _, _, h | .print e, _, _, _, _, _, h => expr_finds e h
  | .var _ none, _, _, _, _, _, h => finds_single (named_finds h) rfl
  | .var name (some e), _, _, _, r, hb, h => by
    have hinside : Stands _ (r.declare name) := h.enterInitializer hb
    have hinitial := expr_finds e hinside
    exact Finds.append (a := [_]) (declare_finds h)
      (finds_single (hinitial.between rfl rfl (references_define ..) (errors_bind ..)) rfl)
  | .block body, _, _, _, r, hb, h =>
    have hinside : Stands (⟨.block, []⟩ :: _) (r.push []) :=
      h.enter hb.not_initializing rfl rfl (by simp [Bindings.get?, Frame.Declares]) h.inFunction
        h.inClass
    finds_single ((stmts_finds body (.inl rfl) hinside).between rfl rfl rfl rfl) rfl
  | .if condition consequent none, _, _, _, r, hb, h =>
    have hcondition := (h.notes (expr_notes condition r)).behind condition.name?_of_mem_outline
    (expr_finds condition h).append (stmt_finds consequent hb hcondition)
  | .if condition consequent (some alternative), _, _, before, r, hb, h => by
    have hcondition := (h.notes (expr_notes condition r)).behind condition.name?_of_mem_outline
    have hconsequent := Stands.stmt hb consequent hcondition
    rw [List.append_assoc] at hconsequent
    exact ((expr_finds condition h).append (stmt_finds consequent hb hcondition)).append
      (stmt_finds alternative hb hconsequent)
  | .while condition body, _, _, _, r, hb, h =>
    have hcondition := (h.notes (expr_notes condition r)).behind condition.name?_of_mem_outline
    (expr_finds condition h).append (stmt_finds body hb hcondition)
  | .function f, _, _, _, _, hb, h =>
    have hf : Finds (Entry.sitesOfAll .function _ [] f.outline) _ _ :=
      function_finds f rfl rfl rfl (h.named hb) hb.not_initializing
    Finds.append (a := [_]) (named_finds h) (finds_single hf rfl)
  | .return _ none, _, _, _, _, _, h => finds_single (checkReturn_finds h) rfl
  | .return keyword (some e), _, _, before, r, _, h =>
    have hvalue : Stands (⟨_, before ++ [.return keyword true]⟩ :: _) (r.checkReturn keyword true) :=
      (h.notes (checkReturn_notes keyword true r)).behind (by simp [Entry.name?])
    Finds.append (a := [_]) (checkReturn_finds h) (expr_finds e hvalue)
  | .class name none ms, _, _, _, r, hb, h => by
    have hnamed : Stands _ (r.named name) := h.named hb
    have hclass : Stands (⟨.class false, []⟩ :: _) { r.named name with inClass := .plain } :=
      hnamed.enterClass hb.not_initializing rfl rfl rfl
    have hthis : Stands (⟨.this, [.implicit "this"]⟩ :: _) _ :=
      hclass.enterImplicit nofun rfl rfl rfl
    have hbody : Finds (Entry.sitesOfAll (.class false) _ [] _) _ _ :=
      finds_single (implicit_finds (methods_finds ms hthis)) rfl
    exact Finds.append (a := [_]) (named_finds h)
      (finds_single (hbody.between rfl rfl rfl rfl) rfl)
  | .class name (some superclass) ms, sort, outer, before, r, hb, h => by
    have hnamed : Stands _ (r.named name) := h.named hb
    have hclass : Stands _ (r.beforeSuperclass name superclass) :=
      hnamed.beforeSuperclass hb.not_initializing
    have hbehind := (hclass.notes (expr_notes superclass _)).behind superclass.name?_of_mem_outline
    have hsuper : Stands (⟨.super, [.implicit "super"]⟩ :: _) _ :=
      hbehind.enterImplicit nofun rfl rfl rfl
    have hthis : Stands (⟨.this, [.implicit "this"]⟩ :: _) _ :=
      hsuper.enterImplicit nofun rfl rfl rfl
    have hmethods := implicit_finds (finds_single (implicit_finds (methods_finds ms hthis)) rfl)
    have hbody := (expr_finds superclass hclass).append (finds_single hmethods rfl)
    have hbefore : Finds (Entry.sitesOfAll (.class true)
        (⟨sort, before ++ [.declaration name]⟩ :: outer) [] [.superclass name superclass])
        (r.named name) (r.beforeSuperclass name superclass) :=
      beforeSuperclass_finds
    have hall := hbefore.append hbody
    exact Finds.append (a := [_]) (named_finds h)
      (finds_single (hall.between rfl rfl rfl rfl) rfl)

theorem stmts_finds : ∀ (ss : List Stmt) {sort : Region} {outer : Surroundings}
    {before : List Entry} {r : Resolver}, IsBody sort outer → Stands (⟨sort, before⟩ :: outer) r →
    Finds (Entry.sitesOfAll sort outer before (Stmt.outlineOfAll ss)) r (stmts ss r)
  | [], _, _, _, r, _, _ => finds_nil r
  | s :: rest, _, _, _, _, hb, h =>
    (stmt_finds s hb h).append (stmts_finds rest hb (Stands.stmt hb s h))

theorem function_finds : ∀ (f : FunctionDecl) {sort : Region} {around : Surroundings}
    {context : FunctionContext} {r : Resolver}, sort.isScope = true →
    functionContext (⟨sort, []⟩ :: around) = context →
    classContext (⟨sort, []⟩ :: around) = around.classContext →
    Stands around r → (∀ x, ¬ around.Initializing x) →
    Finds (Entry.sitesOfAll sort around [] f.outline) r (functionDecl f context r)
  | ⟨_, parameters, body⟩, sort, around, context, r, hsort, hf, hc, h, hn => by
    obtain ⟨hparameters, hinside⟩ :=
      declareAll_finds (.inl hsort) parameters (h.enterFunction hn hsort hf hc)
    have hbody := hparameters.append (stmts_finds body (.inl hsort) hinside)
    rw [declareAll_inFunction] at hbody
    exact hbody.between rfl rfl rfl rfl

theorem methods_finds : ∀ (ms : List FunctionDecl) {around : Surroundings} {before : List Entry}
    {r : Resolver}, Stands (⟨.this, before⟩ :: around) r →
    Finds (Entry.sitesOfAll .this around before (Stmt.outlineOfMethods ms)) r (methods ms r)
  | [], _, _, r, _ => finds_nil r
  | m :: rest, _, before, r, h => by
    have hgains := functionDecl_gains m m.methodContext r
    have hrest : Stands (⟨.this, before ++ [.region (.method m.name) m.outline]⟩ :: _)
        (functionDecl m m.methodContext r) :=
      (h.of_eq (scopes_functionDecl m m.methodContext r) hgains.inFunction hgains.inClass).behind
        (by simp [Entry.name?])
    have hm : Finds (Entry.sitesOfAll (.method m.name) _ [] m.outline) _ _ :=
      function_finds m rfl (functionContext_method m) rfl h nofun
    exact Finds.append (a := [_]) (finds_single hm rfl) (methods_finds rest hrest)

end

end Resolver

/-- Resolving a program records the references at its sites and finds their faults, each in the order
of the text. -/
theorem resolve_finds (program : List Stmt) :
    (resolve program).references = (Site.all program).filterMap Site.reference? ∧
      (resolve program).errors = (Site.all program).flatMap Site.faults := by
  have hinitial : Resolver.Stands [⟨.program, []⟩] .initial :=
    ⟨.nil, nofun, fun x => iff_of_false nofun nofun, rfl, rfl⟩
  have h := Resolver.stmts_finds program (.inr ⟨rfl, rfl⟩) hinitial
  constructor
  · rw [resolve, h.references]
    simp [Resolver.initial, Site.all]
  · rw [resolve, h.errors]
    simp [Resolver.initial, Site.all]

end Treewalk
