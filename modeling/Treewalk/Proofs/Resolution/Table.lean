import Std.Data.TreeMap.Lemmas
import Treewalk.Proofs.Resolution.Identities
/-!
# The table of distances

In programs that use each identity once, a node that holds an identity is visited in one state only
(`Visits.unique`). Resolving such programs one after the other makes a table that has for each
expression exactly what the walk found there (`Distances.Agrees`).
-/

namespace Treewalk

/-! ### Each node is visited once -/

namespace Call

/-- The identities in what the walk is in front of. -/
def nodes : Call → List NodeId
  | .expr e _ => e.nodes
  | .exprs es _ => Expr.nodesOfAll es
  | .stmt s _ => s.nodes
  | .stmts ss _ => Stmt.nodesOfAll ss
  | .function f _ _ => f.nodes
  | .methods ms _ => Stmt.nodesOfMethods ms

/-- The identity of the expression itself. -/
def own : Call → List NodeId
  | .expr (.variable node _) _ | .expr (.assign node _ _) _ | .expr (.this node _) _
  | .expr (.super node _ _) _ => [node]
  | _ => []

theorem nodes_eq (c : Call) : c.nodes = c.parts.flatMap nodes ++ c.own := by
  match c with
  | .expr e r => cases e <;> simp [nodes, parts, own, Expr.nodes]
  | .exprs [] _ | .exprs (_ :: _) _ => simp [nodes, parts, own, Expr.nodesOfAll]
  | .stmts [] _ | .stmts (_ :: _) _ => simp [nodes, parts, own, Stmt.nodesOfAll]
  | .function ⟨_, _, _⟩ _ _ => simp [nodes, parts, own, FunctionDecl.nodes]
  | .methods [] _ | .methods (_ :: _) _ => simp [nodes, parts, own, Stmt.nodesOfMethods]
  | .stmt s r =>
    match s with
    | .expression _ | .print _ | .var _ none | .var _ (some _) | .block _ | .if _ _ none
    | .if _ _ (some _) | .while _ _ | .function _ | .return _ none | .return _ (some _)
    | .class _ none _ | .class _ (some _) _ => simp [nodes, parts, own, Stmt.nodes]

/-- How large what the walk is in front of is. -/
noncomputable def weight : Call → Nat
  | .expr e _ => sizeOf e
  | .exprs es _ => sizeOf es
  | .stmt s _ => sizeOf s
  | .stmts ss _ => sizeOf ss
  | .function f _ _ => sizeOf f
  | .methods ms _ => sizeOf ms

theorem weight_lt {c p : Call} (h : p ∈ c.parts) : p.weight < c.weight := by
  match c with
  | .expr e r =>
    cases e <;> simp only [parts, List.mem_cons, List.not_mem_nil, or_false] at h <;>
      (try rcases h with rfl | rfl) <;> simp [weight] <;> omega
  | .exprs [] _ | .stmts [] _ | .methods [] _ => cases h
  | .exprs (_ :: _) _ | .stmts (_ :: _) _ | .methods (_ :: _) _ =>
    simp only [parts, List.mem_cons, List.not_mem_nil, or_false] at h
    rcases h with rfl | rfl
    · simp [weight]
      omega
    · simp [weight]
  | .function ⟨_, _, _⟩ _ _ =>
    obtain rfl := List.mem_singleton.1 h
    simp [weight]
  | .stmt s r =>
    match s with
    | .var _ none | .return _ none => cases h
    | .expression _ | .print _ | .var _ (some _) | .block _ | .function _ | .return _ (some _)
    | .class _ none _ =>
      obtain rfl := List.mem_singleton.1 h
      simp [weight] <;> omega
    | .if _ _ none | .while _ _ | .class _ (some _) _ =>
      simp only [parts, List.mem_cons, List.not_mem_nil, or_false] at h
      rcases h with rfl | rfl
      · simp [weight]
        omega
      · simp [weight]
    | .if _ _ (some _) =>
      simp only [parts, List.mem_cons, List.not_mem_nil, or_false] at h
      rcases h with rfl | rfl | rfl <;> simp [weight] <;> omega

/-- `p` is `c`, or a part of it, or a part of a part and so on. -/
abbrev Within (c p : Call) : Prop := Relation.ReflTransGen (fun c p => p ∈ c.parts) c p

namespace Within

variable {c p : Call} {n : NodeId}

theorem nodes_subset (h : Within c p) : p.nodes ⊆ c.nodes := by
  induction h with
  | refl => exact List.Subset.refl _
  | tail _ hp ih =>
    refine List.Subset.trans (fun n hn => ?_) ih
    rw [nodes_eq]
    exact List.mem_append_left _ (List.mem_flatMap.2 ⟨_, hp, hn⟩)

theorem weight_le (h : Within c p) : p.weight ≤ c.weight := by
  induction h with
  | refl => exact Nat.le_refl _
  | tail _ hp ih => exact Nat.le_trans (Nat.le_of_lt (weight_lt hp)) ih

/-- Only a call itself is in it and as large. -/
theorem eq_of_weight_eq (h : Within c p) (hw : p.weight = c.weight) : c = p := by
  rcases Relation.ReflTransGen.cases_tail h with rfl | ⟨d, hd, hp⟩
  · rfl
  · have := weight_lt hp
    have := weight_le hd
    omega

end Within

end Call

/-- Lists without common members have a given member in one of them only. -/
theorem eq_of_mem_of_nodup_flatMap {α β : Type} {l : List α} {f : α → List β}
    (h : (l.flatMap f).Nodup) {a b : α} (ha : a ∈ l) (hb : b ∈ l) {x : β} (hxa : x ∈ f a)
    (hxb : x ∈ f b) : a = b := by
  by_contra hne
  have hp := (List.nodup_flatMap.1 h).2
  have : Std.Symm (Function.onFun List.Disjoint f) := ⟨fun _ _ hd _ hx hy => hd hy hx⟩
  exact hp.forall ha hb hne hxa hxb

namespace Visits

variable {programs : List (List Stmt)} {c c' : Call} {n : NodeId}

theorem nodup (hn : (programs.flatMap Stmt.nodesOfAll).Nodup) (h : Visits programs c) :
    c.nodes.Nodup := by
  induction h with
  | program hp => exact (List.nodup_flatMap.1 hn).1 _ hp
  | part _ hp ih =>
    rw [Call.nodes_eq] at ih
    exact (List.nodup_flatMap.1 (List.nodup_append.1 ih).1).1 _ hp

theorem of_within (h : Visits programs c) (hw : c.Within c') : Visits programs c' := by
  induction hw with
  | refl => exact h
  | tail _ hp ih => exact ih.part hp

theorem exists_program (h : Visits programs c) :
    ∃ p ∈ programs, Call.Within (.stmts p .initial) c := by
  induction h with
  | program hp => exact ⟨_, hp, .refl⟩
  | part _ hp ih =>
    obtain ⟨p, hmem, hw⟩ := ih
    exact ⟨p, hmem, hw.tail hp⟩

/-- Of two calls that hold one identity, one is within the other. -/
theorem within_or_within (hn : (programs.flatMap Stmt.nodesOfAll).Nodup) (h : Visits programs c)
    (h' : Visits programs c') (hc : n ∈ c.nodes) (hc' : n ∈ c'.nodes) :
    c.Within c' ∨ c'.Within c := by
  induction h with
  | program hp =>
    obtain ⟨p', hp', hw⟩ := h'.exists_program
    obtain rfl := eq_of_mem_of_nodup_flatMap hn hp hp' hc (hw.nodes_subset hc')
    exact .inl hw
  | @part d p hd hp ih =>
    have hnd : n ∈ d.nodes := Call.Within.nodes_subset (.single hp) hc
    rcases ih hnd with hw | hw
    · rcases Relation.ReflTransGen.cases_head hw with rfl | ⟨q, hq, hw⟩
      · exact .inr (.single hp)
      · -- the identity is in one part only
        have hparts := hd.nodup hn
        rw [Call.nodes_eq] at hparts
        obtain rfl := eq_of_mem_of_nodup_flatMap (List.nodup_append.1 hparts).1 hp hq hc
          (Call.Within.nodes_subset hw hc')
        exact .inl hw
    · exact .inr (hw.tail hp)

/-- A node that holds an identity is visited in one state only. -/
theorem unique (hn : (programs.flatMap Stmt.nodesOfAll).Nodup) (h : Visits programs c)
    (h' : Visits programs c') (hc : n ∈ c.nodes) (hc' : n ∈ c'.nodes)
    (hw : c.weight = c'.weight) : c = c' := by
  rcases within_or_within hn h h' hc hc' with hin | hin
  · exact hin.eq_of_weight_eq hw.symm
  · exact (hin.eq_of_weight_eq hw).symm

/-- An identity belongs to one expression only. -/
theorem unique_own (hn : (programs.flatMap Stmt.nodesOfAll).Nodup) (h : Visits programs c)
    (h' : Visits programs c') (hc : n ∈ c.own) (hc' : n ∈ c'.own) : c = c' := by
  have inner : ∀ {c c' : Call}, Visits programs c → n ∈ c.own → n ∈ c'.own → c.Within c' →
      c = c' := by
    intro c c' h hc hc' hin
    rcases Relation.ReflTransGen.cases_head hin with rfl | ⟨q, hq, hw⟩
    · rfl
    · have hnodes := h.nodup hn
      rw [Call.nodes_eq] at hnodes
      have hmem : n ∈ q.nodes := by
        refine Call.Within.nodes_subset hw ?_
        rw [Call.nodes_eq]; exact List.mem_append_right _ hc'
      exact absurd rfl ((List.nodup_append.1 hnodes).2.2 n (List.mem_flatMap.2 ⟨q, hq, hmem⟩) n hc)
  have own_subset : ∀ {c : Call}, n ∈ c.own → n ∈ c.nodes := by
    intro c hc; rw [Call.nodes_eq]; exact List.mem_append_right _ hc
  rcases within_or_within hn h h' (own_subset hc) (own_subset hc') with hin | hin
  · exact inner h hc hc' hin
  · exact (inner h' hc' hc hin).symm

end Visits

/-! ### Recording -/

namespace Distances

variable {d : Distances} {refs : List Reference}

theorem record_cons (d : Distances) (ref : Reference) (rest : List Reference) :
    d.record (ref :: rest) =
      Distances.record (match ref.distance with | some n => d.insert ref.node n | none => d) rest :=
  rfl

theorem record_append (d : Distances) (l l' : List Reference) :
    d.record (l ++ l') = (d.record l).record l' :=
  List.foldl_append

/-- Nothing changes for identities that are not recorded. -/
theorem record_of_notMem {node : NodeId} (h : node ∉ refs.map (·.node)) :
    (d.record refs)[node]? = d[node]? := by
  induction refs generalizing d with
  | nil => rfl
  | cons ref rest ih =>
    obtain ⟨hne, hrest⟩ : node ≠ ref.node ∧ node ∉ rest.map (·.node) := by
      simpa only [List.map_cons, List.mem_cons, not_or] using h
    rw [record_cons, ih hrest]
    split
    · rw [Std.TreeMap.getElem?_insert, if_neg]
      simpa [Nat.compare_eq_eq] using Ne.symm hne
    · rfl

/-- A reference whose identity is used once has the distance that was found, and what it had before if
it is global. -/
theorem record_of_mem (hn : (refs.map (·.node)).Nodup) {ref : Reference} (h : ref ∈ refs) :
    (d.record refs)[ref.node]? = ref.distance.or d[ref.node]? := by
  induction refs generalizing d with
  | nil => cases h
  | cons first rest ih =>
    obtain ⟨hfirst, hrest⟩ := List.nodup_cons.1 hn
    rw [record_cons]
    rcases List.mem_cons.1 h with rfl | hmem
    · rw [record_of_notMem hfirst]
      split
      · next n he => simp [he]
      · next he => rw [he, Option.none_or]
    · have hne : first.node ≠ ref.node := by
        intro he
        exact hfirst (List.mem_map.2 ⟨ref, hmem, he.symm⟩)
      rw [ih hrest hmem]
      split
      · rw [Std.TreeMap.getElem?_insert, if_neg]
        simpa [Nat.compare_eq_eq] using hne
      · rfl

/-- The table has for each expression of the programs what the walk records there. -/
def Agrees (programs : List (List Stmt)) (d : Distances) : Prop :=
  ∀ {e r n}, Visits programs (.expr e r) → n ∈ (Call.expr e r).own →
    d[n]? = (e.reference? r).bind (·.distance)

theorem own_of_reference? {e : Expr} {r : Resolver} {ref : Reference}
    (h : e.reference? r = some ref) : ref.node ∈ (Call.expr e r).own := by
  unfold Expr.reference? at h
  split at h <;> try split at h
  all_goals first
    | (obtain rfl := Option.some.inj h; exact List.mem_singleton_self _)
    | cases h

theorem eq_of_mem_own {c : Call} {n n' : NodeId} (h : n ∈ c.own) (h' : n' ∈ c.own) : n = n' := by
  unfold Call.own at h h'
  split at h
  all_goals simp_all

theorem agrees_nil (d : Distances) : d.Agrees [] := by
  intro e r n h
  obtain ⟨p, hp, -⟩ := h.exists_program
  cases hp

/-- Only the identities of the programs count. -/
theorem Agrees.congr {programs : List (List Stmt)} {d' : Distances} (h : d.Agrees programs)
    (he : ∀ n ∈ programs.flatMap Stmt.nodesOfAll, d'[n]? = d[n]?) : d'.Agrees programs := by
  intro e r n hv hown
  obtain ⟨p, hp, hw⟩ := hv.exists_program
  have hn : n ∈ (Call.expr e r).nodes := by
    rw [Call.nodes_eq]; exact List.mem_append_right _ hown
  rw [he n (List.mem_flatMap.2 ⟨p, hp, hw.nodes_subset hn⟩)]
  exact h hv hown

/-- Resolving a program completes the table, unless it has an identity that was used before. -/
theorem Agrees.record {programs : List (List Stmt)} {p : List Stmt} (h : d.Agrees programs)
    (hn : ((p :: programs).flatMap Stmt.nodesOfAll).Nodup)
    (hd : ∀ n ∈ Stmt.nodesOfAll p, d[n]? = none) :
    (d.record (resolve p).references).Agrees (p :: programs) := by
  intro e r n hv hown
  have hnodes : n ∈ (Call.expr e r).nodes := by
    rw [Call.nodes_eq]; exact List.mem_append_right _ hown
  obtain ⟨q, hq, hw⟩ := hv.exists_program
  have hnq : n ∈ Stmt.nodesOfAll q := hw.nodes_subset hnodes
  rcases List.mem_cons.1 hq with rfl | hq
  · -- an expression of the new program
    cases href : e.reference? r with
    | some ref =>
      obtain rfl : n = ref.node := eq_of_mem_own hown (own_of_reference? href)
      obtain ⟨q', hq', hmem⟩ := reference_mem_resolve hv href
      have hnq' : ref.node ∈ Stmt.nodesOfAll q' :=
        (resolve_nodes q').subset (List.mem_map_of_mem hmem)
      obtain rfl := eq_of_mem_of_nodup_flatMap hn hq' List.mem_cons_self hnq' hnq
      rw [record_of_mem _ hmem, hd _ hnq, Option.or_none]; · rfl
      exact ((List.nodup_flatMap.1 hn).1 q' List.mem_cons_self).sublist (resolve_nodes q')
    | none =>
      rw [record_of_notMem, hd n hnq]; · rfl
      intro hmem
      obtain ⟨ref, href', rfl⟩ := List.mem_map.1 hmem
      have hq : q ∈ q :: programs := List.mem_cons_self
      obtain ⟨e', r', hv', he'⟩ := resolve_origin hq href'
      obtain ⟨rfl, rfl⟩ : e = e' ∧ r = r' := by
        simpa using hv.unique_own hn hv' hown (own_of_reference? he')
      rw [href] at he'; cases he'
  · -- an expression of an earlier one
    have hnp : n ∉ (resolve p).references.map (·.node) := fun hmem => by
      have hdis := (List.nodup_append.1 (List.flatMap_cons .. ▸ hn)).2.2
      exact hdis n ((resolve_nodes p).subset hmem) n (List.mem_flatMap.2 ⟨q, hq, hnq⟩) rfl
    rw [record_of_notMem hnp]
    exact h (Visits.of_within (.program hq) hw) hown

end Distances

end Treewalk
