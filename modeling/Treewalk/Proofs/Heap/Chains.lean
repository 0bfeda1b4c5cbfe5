import Treewalk.Proofs.Evaluation.References
import Treewalk.Proofs.Evaluation.Containment
/-!
# Looking up along a chain and at a distance

A collection of scopes is built by opening scopes, defining names and assigning to them. However it
was built, a name that is looked up along the chain is found in the nearest scope that binds it, which
is where it is found at the distance of that scope; and an assignment that succeeds changes what one
name is bound to in one scope, which only the lookups that end there get to see
(`Built.lookups_agree`).

The links are told apart from the functions that follow them: `Climbs` goes from scope to scope by the
links that are stored, and `Found` is the first scope on the way that binds a name.
-/

namespace Treewalk
namespace Scopes

variable {s s' : Scopes} {e i j p : ScopeId} {k d : Nat} {x y : String} {v : Value}

/-! ### Links -/

/-- The scope that scope `i` was opened in, as it is stored. -/
def enclosing? (s : Scopes) (i : ScopeId) : Option ScopeId :=
  s.cells[i]?.bind (·.enclosing)

/-- Scope `j` is that many links above scope `i`. -/
inductive Climbs (s : Scopes) : Nat → ScopeId → ScopeId → Prop where
  | here {i : ScopeId} : Climbs s 0 i i
  | up {k : Nat} {i p j : ScopeId} : s.enclosing? i = some p → Climbs s k p j →
    Climbs s (k + 1) i j

def Binds (s : Scopes) (j : ScopeId) (x : String) : Prop :=
  ∃ v, s.lookup? j x = some v

/-- Going up from scope `e`, scope `j` is the first to bind `x`, and it is `k` links up. -/
structure Found (s : Scopes) (e : ScopeId) (x : String) (k : Nat) (j : ScopeId) : Prop where
  climbs : s.Climbs k e j
  binds : s.Binds j x
  least : ∀ l < k, ∀ i, s.Climbs l e i → ¬ s.Binds i x

/-- Every link leads to an earlier scope. -/
def Backward (s : Scopes) : Prop :=
  ∀ i p, s.enclosing? i = some p → p < i

theorem Backward.parent?_eq (h : s.Backward) (i : ScopeId) : s.parent? i = s.enclosing? i := by
  show (s.enclosing? i).filter (· < i) = s.enclosing? i
  cases hp : s.enclosing? i with
  | none => rfl
  | some p => simp [h i p hp]

theorem Backward.climbs_iff (h : s.Backward) : s.Climbs k i j ↔ s.up? k i = some j := by
  constructor
  · intro hc
    induction hc with
    | here => rfl
    | up hp _ ih => rw [up?, h.parent?_eq, hp, Option.bind_some, ih]
  · intro hu
    induction k generalizing i with
    | zero =>
      obtain rfl := Option.some.inj hu
      exact .here
    | succ k ih =>
      obtain ⟨p, hp, hk⟩ := Option.bind_eq_some_iff.1 hu
      exact .up (h.parent?_eq i ▸ hp) (ih hk)

theorem binds_iff : s.Binds j x ↔ (s.lookup? j x).isSome :=
  Option.isSome_iff_exists.symm

/-- What is found from scope `i` is there, or else it is found from the scope around it. -/
theorem found_cases : s.Found i x k j ↔ (k = 0 ∧ j = i ∧ s.Binds i x) ∨
    (¬ s.Binds i x ∧ ∃ l p, k = l + 1 ∧ s.enclosing? i = some p ∧ s.Found p x l j) := by
  constructor
  · rintro ⟨hc, hb, hleast⟩
    cases hc with
    | here => exact .inl ⟨rfl, rfl, hb⟩
    | @up l _ p _ hp hc =>
      refine .inr ⟨hleast 0 (Nat.succ_pos l) i .here, l, p, rfl, hp, hc, hb, ?_⟩
      intro m hm o ho
      exact hleast (m + 1) (Nat.succ_lt_succ hm) o (.up hp ho)
  · rintro (⟨rfl, rfl, hb⟩ | ⟨hn, l, p, rfl, hp, hc, hb, hleast⟩)
    · exact ⟨.here, hb, nofun⟩
    · refine ⟨.up hp hc, hb, ?_⟩
      intro m hm o ho
      cases ho with
      | here => exact hn
      | up hq ho =>
        obtain rfl := Option.some.inj (hp.symm.trans hq)
        exact hleast _ (Nat.lt_of_succ_lt_succ hm) o ho

theorem Backward.nearest?_eq_some_iff (h : s.Backward) :
    s.nearest? i x = some j ↔ ∃ k, s.Found i x k j := by
  induction i using Nat.strongRecOn with
  | ind i ih =>
    rw [nearest?_eq]
    by_cases hb : s.Binds i x
    · rw [if_pos (binds_iff.1 hb)]
      constructor
      · rintro ⟨⟩
        exact ⟨0, found_cases.2 (.inl ⟨rfl, rfl, hb⟩)⟩
      · rintro ⟨k, hf⟩
        rcases found_cases.1 hf with ⟨-, rfl, -⟩ | ⟨hn, -⟩
        · rfl
        · exact absurd hb hn
    · rw [if_neg (mt binds_iff.2 hb), h.parent?_eq]
      constructor
      · intro hj
        obtain ⟨p, hp, hj⟩ := Option.bind_eq_some_iff.1 hj
        obtain ⟨k, hf⟩ := (ih p (h i p hp)).1 hj
        exact ⟨k + 1, found_cases.2 (.inr ⟨hb, k, p, rfl, hp, hf⟩)⟩
      · rintro ⟨k, hf⟩
        rcases found_cases.1 hf with ⟨-, -, hi⟩ | ⟨-, l, p, -, hp, hf⟩
        · exact absurd hi hb
        · rw [hp]
          exact (ih p (h i p hp)).2 ⟨l, hf⟩

/-- The scopes above one another end: there is a number of links that can be followed and no more. -/
theorem Backward.exists_links (h : s.Backward) (i : ScopeId) :
    ∃ links, ∀ d, (∃ j, s.Climbs d i j) ↔ d ≤ links := by
  induction i using Nat.strongRecOn with
  | ind i ih =>
    cases hp : s.enclosing? i with
    | none =>
      refine ⟨0, fun d => ⟨?_, ?_⟩⟩
      · rintro ⟨j, hc⟩
        cases hc with
        | here => exact Nat.le_refl 0
        | up hq => rw [hp] at hq; cases hq
      · intro hd
        obtain rfl := Nat.le_zero.1 hd
        exact ⟨i, .here⟩
    | some p =>
      obtain ⟨links, hlinks⟩ := ih p (h i p hp)
      refine ⟨links + 1, fun d => ⟨?_, ?_⟩⟩
      · rintro ⟨j, hc⟩
        cases hc with
        | here => exact Nat.zero_le _
        | up hq hc =>
          obtain rfl := Option.some.inj (hp.symm.trans hq)
          exact Nat.succ_le_succ ((hlinks _).1 ⟨j, hc⟩)
      · intro hd
        cases d with
        | zero => exact ⟨i, .here⟩
        | succ d =>
          obtain ⟨j, hc⟩ := (hlinks d).2 (Nat.le_of_succ_le_succ hd)
          exact ⟨j, .up hp hc⟩

/-! ### Lookups -/

theorem get_of_nearest? (h : s.nearest? e x = some j) : s.get e x = s.read j x := by
  simp only [get, find, h]; rfl

theorem get_of_not_found (h : s.nearest? e x = none) :
    s.get e x = .error (.undefinedVariable x) := by
  simp only [get, find, h]; rfl

theorem assign_of_nearest? (h : s.nearest? e x = some j) (v : Value) :
    s.assign e x v = .ok (s.define j x v) := by
  simp only [assign, find, h]; rfl

theorem assign_of_not_found (h : s.nearest? e x = none) (v : Value) :
    s.assign e x v = .error (.undefinedVariable x) := by
  simp only [assign, find, h]; rfl

theorem ancestor_of_up? (h : s.up? d e = some j) (x : String) : s.ancestor e d x = .ok j := by
  rw [ancestor, h]

theorem ancestor_of_no_scope (h : s.up? d e = none) (x : String) :
    s.ancestor e d x = .error (.noScope d x) := by
  rw [ancestor, h]

theorem getAt_of_no_scope (h : s.up? d e = none) (x : String) :
    s.getAt e d x = .error (.noScope d x) := by
  rw [getAt, ancestor_of_no_scope h]; rfl

theorem assignAt_of_no_scope (h : s.up? d e = none) (x : String) (v : Value) :
    s.assignAt e d x v = .error (.noScope d x) := by
  rw [assignAt, findAt, ancestor_of_no_scope h]; rfl

theorem assignAt_of_binds (hu : s.up? d e = some j) (hb : s.Binds j x) (v : Value) :
    s.assignAt e d x v = .ok (s.define j x v) := by
  rw [assignAt, findAt, ancestor_of_up? hu]
  simp only [Bind.bind, Except.bind, binds_iff.1 hb, if_true]
  rfl

theorem read_of_not_binds (hb : ¬ s.Binds j x) : s.read j x = .error (.undefinedVariable x) := by
  cases hv : s.lookup? j x with
  | some v => exact absurd ⟨v, hv⟩ hb
  | none => rw [read, hv]

theorem assignAt_of_not_binds (hu : s.up? d e = some j) (hb : ¬ s.Binds j x) (v : Value) :
    s.assignAt e d x v = .error (.undefinedVariable x) := by
  rw [assignAt, findAt, ancestor_of_up? hu]
  simp only [Bind.bind, Except.bind, mt binds_iff.2 hb, Bool.false_eq_true, if_false]

theorem getAt_of_binds (hu : s.up? d e = some j) (hv : s.lookup? j x = some v) :
    s.getAt e d x = .ok v := by
  rw [getAt_eq_read hu, read_eq_ok hv]

theorem getAt_of_not_binds (hu : s.up? d e = some j) (hb : ¬ s.Binds j x) :
    s.getAt e d x = .error (.undefinedVariable x) := by
  rw [getAt_eq_read hu, read_of_not_binds hb]

/-- Along the chain a name is found where it is found at the distance of the nearest scope that binds
it. -/
theorem Backward.chain_eq_distance (h : s.Backward) (hf : s.Found e x k j) :
    s.get e x = s.getAt e k x ∧ ∀ v, s.assign e x v = s.assignAt e k x v := by
  have hn : s.nearest? e x = some j := h.nearest?_eq_some_iff.2 ⟨k, hf⟩
  have hu : s.up? k e = some j := h.climbs_iff.1 hf.climbs
  refine ⟨?_, fun v => ?_⟩
  · rw [get_of_nearest? hn, getAt_eq_read hu]
  · rw [assign_of_nearest? hn, assignAt_of_binds hu hf.binds]

theorem Backward.undefined (h : s.Backward) (hf : ∀ k j, ¬ s.Found e x k j) :
    s.get e x = .error (.undefinedVariable x) ∧
      ∀ v, s.assign e x v = .error (.undefinedVariable x) := by
  have hn : s.nearest? e x = none := by
    cases hj : s.nearest? e x with
    | none => rfl
    | some j =>
      obtain ⟨k, hk⟩ := h.nearest?_eq_some_iff.1 hj
      exact absurd hk (hf k j)
  exact ⟨get_of_not_found hn, assign_of_not_found hn⟩

/-! ### What a write changes -/

/-- The collection `s'` is `s` but for what the name `x`, which is bound in scope `j`, is bound to
there. -/
structure Rebinds (s s' : Scopes) (j : ScopeId) (x : String) (v : Value) : Prop where
  bound : s.Binds j x
  size : s'.size = s.size
  enclosing : ∀ i, s'.enclosing? i = s.enclosing? i
  written : s'.lookup? j x = some v
  kept : ∀ i y, ¬ (i = j ∧ y = x) → s'.lookup? i y = s.lookup? i y

theorem enclosing?_define (s : Scopes) (j : ScopeId) (x : String) (v : Value) (i : ScopeId) :
    (s.define j x v).enclosing? i = s.enclosing? i := by
  simp only [enclosing?, define, Array.getElem?_modify]
  split
  · cases s.cells[i]? <;> rfl
  · rfl

theorem rebinds_define (hb : s.Binds j x) (v : Value) : s.Rebinds (s.define j x v) j x v where
  bound := hb
  size := size_define ..
  enclosing := enclosing?_define s j x v
  written := lookup?_define_self (lt_size_of_isSome (binds_iff.1 hb)) x v
  kept i y hne := by
    refine lookup?_define_of_ne ?_ v
    by_cases hi : j = i
    · exact .inr fun hx => hne ⟨hi.symm, hx.symm⟩
    · exact .inl hi

/-- An assignment along the chain that succeeds changes what the name is bound to where it is found. -/
theorem Backward.rebinds_of_assign (h : s.Backward) (hs : s.assign e x v = .ok s') :
    ∃ k j, s.Found e x k j ∧ s.Rebinds s' j x v := by
  cases hn : s.nearest? e x with
  | none => rw [assign_of_not_found hn] at hs; cases hs
  | some j =>
    obtain ⟨k, hf⟩ := h.nearest?_eq_some_iff.1 hn
    rw [assign_of_nearest? hn] at hs
    obtain rfl := Except.ok.inj hs
    exact ⟨k, j, hf, rebinds_define hf.binds v⟩

theorem Backward.rebinds_of_assignAt (h : s.Backward) (hs : s.assignAt e d x v = .ok s') :
    ∃ j, s.Climbs d e j ∧ s.Rebinds s' j x v := by
  cases hu : s.up? d e with
  | none => rw [assignAt_of_no_scope hu] at hs; cases hs
  | some j =>
    by_cases hb : s.Binds j x
    · rw [assignAt_of_binds hu hb] at hs
      obtain rfl := Except.ok.inj hs
      exact ⟨j, h.climbs_iff.2 hu, rebinds_define hb v⟩
    · rw [assignAt_of_not_binds hu hb] at hs
      cases hs

namespace Rebinds

theorem backward (h : s.Rebinds s' j x v) (hs : s.Backward) : s'.Backward := by
  intro i p hp
  rw [h.enclosing] at hp
  exact hs i p hp

theorem climbs_iff (h : s.Rebinds s' j x v) : s'.Climbs k e i ↔ s.Climbs k e i := by
  constructor
  · intro hc
    induction hc with
    | here => exact .here
    | up hp _ ih => exact .up (h.enclosing _ ▸ hp) ih
  · intro hc
    induction hc with
    | here => exact .here
    | up hp _ ih => exact .up ((h.enclosing _).trans hp) ih

theorem binds_iff (h : s.Rebinds s' j x v) : s'.Binds i y ↔ s.Binds i y := by
  by_cases hi : i = j ∧ y = x
  · obtain ⟨rfl, rfl⟩ := hi
    exact ⟨fun _ => h.bound, fun _ => ⟨v, h.written⟩⟩
  · unfold Binds
    rw [h.kept i y hi]

/-- Names are found where they were found. -/
theorem found_iff (h : s.Rebinds s' j x v) : s'.Found e y k i ↔ s.Found e y k i := by
  constructor
  · rintro ⟨hc, hb, hleast⟩
    refine ⟨h.climbs_iff.1 hc, h.binds_iff.1 hb, fun l hl o ho => ?_⟩
    exact mt h.binds_iff.2 (hleast l hl o (h.climbs_iff.2 ho))
  · rintro ⟨hc, hb, hleast⟩
    refine ⟨h.climbs_iff.2 hc, h.binds_iff.2 hb, fun l hl o ho => ?_⟩
    exact mt h.binds_iff.1 (hleast l hl o (h.climbs_iff.1 ho))

theorem nearest?_eq (h : s.Rebinds s' j x v) (hs : s.Backward) :
    s'.nearest? e y = s.nearest? e y := by
  refine Option.ext fun i => ?_
  rw [(h.backward hs).nearest?_eq_some_iff, hs.nearest?_eq_some_iff]
  exact exists_congr fun k => h.found_iff

theorem up?_eq (h : s.Rebinds s' j x v) (hs : s.Backward) : s'.up? d e = s.up? d e := by
  refine Option.ext fun i => ?_
  rw [← (h.backward hs).climbs_iff, ← hs.climbs_iff]
  exact h.climbs_iff

theorem read_eq (h : s.Rebinds s' j x v) (hne : ¬ (i = j ∧ y = x)) : s'.read i y = s.read i y := by
  rw [read, read, h.kept i y hne]

end Rebinds

/-- What a read gives when the value `v` has been written: that value exactly if the read ends at what
was written, or gave that value all along; and if it does not end there, the same as before. -/
def Sees (ends : Prop) (v : Value) (old new : Except RuntimeFault Value) : Prop :=
  (new = .ok v ↔ ends ∨ old = .ok v) ∧ (¬ ends → new = old)

theorem sees_of {ends : Prop} {old new : Except RuntimeFault Value} (hends : ends → new = .ok v)
    (hnot : ¬ ends → new = old) : Sees ends v old new := by
  refine ⟨⟨fun hnew => ?_, ?_⟩, hnot⟩
  · by_cases h : ends
    · exact .inl h
    · exact .inr (hnot h ▸ hnew)
  · rintro (h | hold)
    · exact hends h
    · by_cases h : ends
      · exact hends h
      · exact (hnot h).trans hold

theorem Rebinds.sees_get (h : s.Rebinds s' j x v) (hs : s.Backward) (i : ScopeId) (y : String) :
    Sees (y = x ∧ ∃ k, s.Found i y k j) v (s.get i y) (s'.get i y) := by
  have hnearest : s'.nearest? i y = s.nearest? i y := h.nearest?_eq hs
  refine sees_of ?_ fun hne => ?_
  · rintro ⟨rfl, hf⟩
    have hn : s'.nearest? i y = some j := hnearest.trans (hs.nearest?_eq_some_iff.2 hf)
    rw [get_of_nearest? hn, read_eq_ok h.written]
  · cases hn : s.nearest? i y with
    | none => rw [get_of_not_found hn, get_of_not_found (hnearest.trans hn)]
    | some o =>
      rw [get_of_nearest? hn, get_of_nearest? (hnearest.trans hn)]
      refine h.read_eq ?_
      rintro ⟨rfl, hy⟩
      exact hne ⟨hy, hs.nearest?_eq_some_iff.1 hn⟩

theorem Rebinds.sees_getAt (h : s.Rebinds s' j x v) (hs : s.Backward) (i : ScopeId) (d : Nat)
    (y : String) : Sees (y = x ∧ s.Climbs d i j) v (s.getAt i d y) (s'.getAt i d y) := by
  have hup : s'.up? d i = s.up? d i := h.up?_eq hs
  refine sees_of ?_ fun hne => ?_
  · rintro ⟨rfl, hc⟩
    exact getAt_of_binds (hup.trans (hs.climbs_iff.1 hc)) h.written
  · cases hu : s.up? d i with
    | none => rw [getAt_of_no_scope hu, getAt_of_no_scope (hup.trans hu)]
    | some o =>
      rw [getAt_eq_read hu, getAt_eq_read (hup.trans hu)]
      refine h.read_eq ?_
      rintro ⟨rfl, hy⟩
      exact hne ⟨hy, hs.climbs_iff.2 hu⟩

/-! ### Collections that are built -/

/-- What is done with a collection of scopes. -/
inductive Operation where
  | new
  | withEnclosing (e : ScopeId)
  | define (e : ScopeId) (x : String) (v : Value)
  | get (e : ScopeId) (x : String)
  | assign (e : ScopeId) (x : String) (v : Value)
  | ancestor (e : ScopeId) (distance : Nat) (x : String)
  | getAt (e : ScopeId) (distance : Nat) (x : String)
  | assignAt (e : ScopeId) (distance : Nat) (x : String) (v : Value)

inductive Answer where
  | scope (i : ScopeId)
  | value (v : Value)
  | done

namespace Operation

/-- The scope that the operation is about. -/
def scope? : Operation → Option ScopeId
  | new => none
  | withEnclosing e | define e _ _ | get e _ | assign e _ _ | ancestor e _ _ | getAt e _ _
  | assignAt e _ _ _ => some e

/-- What is written, if it can be. -/
def written (s : Scopes) : Except RuntimeFault Scopes → Except RuntimeFault Answer × Scopes
  | .ok s' => (.ok .done, s')
  | .error fault => (.error fault, s)

/-- The answer to an operation, and the scopes behind it. -/
def perform (s : Scopes) : Operation → Except RuntimeFault Answer × Scopes
  | new => (.ok (.scope s.size), s.add [] none)
  | withEnclosing e => (.ok (.scope s.size), s.add [] (some e))
  | define e x v => (.ok .done, s.define e x v)
  | get e x => ((s.get e x).map .value, s)
  | assign e x v => written s (s.assign e x v)
  | ancestor e distance x => ((s.ancestor e distance x).map .scope, s)
  | getAt e distance x => ((s.getAt e distance x).map .value, s)
  | assignAt e distance x v => written s (s.assignAt e distance x v)

theorem perform_of_error {op : Operation} {fault : RuntimeFault}
    (h : (op.perform s).1 = .error fault) : (op.perform s).2 = s := by
  have writing (r : Except RuntimeFault Scopes) (hr : (written s r).1 = .error fault) :
      (written s r).2 = s := by
    cases r with
    | ok s' => cases hr
    | error fault => rfl
  cases op with
  | new | withEnclosing e | define e x v => cases h
  | get e x | ancestor e distance x | getAt e distance x => rfl
  | assign e x v | assignAt e distance x v => exact writing _ h

end Operation

/-- The collections that operations on scopes that there are lead to. -/
inductive Built : Scopes → Prop where
  | empty : Built .empty
  | perform {s : Scopes} (op : Operation) : Built s → (∀ e ∈ op.scope?, e < s.size) →
    Built (op.perform s).2

theorem enclosing?_add (s : Scopes) (b : Bindings Value) (link : Option ScopeId) (i : ScopeId) :
    (s.add b link).enclosing? i = if i = s.size then link else s.enclosing? i := by
  unfold enclosing? add
  rw [Array.getElem?_push]
  by_cases hi : i = s.size
  · rw [if_pos hi, if_pos (show i = s.cells.size from hi)]
    rfl
  · rw [if_neg hi, if_neg (show ¬ i = s.cells.size from hi)]

theorem Backward.add {link : Option ScopeId} (h : s.Backward) (hlink : ∀ e ∈ link, e < s.size)
    (b : Bindings Value) : (s.add b link).Backward := by
  intro i p hp
  rw [enclosing?_add] at hp
  split at hp
  · next hi => exact hi ▸ hlink p hp
  · exact h i p hp

/-- No operation makes a link that leads on. -/
theorem Backward.perform {op : Operation} (h : s.Backward) (hop : ∀ e ∈ op.scope?, e < s.size) :
    (op.perform s).2.Backward := by
  cases op with
  | new => exact h.add (by simp) []
  | withEnclosing e => exact h.add hop []
  | define e x v =>
    intro i p hp
    exact h i p (enclosing?_define s e x v i ▸ hp)
  | get e x | ancestor e distance x | getAt e distance x => exact h
  | assign e x v =>
    show (Operation.written s (s.assign e x v)).2.Backward
    cases hs : s.assign e x v with
    | error fault => exact h
    | ok s' =>
      obtain ⟨_, _, -, hr⟩ := h.rebinds_of_assign hs
      exact hr.backward h
  | assignAt e distance x v =>
    show (Operation.written s (s.assignAt e distance x v)).2.Backward
    cases hs : s.assignAt e distance x v with
    | error fault => exact h
    | ok s' =>
      obtain ⟨_, -, hr⟩ := h.rebinds_of_assignAt hs
      exact hr.backward h

theorem Built.backward (h : s.Built) : s.Backward := by
  induction h with
  | empty => exact fun i p hp => by cases hp
  | perform op _ hop ih => exact ih.perform hop

/-- In a collection that has been built, looking a name up along the chain and at a distance agree, and
every operation touches one binding at most.

Along the chain a name is read and written as it is at the distance of the nearest scope that binds it,
and is undefined if there is none. At a distance there is no scope exactly if the distance is greater
than the number of links, and a name is undefined exactly if the scope at the distance does not bind it
itself. An operation that fails leaves all scopes as they are. An assignment that succeeds changes what
one name is bound to in one scope; a read that ends there gives the new value, and any other read what
it gave before. -/
theorem Built.lookups_agree (h : s.Built) (e : ScopeId) (x : String) :
    (∀ k j, s.Found e x k j → s.get e x = s.getAt e k x ∧
      ∀ v, s.assign e x v = s.assignAt e k x v) ∧
    ((∀ k j, ¬ s.Found e x k j) → s.get e x = .error (.undefinedVariable x) ∧
      ∀ v, s.assign e x v = .error (.undefinedVariable x)) ∧
    (∃ links, (∀ d, (∃ j, s.Climbs d e j) ↔ d ≤ links) ∧ ∀ d,
      (s.ancestor e d x = .error (.noScope d x) ↔ links < d) ∧
      (s.getAt e d x = .error (.noScope d x) ↔ links < d) ∧
      ∀ v, s.assignAt e d x v = .error (.noScope d x) ↔ links < d) ∧
    (∀ d, (s.getAt e d x = .error (.undefinedVariable x) ↔ ∃ j, s.Climbs d e j ∧ ¬ s.Binds j x) ∧
      ∀ v, s.assignAt e d x v = .error (.undefinedVariable x) ↔
        ∃ j, s.Climbs d e j ∧ ¬ s.Binds j x) ∧
    (∀ (op : Operation) fault, (op.perform s).1 = .error fault → (op.perform s).2 = s) ∧
    (∀ v s', s.assign e x v = .ok s' → ∃ k j, s.Found e x k j ∧ s.Rebinds s' j x v) ∧
    (∀ d v s', s.assignAt e d x v = .ok s' → ∃ j, s.Climbs d e j ∧ s.Rebinds s' j x v) ∧
    ∀ j v s', s.Rebinds s' j x v → ∀ i y,
      Sees (y = x ∧ ∃ k, s.Found i y k j) v (s.get i y) (s'.get i y) ∧
      ∀ d, Sees (y = x ∧ s.Climbs d i j) v (s.getAt i d y) (s'.getAt i d y) := by
  have hs : s.Backward := h.backward
  refine ⟨fun k j hf => hs.chain_eq_distance hf, hs.undefined, ?_, fun d => ?_,
    fun op fault => Operation.perform_of_error, fun v s' => hs.rebinds_of_assign,
    fun d v s' => hs.rebinds_of_assignAt,
    fun j v s' hr i y => ⟨hr.sees_get hs i y, fun d => hr.sees_getAt hs i d y⟩⟩
  · obtain ⟨links, hlinks⟩ := hs.exists_links e
    refine ⟨links, hlinks, fun d => ?_⟩
    have hbeyond : links < d ↔ s.up? d e = none := by
      rw [← Nat.not_le, ← hlinks d, Option.eq_none_iff_forall_ne_some, not_exists]
      exact forall_congr' fun j => not_congr hs.climbs_iff
    rw [hbeyond]
    cases hu : s.up? d e with
    | none =>
      simp only [ancestor_of_no_scope hu, getAt_of_no_scope hu, assignAt_of_no_scope hu,
        implies_true, and_self]
    | some j =>
      by_cases hb : s.Binds j x
      · obtain ⟨v, hv⟩ := hb
        simp [ancestor_of_up? hu, getAt_of_binds hu hv, assignAt_of_binds hu ⟨v, hv⟩]
      · simp [ancestor_of_up? hu, getAt_of_not_binds hu hb, assignAt_of_not_binds hu hb]
  · simp only [hs.climbs_iff]
    cases hu : s.up? d e with
    | none => simp [getAt_of_no_scope hu, assignAt_of_no_scope hu]
    | some j =>
      by_cases hb : s.Binds j x
      · obtain ⟨v, hv⟩ := hb
        have hbinds : s.Binds j x := ⟨v, hv⟩
        simp [getAt_of_binds hu hv, assignAt_of_binds hu hbinds, hbinds]
      · simp [getAt_of_not_binds hu hb, assignAt_of_not_binds hu hb, hb]

/-- A name that is bound in two scopes, one in the other. -/
def shadowed : Scopes :=
  [Operation.new, .define 0 "x" .nil, .withEnclosing 0, .define 1 "x" (.bool true),
    .withEnclosing 1].foldl (fun s op => (op.perform s).2) .empty

theorem built_shadowed : shadowed.Built := by
  refine .perform (.withEnclosing 1) (.perform (.define 1 "x" (.bool true)) (.perform
    (.withEnclosing 0) (.perform (.define 0 "x" .nil) (.perform .new .empty ?_) ?_) ?_) ?_) ?_
  all_goals decide

/-- From the innermost scope the name is found one link up, and an assignment at that distance is seen
by reading along the chain. -/
theorem Built.lookups_agree_shadowed : shadowed.Built ∧
    shadowed.get 2 "x" = shadowed.getAt 2 1 "x" ∧
    (shadowed.define 1 "x" (.bool false)).get 2 "x" = .ok (.bool false) := by
  obtain ⟨hagree, -, -, -, -, -, hwrite, hsees⟩ := built_shadowed.lookups_agree 2 "x"
  have hclimbs : shadowed.Climbs 1 2 1 := .up rfl .here
  have hfound : shadowed.Found 2 "x" 1 1 := by
    refine ⟨hclimbs, ⟨.bool true, rfl⟩, fun l hl i hi => ?_⟩
    obtain rfl := Nat.lt_one_iff.1 hl
    cases hi
    rintro ⟨v, hv⟩
    cases hv
  obtain ⟨j, hj, hr⟩ := hwrite 1 (.bool false) (shadowed.define 1 "x" (.bool false)) rfl
  obtain rfl : j = 1 := Option.some.inj <|
    (built_shadowed.backward.climbs_iff.1 hj).symm.trans
      (built_shadowed.backward.climbs_iff.1 hclimbs)
  exact ⟨built_shadowed, (hagree 1 1 hfound).1, (hsees 1 _ _ hr 2 "x").1.1.2 (.inl ⟨rfl, 1, hfound⟩)⟩

end Scopes
end Treewalk
