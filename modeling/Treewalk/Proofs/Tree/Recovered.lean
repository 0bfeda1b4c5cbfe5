import Treewalk.Proofs.Tree.Arity
import Treewalk.Proofs.Tree.Form
/-!
# Whatever is read is well-formed

A rule that records errors, or that reading has resumed behind, still yields a sound tree.
`Rule.Gives P x` says that the rule `x` gives out identities in turn, and that its result, if there is
one, satisfies `P` with the next identities in front of it and behind it. Every rule gives trees that are
well-formed, each reference in them with an identity given out in between; what is abandoned leaves a
gap and nothing else. So all that is read from any lists of tokens, one after the other, is well-formed,
and no two references share an identity (`parseInTurn_formed`).
-/

namespace Treewalk

theorem Fresh.weaken {n m m' : NodeId} {ids : List NodeId} (h : Fresh n m ids) (hm : m ≤ m') :
    Fresh n m' ids :=
  ⟨h.le.trans hm, h.nodup, fun i hi => ⟨(h.within i hi).1, (h.within i hi).2.trans_le hm⟩⟩

/-- Some token, about which nothing more is known. -/
abbrev Token.Any (_ : Token) : Prop := True

theorem Token.names_any {t : Token} (h : t.kind = .identifier) : t.Names Token.Any :=
  ⟨trivial, h⟩

/-- A well-formed expression, whose references have identities from `n` up to `m`. -/
def Expr.Whole (n m : NodeId) (e : Expr) : Prop :=
  e.Formed Token.Any ∧ Fresh n m e.nodes

def Expr.AllWhole (n m : NodeId) (es : List Expr) : Prop :=
  Expr.AllFormed Token.Any es ∧ Fresh n m (Expr.nodesOfAll es)

def Stmt.Whole (n m : NodeId) (s : Stmt) : Prop :=
  s.Formed Token.Any ∧ Fresh n m s.nodes

/-- A statement in a place where no declaration may stand. -/
def Stmt.WholeBranch (n m : NodeId) (s : Stmt) : Prop :=
  s.declared? = none ∧ s.Whole n m

def Stmt.AllWhole (n m : NodeId) (ss : List Stmt) : Prop :=
  Stmt.AllFormed Token.Any ss ∧ Fresh n m (Stmt.nodesOfAll ss)

def FunctionDecl.Whole (n m : NodeId) (f : FunctionDecl) : Prop :=
  f.Formed Token.Any ∧ Fresh n m f.nodes

def Stmt.MethodsWhole (n m : NodeId) (fs : List FunctionDecl) : Prop :=
  Stmt.MethodsFormed Token.Any fs ∧ Fresh n m (Stmt.nodesOfMethods fs)

section Trees

variable {n k m : NodeId}

theorem Expr.Whole.of_nodes_nil {e : Expr} (h : e.Formed Token.Any) (he : e.nodes = []) :
    e.Whole n n :=
  ⟨h, he ▸ .nil (Nat.le_refl n)⟩

theorem Expr.Whole.weaken {e : Expr} {m' : NodeId} (h : e.Whole n m) (hm : m ≤ m') : e.Whole n m' :=
  ⟨h.1, h.2.weaken hm⟩

theorem Expr.AllWhole.nil : Expr.AllWhole n n [] :=
  ⟨trivial, .nil (Nat.le_refl n)⟩

theorem Expr.AllWhole.cons {e : Expr} {es : List Expr} (h : e.Whole n k) (hs : Expr.AllWhole k m es) :
    Expr.AllWhole n m (e :: es) :=
  ⟨⟨h.1, hs.1⟩, h.2.append hs.2⟩

theorem Stmt.AllWhole.nil : Stmt.AllWhole n n [] :=
  ⟨by simp only [Stmt.AllFormed], .nil (Nat.le_refl n)⟩

theorem Stmt.AllWhole.cons {s : Stmt} {ss : List Stmt} (h : s.Whole n k) (hs : Stmt.AllWhole k m ss) :
    Stmt.AllWhole n m (s :: ss) := by
  refine ⟨?_, h.2.append hs.2⟩
  simp only [Stmt.AllFormed]
  exact ⟨h.1, hs.1⟩

/-- What an abandoned declaration would have used is skipped. -/
theorem Stmt.AllWhole.skip {ss : List Stmt} (h : n ≤ k) (hs : Stmt.AllWhole k m ss) :
    Stmt.AllWhole n m ss :=
  ⟨hs.1, (Fresh.nil h).append hs.2⟩

end Trees

namespace Rule

variable {α β : Type}

/-- What is known of the result of a rule, from the next identities in front of it and behind it. -/
abbrev Result (α : Type) := (next next' : NodeId) → α → Prop

/-- The rule gives out identities in turn, and if it succeeds then `P` holds of its result. -/
def Gives (P : Result α) (x : Rule α) : Prop :=
  ∀ s : Reading, match x s with
    | .ok a s' => s.next ≤ s'.next ∧ P s.next s'.next a
    | .error _ s' => s.next ≤ s'.next

/-- The rule gives out no identity. -/
abbrev Quiet (Q : α → Prop) (x : Rule α) : Prop :=
  Gives (fun n m a => n = m ∧ Q a) x

section Bind

variable {P Q : Result α} {R : Result β} {x : Rule α} {f : α → Rule β}

theorem Gives.imp (h : Gives P x) (hPQ : ∀ n m a, P n m a → Q n m a) : Gives Q x := by
  intro s
  have hs := h s
  cases hx : x s with
  | error e s' => simpa only [hx] using hs
  | ok a s' =>
    simp only [hx] at hs ⊢
    exact ⟨hs.1, hPQ _ _ _ hs.2⟩

theorem Gives.bind (h : Gives P x) (hf : ∀ a, Gives (fun k m b => ∀ n, P n k a → R n m b) (f a)) :
    Gives R (x >>= f) := by
  intro s
  have hs := h s
  rw [bind_run]
  cases hx : x s with
  | error e s' => simpa only [hx] using hs
  | ok a s' =>
    simp only [hx] at hs ⊢
    obtain ⟨hle, ha⟩ := hs
    have hnext := hf a s'
    cases hy : f a s' with
    | error e s'' =>
      simp only [hy] at hnext ⊢
      exact hle.trans hnext
    | ok b s'' =>
      simp only [hy] at hnext ⊢
      exact ⟨hle.trans hnext.1, hnext.2 _ ha⟩

/-- Behind a rule that gives out no identity. -/
theorem Gives.andThen {T : α → Prop} (h : Quiet T x) (hf : ∀ a, T a → Gives R (f a)) :
    Gives R (x >>= f) := by
  intro s
  have hs := h s
  rw [bind_run]
  cases hx : x s with
  | error e s' => simpa only [hx] using hs
  | ok a s' =>
    simp only [hx] at hs ⊢
    obtain ⟨-, hnext, ha⟩ := hs
    rw [hnext]
    exact hf a ha s'

end Bind

/-! ### The rules that all others are built from -/

section Primitives

variable {P : Result α} {R : Result β} {x : Rule α}

theorem gives_pure {a : α} (h : ∀ n, P n n a) : Gives P (pure a) :=
  fun s => ⟨Nat.le_refl _, h s.next⟩

theorem gives_fail (what : Expected) : Gives P (fail what) :=
  fun _ => Nat.le_refl _

theorem quiet_peek : Quiet (fun _ => True) peek :=
  fun _ => ⟨Nat.le_refl _, rfl, trivial⟩

theorem quiet_report (t : Token) (fault : SyntaxFault) : Quiet (fun _ => True) (report t fault) :=
  fun _ => ⟨Nat.le_refl _, rfl, trivial⟩

theorem quiet_nextIs (k : Kind) : Quiet (fun _ => True) (nextIs k) := by
  rintro ⟨_ | ⟨t, u⟩, finish, next, errors⟩ <;> exact ⟨Nat.le_refl _, rfl, trivial⟩

theorem quiet_atBlockEnd : Quiet (fun _ => True) atBlockEnd := by
  rintro ⟨_ | ⟨t, u⟩, finish, next, errors⟩ <;> exact ⟨Nat.le_refl _, rfl, trivial⟩

theorem quiet_take? (w : Kind → Bool) : Quiet (fun o => ∀ t ∈ o, w t.kind = true) (take? w) := by
  rintro ⟨_ | ⟨t, u⟩, finish, next, errors⟩
  · rw [take?_nil]
    exact ⟨Nat.le_refl _, rfl, nofun⟩
  · rw [take?_cons]
    by_cases ht : w t.kind = true
    · rw [if_pos ht]
      refine ⟨Nat.le_refl _, rfl, ?_⟩
      rintro _ ⟨⟩
      exact ht
    · rw [if_neg ht]
      exact ⟨Nat.le_refl _, rfl, nofun⟩

theorem quiet_accept (k : Kind) : Quiet (fun _ => True) (accept k) :=
  (quiet_take? _).andThen fun _ _ => gives_pure fun _ => ⟨rfl, trivial⟩

theorem quiet_expect (k : Kind) (what : Expected) :
    Quiet (fun t => t.kind = k) (expect k what) := by
  refine (quiet_take? _).andThen fun o ho => ?_
  cases o with
  | none => exact gives_fail what
  | some t => exact gives_pure fun _ => ⟨rfl, of_decide_eq_true (ho t rfl)⟩

theorem gives_fresh_bind {f : NodeId → Rule β}
    (hf : ∀ i, Gives (fun n m b => n = i + 1 → R i m b) (f i)) : Gives R (fresh >>= f) := by
  have hfresh : Gives (fun n m i => i = n ∧ m = n + 1) fresh := fun s =>
    ⟨Nat.le_succ _, rfl, rfl⟩
  refine hfresh.bind fun i => (hf i).imp fun k m b hb n hi => ?_
  obtain ⟨rfl, rfl⟩ := hi
  exact hb rfl

theorem gives_expect_bind {k : Kind} {what : Expected} {f : Token → Rule β}
    (hf : ∀ t, t.kind = k → Gives R (f t)) : Gives R (expect k what >>= f) :=
  (quiet_expect k what).andThen hf

theorem gives_accept_bind {k : Kind} {f : Bool → Rule β} (htrue : Gives R (f true))
    (hfalse : Gives R (f false)) : Gives R (accept k >>= f) :=
  (quiet_accept k).andThen fun b _ => by cases b with
    | true => exact htrue
    | false => exact hfalse

theorem gives_behind? {Q : Result (Option α)} (k : Kind) (h : Gives P x) (hnone : ∀ n, Q n n none)
    (hsome : ∀ {n m a}, P n m a → Q n m (some a)) : Gives Q (behind? k x) := by
  refine gives_accept_bind ?_ (gives_pure hnone)
  exact h.bind fun a => gives_pure fun _ _ ha => hsome ha

end Primitives

/-! ### Lists -/

section Items

variable {P : Result α} {L : Result (List α)} (nil : ∀ n, L n n [])
  (cons : ∀ {n k m a l}, P n k a → L k m l → L n m (a :: l))

include nil cons

theorem commaSeparated_gives {item : Nat → Rule α} (h : ∀ count, Gives P (item count))
    (n count : Nat) : Gives L (commaSeparated item n count) := by
  have one {n m : NodeId} {a : α} (ha : P n m a) : L n m [a] := cons ha (nil m)
  induction n generalizing count with
  | zero => exact (h count).bind fun a => gives_pure fun _ _ ha => one ha
  | succ n ih =>
    unfold commaSeparated
    refine (h count).bind fun a => gives_accept_bind ?_ (gives_pure fun _ _ ha => one ha)
    exact (ih (count + 1)).bind fun l => gives_pure fun _ _ hl _ ha => cons ha hl

/-- However many items there are, they are read. -/
theorem items_gives {item : Rule α} (h : Gives P item) (tooMany : SyntaxFault) (n : Nat) :
    Gives L (items item tooMany n) := by
  refine (quiet_nextIs _).andThen fun isEnd _ => ?_
  cases isEnd with
  | true => exact gives_pure nil
  | false =>
    refine commaSeparated_gives nil cons (fun count => ?_) n 0
    by_cases hc : maxArity ≤ count
    · rw [if_pos hc]
      exact quiet_peek.andThen fun t _ => (quiet_report t tooMany).andThen fun _ _ => h
    · rw [if_neg hc]
      exact h

end Items

/-! ### Expressions -/

abbrev GivesTree (x : Rule Expr) : Prop :=
  Gives Expr.Whole x

theorem consumed_gives {t : Token} {e : Expr} {R : Result Expr} (h : ∀ n, R n n e) :
    Gives R (primary.consumed t e) :=
  (quiet_accept _).andThen fun _ _ => gives_pure h

theorem primary_gives {inner : Rule Expr} (h : GivesTree inner) : GivesTree (primary inner) := by
  refine quiet_peek.andThen fun t _ => ?_
  have literal (value : Literal) : GivesTree (primary.consumed t (.literal value)) :=
    consumed_gives fun n => .of_nodes_nil trivial rfl
  have reference (make : NodeId → Expr) (hform : ∀ i, (make i).Formed Token.Any)
      (hnodes : ∀ i, (make i).nodes = [i]) {n m : NodeId} (hm : m = n + 1) :
      (make n).Whole n m := by
    refine ⟨hform n, ?_⟩
    rw [hnodes n, hm]
    exact .single
  split
  all_goals rename_i ht
  · exact literal _
  · exact literal _
  · exact literal _
  · exact literal _
  · exact literal _
  · refine gives_fresh_bind fun i => consumed_gives fun n hn => ?_
    exact reference (.variable · t) (fun _ => Token.names_any ht) (fun _ => rfl) hn
  · refine gives_fresh_bind fun i => consumed_gives fun n hn => ?_
    exact reference (.this · t) (fun _ => ⟨trivial, ht⟩) (fun _ => rfl) hn
  · refine (quiet_accept _).andThen fun _ _ => gives_expect_bind fun _ _ =>
      gives_expect_bind fun method hm => gives_fresh_bind fun i => gives_pure fun n hn => ?_
    exact reference (.super · t method)
      (fun _ => ⟨⟨trivial, ht⟩, Token.names_any hm⟩) (fun _ => rfl) hn
  · refine (quiet_accept _).andThen fun _ _ => h.bind fun e => ?_
    exact gives_expect_bind fun _ _ => gives_pure fun _ _ he => he
  · exact gives_fail _

theorem callArguments_gives {inner : Rule Expr} (h : GivesTree inner) (n : Nat) (callee : Expr) :
    Gives (fun k m e => ∀ n, callee.Whole n k → e.Whole n m) (callArguments inner n callee) := by
  refine (items_gives (L := Expr.AllWhole) (fun _ => .nil) .cons h _ n).bind fun arguments => ?_
  refine gives_expect_bind fun closing _ => gives_pure fun m k ha n hcallee => ?_
  exact ⟨⟨hcallee.1, trivial, ha.1⟩, hcallee.2.append ha.2⟩

theorem suffixes_gives {inner : Rule Expr} (h : GivesTree inner) (n : Nat) (e : Expr) :
    Gives (fun k m e' => ∀ n, e.Whole n k → e'.Whole n m) (suffixes inner n e) := by
  induction n generalizing e with
  | zero => exact gives_pure fun _ _ he => he
  | succ n ih =>
    unfold suffixes
    refine gives_accept_bind ?_ (gives_accept_bind ?_ (gives_pure fun _ _ he => he))
    · refine (callArguments_gives h n e).bind fun call => (ih call).imp ?_
      exact fun _ _ _ hcall _ he _ hn => hcall _ (he _ hn)
    · refine gives_expect_bind fun name hname => (ih (.get e name)).imp ?_
      exact fun _ _ _ hget n he => hget n ⟨⟨he.1, Token.names_any hname⟩, he.2⟩

theorem join_formed {left right : Expr} {operator : Token} {rank : Nat}
    (h : operatorRank? operator.kind = some rank) (hl : left.Formed Token.Any)
    (hr : right.Formed Token.Any) : (join left operator right).Formed Token.Any := by
  have hrank := h
  unfold operatorRank? at h
  unfold join
  split at h <;> cases h <;> rename_i hk <;> simp only [hk] at hrank ⊢ <;>
    simp only [Expr.Formed, hk, hrank, hl, hr, Token.Any, and_true, Option.some.injEq,
      exists_eq_right', Nat.reduceLeDiff, true_or, or_true]

theorem chain_gives {operand : Rule Expr} (h : GivesTree operand) (rank n : Nat) (left : Expr) :
    Gives (fun k m e => ∀ n, left.Whole n k → e.Whole n m) (chain operand rank n left) := by
  induction n generalizing left with
  | zero => exact gives_pure fun _ _ he => he
  | succ n ih =>
    unfold chain
    refine (quiet_take? _).andThen fun o ho => ?_
    cases o with
    | none => exact gives_pure fun _ _ he => he
    | some operator =>
      have hrank := of_decide_eq_true (ho operator rfl)
      refine h.bind fun right => (ih (join left operator right)).imp ?_
      refine fun _ _ _ hjoin _ hright n hleft => hjoin n ⟨join_formed hrank hleft.1 hright.1, ?_⟩
      rw [join_nodes]
      exact hleft.2.append hright.2

theorem unary_gives {inner : Nat → Rule Expr} (h : ∀ rank, GivesTree (inner rank)) (n : Nat) :
    GivesTree (unary inner n) := by
  refine (quiet_take? _).andThen fun o ho => ?_
  cases o with
  | none =>
    refine (primary_gives (h _)).bind fun e => (suffixes_gives (h _) n e).imp ?_
    exact fun _ _ _ hsuffixes n he => hsuffixes n he
  | some operator =>
    refine (h 0).bind fun operand => gives_pure fun _ _ he => ?_
    exact ⟨⟨⟨trivial, ho operator rfl⟩, he.1⟩, he.2⟩

theorem operation_gives {inner : Nat → Rule Expr} (h : ∀ rank, GivesTree (inner rank))
    (n rank : Nat) : GivesTree (operation inner n rank) := by
  induction rank with
  | zero => exact unary_gives h n
  | succ rank ih => exact ih.bind fun e => chain_gives (h rank) (rank + 1) n e

/-- A name or a property that is assigned to keeps its own tokens and identity. Any other target stays
the tree, and what was to be assigned to it is dropped. -/
theorem assignTo_gives (target : Expr) (equal : Token) (value : Expr) :
    Gives (fun j m e => ∀ k, value.Whole k j → ∀ n, target.Whole n k → e.Whole n m)
      (assignTo target equal value) := by
  match target with
  | .variable node name =>
    refine gives_pure fun _ _ hvalue _ htarget => ⟨⟨htarget.1, hvalue.1⟩, ?_⟩
    exact (htarget.2.append hvalue.2).append_comm
  | .get object name =>
    refine gives_pure fun _ _ hvalue _ htarget => ⟨⟨htarget.1.1, htarget.1.2, hvalue.1⟩, ?_⟩
    exact (htarget.2.append hvalue.2).append_comm
  | .literal _ | .grouping _ | .unary _ _ | .binary _ _ _ | .logical _ _ _ | .assign _ _ _
  | .call _ _ _ | .set _ _ _ | .this _ _ | .super _ _ _ =>
    refine (quiet_report _ _).andThen fun _ _ => gives_pure fun _ _ hvalue _ htarget => ?_
    exact htarget.weaken hvalue.2.le

theorem assignment_gives {inner : Nat → Rule Expr} (h : ∀ rank, GivesTree (inner rank)) (n : Nat) :
    GivesTree (assignment inner n) := by
  refine (operation_gives h n _).bind fun target => (quiet_take? _).andThen fun o _ => ?_
  cases o with
  | none => exact gives_pure fun _ _ he => he
  | some equal => exact (h assignmentRank).bind fun value => assignTo_gives target equal value

theorem ranked_gives (n rank : Nat) : GivesTree (ranked n rank) := by
  induction n generalizing rank with
  | zero => exact gives_fail _
  | succ n ih =>
    unfold ranked
    split
    · exact operation_gives ih n rank
    · exact assignment_gives ih n

theorem expression_gives (n : Nat) : GivesTree (expression n) :=
  ranked_gives n assignmentRank

theorem terminated_gives (n : Nat) (missing : Expected) : GivesTree (terminated n missing) :=
  (expression_gives n).bind fun _ => gives_expect_bind fun _ _ => gives_pure fun _ _ he => he

/-! ### Statements -/

/-- An expression that may be absent. -/
abbrev Optional (n m : NodeId) (o : Option Expr) : Prop :=
  (∀ e ∈ o, e.Formed Token.Any) ∧ Fresh n m (optionalNodes o)

theorem optional_none (n : NodeId) : Optional n n none :=
  ⟨nofun, .nil (Nat.le_refl n)⟩

theorem optional_some {n m : NodeId} {e : Expr} (h : e.Whole n m) : Optional n m (some e) := by
  refine ⟨?_, h.2⟩
  rintro _ ⟨⟩
  exact h.1

theorem expressionUnless_gives (k : Kind) (n : Nat) : Gives Optional (expressionUnless k n) := by
  refine (quiet_nextIs k).andThen fun isEnd _ => ?_
  cases isEnd with
  | true => exact gives_pure optional_none
  | false => exact (expression_gives n).bind fun e => gives_pure fun _ _ => optional_some

theorem var_formed {name : Token} {o : Option Expr} (hname : name.kind = .identifier)
    (h : ∀ e ∈ o, e.Formed Token.Any) : (Stmt.var name o).Formed Token.Any := by
  cases o with
  | none =>
    simp only [Stmt.Formed]
    exact Token.names_any hname
  | some e =>
    simp only [Stmt.Formed]
    exact ⟨Token.names_any hname, h e rfl⟩

theorem var_nodes (name : Token) (o : Option Expr) : (Stmt.var name o).nodes = optionalNodes o := by
  cases o <;> rfl

theorem varDeclaration_gives (p : Parts) : Gives Stmt.Whole (varDeclaration p) := by
  refine gives_expect_bind fun name hname =>
    (gives_behind? _ (expression_gives _) optional_none optional_some).bind fun o =>
    gives_expect_bind fun _ _ => gives_pure fun m n ho => ⟨var_formed hname ho.1, ?_⟩
  rw [var_nodes]
  exact ho.2

theorem desugarFor_formed {initial : Option Stmt} {condition increment : Option Expr} {body : Stmt}
    (hi : ∀ s ∈ initial, s.Formed Token.Any) (hc : ∀ e ∈ condition, e.Formed Token.Any)
    (hn : ∀ e ∈ increment, e.Formed Token.Any)
    (hb : body.declared? = none ∧ body.Formed Token.Any) :
    (desugarFor initial condition increment body).declared? = none ∧
      (desugarFor initial condition increment body).Formed Token.Any := by
  cases initial <;> cases condition <;> cases increment <;>
    simp_all [desugarFor, Stmt.declared?, Stmt.Formed, Stmt.AllFormed, Expr.Formed]

/-- What the rules for the parts of statements give. -/
structure Parts.Give (p : Parts) : Prop where
  statement : Gives Stmt.WholeBranch p.statement
  declarations : Gives Stmt.AllWhole p.declarations

variable {p : Parts}

theorem forInitial_gives :
    Gives (fun n m o => (∀ s ∈ o, s.Formed Token.Any) ∧ Fresh n m (o.elim [] Stmt.nodes))
      (forInitial p) := by
  have present {n m : NodeId} {s : Stmt} (h : s.Whole n m) :
      (∀ s' ∈ some s, s'.Formed Token.Any) ∧ Fresh n m ((some s).elim [] Stmt.nodes) := by
    refine ⟨?_, h.2⟩
    rintro _ ⟨⟩
    exact h.1
  refine gives_accept_bind ?_ (gives_accept_bind ?_ ?_)
  · exact gives_pure fun n => ⟨nofun, .nil (Nat.le_refl n)⟩
  · exact (varDeclaration_gives p).bind fun s => gives_pure fun _ _ => present
  · refine (terminated_gives _ _).bind fun e => gives_pure fun _ _ he => present ?_
    refine ⟨?_, he.2⟩
    simp only [Stmt.Formed]
    exact he.1

section Parts

variable (hp : p.Give)

include hp

theorem block_gives : Gives Stmt.AllWhole (block p) :=
  hp.declarations.bind fun _ => gives_expect_bind fun _ _ => gives_pure fun _ _ hss => hss

theorem function_gives (form : FunctionForm) : Gives FunctionDecl.Whole (function p form) := by
  refine gives_expect_bind fun name hname => gives_expect_bind fun _ _ => ?_
  have parameter : Quiet (fun t => t.Names Token.Any) (expect .identifier .parameterName) :=
    (quiet_expect _ _).imp fun _ _ _ ht => ⟨ht.1, Token.names_any ht.2⟩
  have parameters : Quiet (fun l => ∀ t ∈ l, t.Names Token.Any)
      (items (expect .identifier .parameterName) .tooManyParameters p.bound) :=
    items_gives (fun _ => ⟨rfl, nofun⟩)
      (fun ht hl => ⟨ht.1.trans hl.1, List.forall_mem_cons.2 ⟨ht.2, hl.2⟩⟩) parameter _ _
  refine parameters.andThen fun l hl => gives_expect_bind fun _ _ => gives_expect_bind fun _ _ => ?_
  refine (block_gives hp).bind fun body => gives_pure fun _ _ hbody => ⟨?_, hbody.2⟩
  simp only [FunctionDecl.Formed]
  exact ⟨Token.names_any hname, hl, hbody.1⟩

theorem methods_gives (n : Nat) : Gives Stmt.MethodsWhole (methods p n) := by
  have nil (n : NodeId) : Stmt.MethodsWhole n n [] :=
    ⟨by simp only [Stmt.MethodsFormed], .nil (Nat.le_refl n)⟩
  induction n with
  | zero => exact gives_pure nil
  | succ n ih =>
    unfold methods
    refine quiet_atBlockEnd.andThen fun isEnd _ => ?_
    cases isEnd with
    | true => exact gives_pure nil
    | false =>
      refine (function_gives hp .method).bind fun f => ih.bind fun fs => gives_pure ?_
      refine fun _ _ hfs _ hf => ⟨?_, hf.2.append hfs.2⟩
      simp only [Stmt.MethodsFormed]
      exact ⟨hf.1, hfs.1⟩

theorem classDeclaration_gives : Gives Stmt.Whole (classDeclaration p) := by
  have reference : Gives (fun n m o => (∀ e ∈ o, ∃ node name, e = .variable node name ∧
      name.Names Token.Any) ∧ Fresh n m (optionalNodes o))
      (behind? (.mark .less) superclassReference) := by
    refine gives_behind? (P := fun n m e => ∃ name, e = .variable n name ∧ name.Names Token.Any ∧
      m = n + 1) _ ?_ ?_ ?_
    · exact gives_expect_bind fun name hname => gives_fresh_bind fun i => gives_pure fun n hn =>
        ⟨name, rfl, Token.names_any hname, hn⟩
    · exact fun n => ⟨nofun, .nil (Nat.le_refl n)⟩
    · rintro n _ _ ⟨name, rfl, hname, rfl⟩
      refine ⟨?_, Fresh.single⟩
      rintro _ ⟨⟩
      exact ⟨n, name, rfl, hname⟩
  refine gives_expect_bind fun name hname => reference.bind fun o => gives_expect_bind fun _ _ =>
    (methods_gives hp _).bind fun fs => gives_expect_bind fun _ _ => gives_pure ?_
  refine fun _ _ hfs _ ho => ⟨?_, ?_⟩
  · cases o with
    | none =>
      simp only [Stmt.Formed]
      exact ⟨Token.names_any hname, hfs.1⟩
    | some e =>
      simp only [Stmt.Formed]
      exact ⟨Token.names_any hname, ho.1 e rfl, hfs.1⟩
  · rw [nodes_class]
    exact ho.2.append hfs.2

theorem forStatement_gives : Gives Stmt.WholeBranch (forStatement p) := by
  refine gives_expect_bind fun _ _ => forInitial_gives.bind fun initial =>
    (expressionUnless_gives _ _).bind fun condition => gives_expect_bind fun _ _ =>
    (expressionUnless_gives _ _).bind fun increment => gives_expect_bind fun _ _ =>
    hp.statement.bind fun body => gives_pure ?_
  intro _ _ hbody _ hincrement _ hcondition _ hinitial
  obtain ⟨hdeclared, hformed⟩ := desugarFor_formed hinitial.1 hcondition.1 hincrement.1
    ⟨hbody.1, hbody.2.1⟩
  refine ⟨hdeclared, hformed, ?_⟩
  rw [desugarFor_nodes]
  exact hinitial.2.append (hcondition.2.append (hincrement.2.append hbody.2.2).append_comm)

theorem ifStatement_gives : Gives Stmt.WholeBranch (ifStatement p) := by
  have alternative : Gives (fun n m o => (∀ s ∈ o, s.declared? = none ∧ s.Formed Token.Any) ∧
      Fresh n m (o.elim [] Stmt.nodes)) (behind? (.keyword .else) p.statement) := by
    refine gives_behind? _ hp.statement (fun n => ⟨nofun, .nil (Nat.le_refl n)⟩) fun hs => ?_
    refine ⟨?_, hs.2.2⟩
    rintro _ ⟨⟩
    exact ⟨hs.1, hs.2.1⟩
  refine gives_expect_bind fun _ _ => (expression_gives _).bind fun condition =>
    gives_expect_bind fun _ _ => hp.statement.bind fun consequent =>
    alternative.bind fun o => gives_pure ?_
  intro m l ho k hconsequent n hcondition
  have nodes := hcondition.2.append (hconsequent.2.2.append ho.2)
  cases o with
  | none =>
    refine ⟨rfl, ?_, ?_⟩
    · simp only [Stmt.Formed]
      exact ⟨hcondition.1, hconsequent.1, hconsequent.2.1⟩
    · simpa only [Stmt.nodes, Option.elim_none, List.append_nil] using nodes
  | some s =>
    refine ⟨rfl, ?_, ?_⟩
    · simp only [Stmt.Formed]
      exact ⟨hcondition.1, ⟨hconsequent.1, hconsequent.2.1⟩, ho.1 s rfl⟩
    · simpa only [Stmt.nodes, Option.elim_some, List.append_assoc] using nodes

theorem whileStatement_gives : Gives Stmt.WholeBranch (whileStatement p) := by
  refine gives_expect_bind fun _ _ => (expression_gives _).bind fun condition =>
    gives_expect_bind fun _ _ => hp.statement.bind fun body => gives_pure ?_
  refine fun _ _ hbody _ hcondition => ⟨rfl, ?_, hcondition.2.append hbody.2.2⟩
  simp only [Stmt.Formed]
  exact ⟨hcondition.1, hbody.1, hbody.2.1⟩

omit hp in
theorem returnStatement_gives (keyword : Token) :
    Gives Stmt.WholeBranch (returnStatement p keyword) := by
  refine (expressionUnless_gives _ _).bind fun o => gives_expect_bind fun _ _ => gives_pure ?_
  refine fun _ _ ho => ⟨rfl, ?_, ?_⟩
  · cases o with
    | none =>
      simp only [Stmt.Formed]
      trivial
    | some e =>
      simp only [Stmt.Formed]
      exact ⟨trivial, ho.1 e rfl⟩
  · rw [nodes_return]
    exact ho.2

theorem statementOf_gives : Gives Stmt.WholeBranch (statementOf p) := by
  have ofExpression {make : Expr → Stmt} (n : Nat) (missing : Expected)
      (hdeclared : ∀ e, (make e).declared? = none)
      (hformed : ∀ e, e.Formed Token.Any → (make e).Formed Token.Any)
      (hnodes : ∀ e, (make e).nodes = e.nodes) :
      Gives Stmt.WholeBranch (do return make (← terminated n missing)) := by
    refine (terminated_gives n missing).bind fun e => gives_pure fun _ _ he => ?_
    refine ⟨hdeclared e, hformed e he.1, ?_⟩
    rw [hnodes]
    exact he.2
  refine quiet_peek.andThen fun t _ => ?_
  refine gives_accept_bind (forStatement_gives hp) (gives_accept_bind (ifStatement_gives hp) ?_)
  refine gives_accept_bind (ofExpression _ _ (fun _ => rfl) (fun _ he => ?_) fun _ => rfl) ?_
  · simpa only [Stmt.Formed] using he
  refine gives_accept_bind (returnStatement_gives t) (gives_accept_bind (whileStatement_gives hp) ?_)
  refine gives_accept_bind ?_ (ofExpression _ _ (fun _ => rfl) (fun _ he => ?_) fun _ => rfl)
  · refine (block_gives hp).bind fun body => gives_pure fun _ _ hbody => ⟨rfl, ?_, hbody.2⟩
    simp only [Stmt.Formed]
    exact hbody.1
  · simpa only [Stmt.Formed] using he

theorem declarationOf_gives : Gives Stmt.Whole (declarationOf p) := by
  refine gives_accept_bind (classDeclaration_gives hp) (gives_accept_bind ?_ ?_)
  · refine (function_gives hp .function).bind fun f => gives_pure fun _ _ hf => ⟨?_, hf.2⟩
    simp only [Stmt.Formed]
    exact hf.1
  · refine gives_accept_bind (varDeclaration_gives p) ?_
    exact (statementOf_gives hp).imp fun _ _ _ hs => hs.2

/-- A declaration that is abandoned gives no statement, and the identities that were given out in it
are not given out again. -/
theorem declaration_gives (s : Reading) :
    s.next ≤ (declaration p s).2.next ∧
      ∀ stmt ∈ (declaration p s).1, stmt.Whole s.next (declaration p s).2.next := by
  have hgives := declarationOf_gives hp s
  unfold declaration
  cases hx : declarationOf p s with
  | error e s' =>
    simp only [hx] at hgives ⊢
    exact ⟨hgives, nofun⟩
  | ok stmt s' =>
    simp only [hx] at hgives ⊢
    refine ⟨hgives.1, ?_⟩
    rintro _ ⟨⟩
    exact hgives.2

end Parts

/-- Behind a declaration, whether or not it was abandoned. -/
theorem allWhole_toList_append {n k m : NodeId} {first : Option Stmt} {others : List Stmt}
    (hle : n ≤ k) (hfirst : ∀ stmt ∈ first, stmt.Whole n k) (hothers : Stmt.AllWhole k m others) :
    Stmt.AllWhole n m (first.toList ++ others) := by
  cases first with
  | none => exact hothers.skip hle
  | some stmt => exact .cons (hfirst stmt rfl) hothers

theorem parts_give (n : Nat) : Parts.Give ⟨n, statement n, declarations n⟩ := by
  induction n with
  | zero => exact ⟨gives_fail _, gives_pure fun _ => .nil⟩
  | succ n ih =>
    refine ⟨statementOf_gives ih, ?_⟩
    show Gives Stmt.AllWhole (declarations (n + 1))
    unfold declarations
    refine quiet_atBlockEnd.andThen fun isEnd _ => ?_
    cases isEnd with
    | true => exact gives_pure fun _ => .nil
    | false =>
      have first : Gives (fun n m o => n ≤ m ∧ ∀ stmt ∈ o, stmt.Whole n m)
          (modifyGet (declaration ⟨n, statement n, declarations n⟩)) := fun s =>
        ⟨(declaration_gives ih s).1, declaration_gives ih s⟩
      refine first.bind fun o => ih.declarations.bind fun others => gives_pure ?_
      exact fun _ _ hothers _ ho => allWhole_toList_append ho.1 ho.2 hothers

theorem program_whole (n : Nat) (s : Reading) :
    Stmt.AllWhole s.next (program n s).2.next (program n s).1 := by
  induction n generalizing s with
  | zero => exact .nil
  | succ n ih =>
    unfold program
    split
    · exact .nil
    · obtain ⟨hle, hfirst⟩ := declaration_gives (parts_give n) s
      exact allWhole_toList_append hle hfirst (ih _)

end Rule

/-! ### Whole programs -/

theorem parseTokens_whole (tokens : List Token) (next : NodeId) :
    Stmt.AllWhole next (parseTokens tokens next).next (parseTokens tokens next).statements :=
  Rule.program_whole _ _

/-- Without an error, no list of arguments or parameters is too long. -/
theorem parseTokens_moderate {tokens : List Token} {next : NodeId}
    (h : (parseTokens tokens next).errors = []) :
    Stmt.AllModerate (parseTokens tokens next).statements := by
  obtain ⟨hprogram, -⟩ := (parseTokens_sound tokens next).2 h
  exact (Stmt.allModerate_anonymous _).1 hprogram.moderate

/-- Reads lists of tokens one after the other, each with identities behind those of the ones before. -/
def parseInTurn : List (List Token) → (next : NodeId) → List Parsed
  | [], _ => []
  | tokens :: others, next =>
    parseTokens tokens next :: parseInTurn others (parseTokens tokens next).next

/-- The identities in all that has been read. -/
def nodesInTurn (sources : List Parsed) : List NodeId :=
  sources.flatMap fun parsed => Stmt.nodesOfAll parsed.statements

theorem parseInTurn_nodes (sources : List (List Token)) (next : NodeId) :
    ∃ next', Fresh next next' (nodesInTurn (parseInTurn sources next)) := by
  induction sources generalizing next with
  | nil => exact ⟨next, .nil (Nat.le_refl next)⟩
  | cons tokens others ih =>
    obtain ⟨next', hothers⟩ := ih (parseTokens tokens next).next
    exact ⟨next', (parseTokens_whole tokens next).2.append hothers⟩

/-- Whatever tokens are read in turn, and whatever errors they have: no two references share an
identity, all statements are well-formed, and those of tokens without an error have no call with more
than 255 arguments and no function with more than 255 parameters. -/
theorem parseInTurn_formed (sources : List (List Token)) (next : NodeId) :
    (nodesInTurn (parseInTurn sources next)).Nodup ∧
      ∀ parsed ∈ parseInTurn sources next, Stmt.AllFormed Token.Any parsed.statements ∧
        (parsed.errors = [] → Stmt.AllModerate parsed.statements) := by
  refine ⟨(parseInTurn_nodes sources next).choose_spec.nodup, ?_⟩
  induction sources generalizing next with
  | nil => exact nofun
  | cons tokens others ih =>
    intro parsed hparsed
    rcases List.mem_cons.1 hparsed with rfl | hothers
    · exact ⟨(parseTokens_whole tokens next).1, parseTokens_moderate⟩
    · exact ih _ parsed hothers

end Treewalk
