import Treewalk.Proofs.Resolution.Identities
import Treewalk.Proofs.Tree.Grammar
import Treewalk.Proofs.Tree.Yields
/-!
# Trees that are read are derived

Every rule of the reader that adds no error yields a sentence of its symbol of the grammar, with
identities of their own for its references. In particular so does a whole program (`program_sound`).
-/

namespace Treewalk
namespace Rule

/-! ### Expressions -/

/-- A sentence of the symbol `G` with its tree, whose identities are its own. -/
def Sentence (G : List Token → Expr → Prop) (u : List Token) (n m : NodeId) (e : Expr) : Prop :=
  G u e.anonymous ∧ Fresh n m e.nodes

abbrev Reads (G : List Token → Expr → Prop) (x : Rule Expr) : Prop :=
  Yields (fun u _ => Sentence G u) x

theorem consumed_yields {t finish : Token} {rest : List Token} {next : NodeId}
    {errors : List SyntaxError} {e : Expr} {P : Post Expr} (h : P [t] rest next next e) :
    YieldsAt P (primary.consumed t e) ⟨t :: rest, finish, next, errors⟩ :=
  YieldsAt.after (u := [t]) (accept_cons rfl) rfl rfl rfl rfl
    ⟨rfl, Nat.le_refl _, [], rfl, fun _ => ⟨[], rfl, h⟩⟩

theorem primary_yields {inner : Rule Expr} (h : Reads Grammar.Expression inner) :
    Reads Grammar.Primary (primary inner) := by
  rintro ⟨_ | ⟨t, rest⟩, finish, next, errors⟩ hs
  · refine YieldsAt.peek ?_
    rw [show (([] : List Token).headD finish).kind = .eof from hs]
    exact yields_fail _ hs
  · refine YieldsAt.peek ?_
    dsimp only [List.headD_cons]
    split
    all_goals rename_i ht
    · exact consumed_yields ⟨.false ht, .nil (Nat.le_refl _)⟩
    · exact consumed_yields ⟨.true ht, .nil (Nat.le_refl _)⟩
    · exact consumed_yields ⟨.nil ht, .nil (Nat.le_refl _)⟩
    · exact consumed_yields ⟨.number ht, .nil (Nat.le_refl _)⟩
    · exact consumed_yields ⟨.string ht, .nil (Nat.le_refl _)⟩
    · refine YieldsAt.behind (u := []) rfl rfl rfl rfl (Nat.le_succ _) ?_
      exact consumed_yields ⟨.variable ht, .single⟩
    · refine YieldsAt.behind (u := []) rfl rfl rfl rfl (Nat.le_succ _) ?_
      exact consumed_yields ⟨.this ht, .single⟩
    · refine YieldsAt.after (u := [t]) (accept_cons rfl) rfl rfl rfl rfl ?_
      refine (yields_expect_bind fun dot hd => yields_expect_bind fun method hm => ?_ :
        Yields _ _) _ hs
      exact yields_fresh_bind fun i => yields_pure fun r n hn => hn ▸ ⟨.super ht hd hm, .single⟩
    · refine YieldsAt.after (u := [t]) (accept_cons rfl) rfl rfl rfl rfl ?_
      refine (h.bind fun e => yields_expect_bind fun closing hc => yields_pure ?_ : Yields _ _) _ hs
      intro r m u n he
      exact ⟨by simpa using Grammar.Primary.grouping ht he.1 hc, he.2⟩
    · exact yields_fail _ hs

theorem callArguments_yields {inner : Rule Expr}
    (h : Reads Grammar.Expression inner) (fuel : Nat) (callee : Expr) :
    Yields (fun w _ n m e => ∀ u k opening, Sentence Grammar.Call u k n callee →
      opening.kind = .mark .leftParen → Sentence Grammar.Call (u ++ opening :: w) k m e)
      (callArguments inner fuel callee) := by
  refine (items_yields (P := fun u _ => Sentence Grammar.Expression u) (L := fun u _ n m l =>
    Grammar.Expressions u (Expr.anonymousAll l) ∧ Fresh n m (Expr.nodesOfAll l)) ?_ ?_
    h _ _).bind fun arguments => ?_
  · intro u r n m e he
    exact ⟨.one he.1, by simpa [Expr.nodesOfAll] using he.2⟩
  · intro u comma w r n k m e l he hc hl
    exact ⟨.more he.1 hc hl.1, he.2.append hl.2⟩
  · refine yields_expect_bind fun closing hc => yields_pure ?_
    intro r m w k hw u n opening hcallee ho
    obtain ⟨rfl, rfl, rfl⟩ | ⟨⟨ha, hf⟩, hlength⟩ := hw
    · exact ⟨by simpa using Grammar.Call.call hcallee.1 ho .none hc, by
        simpa [Expr.nodes, Expr.nodesOfAll] using hcallee.2⟩
    · exact ⟨by
        simpa using Grammar.Call.call hcallee.1 ho (.some ha (by simpa using hlength)) hc,
        hcallee.2.append hf⟩

theorem suffixes_yields {inner : Rule Expr}
    (h : Reads Grammar.Expression inner) (fuel : Nat) (e : Expr) :
    Yields (fun w _ n m e' => ∀ u k, Sentence Grammar.Call u k n e →
      Sentence Grammar.Call (u ++ w) k m e') (suffixes inner fuel e) := by
  induction fuel generalizing e with
  | zero => exact yields_pure fun r n u k he => by simpa using he
  | succ fuel ih =>
    unfold suffixes
    refine yields_accept_bind (fun opening ho => ?_) (yields_accept_bind (fun dot hd => ?_) ?_)
    · refine (callArguments_yields h fuel e).bind fun e' => (ih e').imp ?_
      intro v r m l e'' hv w n hw u k he
      simpa using hv _ _ (hw _ _ _ he ho)
    · refine yields_expect_bind fun name hn => (ih _).imp ?_
      intro w r n m e' hw u k he
      simpa using hw _ _ ⟨.get he.1 hd hn, he.2⟩
    · exact yields_pure fun r n u k he => by simpa using he

theorem unary_yields {inner : Nat → Rule Expr} (h0 : Reads (Grammar.Operation 0) (inner 0))
    (h : Reads Grammar.Expression (inner assignmentRank)) (fuel : Nat) :
    Reads Grammar.Unary (unary inner fuel) := by
  refine yields_take?_bind (fun operator ho => ?_) ?_
  · refine h0.bind fun e => yields_pure fun r m u n he => ⟨?_, he.2⟩
    rw [List.append_nil]
    exact .operator (by simpa [isUnaryOperator] using ho) he.1.unary_of_zero
  · refine (primary_yields h).bind fun e => (suffixes_yields h fuel e).imp ?_
    intro w r k m e' hw u n he
    have := hw u n ⟨.primary he.1, he.2⟩
    exact ⟨.call this.1, this.2⟩

theorem mem_operators {k : Kind} {rank : Nat} (h : operatorRank? k = some rank) :
    k ∈ Grammar.operators rank := by
  unfold operatorRank? at h
  split at h <;> cases h <;> simp [Grammar.operators]

theorem operatorRank?_of_mem {rank : Nat} :
    ∀ k ∈ Grammar.operators rank, operatorRank? k = some rank := by
  unfold Grammar.operators
  split <;> simp [operatorRank?]

theorem join_anonymous {operator : Token} {rank : Nat} (h : operatorRank? operator.kind = some rank)
    (left right : Expr) : (join left operator right).anonymous =
      Grammar.operation rank left.anonymous operator right.anonymous := by
  unfold operatorRank? at h
  unfold join
  split at h <;> cases h <;> simp [Grammar.operation, *]

theorem join_nodes (left : Expr) (operator : Token) (right : Expr) :
    (join left operator right).nodes = left.nodes ++ right.nodes := by
  unfold join
  split <;> rfl

theorem chain_yields {operand : Rule Expr} {rank : Nat}
    (h : Reads (Grammar.Operation rank) operand) (fuel : Nat) (left : Expr) :
    Yields (fun w _ n m e => ∀ u k, Sentence (Grammar.Operation (rank + 1)) u k n left →
      Sentence (Grammar.Operation (rank + 1)) (u ++ w) k m e)
      (chain operand (rank + 1) fuel left) := by
  induction fuel generalizing left with
  | zero => exact yields_pure fun r n u k he => by simpa using he
  | succ fuel ih =>
    unfold chain
    refine yields_take?_bind (fun operator ho => ?_) ?_
    · have ho := of_decide_eq_true ho
      refine h.bind fun right => (ih _).imp ?_
      intro v r m l e hv w n hw u k hl
      have := hv (u ++ operator :: w) k
        ⟨join_anonymous ho left right ▸ .operation hl.1 (mem_operators ho) hw.1,
          join_nodes left operator right ▸ hl.2.append hw.2⟩
      simpa using this
    · exact yields_pure fun r n u k he => by simpa using he

theorem operation_yields {inner : Nat → Rule Expr}
    (hinner : ∀ rank < assignmentRank, Reads (Grammar.Operation rank) (inner rank))
    (h : Reads Grammar.Expression (inner assignmentRank)) (fuel : Nat) :
    ∀ rank < assignmentRank, Reads (Grammar.Operation rank) (operation inner fuel rank)
  | 0, h0 => (unary_yields (hinner 0 h0) h fuel).imp fun _ _ _ _ _ he => ⟨.unary he.1, he.2⟩
  | rank + 1, hr => by
    have hr' : rank < assignmentRank := Nat.lt_of_succ_lt hr
    refine (operation_yields hinner h fuel rank hr').bind fun e =>
      (chain_yields (hinner rank hr') fuel e).imp ?_
    intro w r k m e' hw u n he
    exact hw u n ⟨.operand he.1, he.2⟩

theorem assignment_yields {inner : Nat → Rule Expr}
    (hinner : ∀ rank < assignmentRank, Reads (Grammar.Operation rank) (inner rank))
    (h : Reads Grammar.Expression (inner assignmentRank)) (fuel : Nat) :
    Reads Grammar.Expression (assignment inner fuel) := by
  refine (operation_yields hinner h fuel 6 (by decide)).bind fun target =>
    yields_take?_bind (fun equal heq => ?_) ?_
  · have heq := of_decide_eq_true heq
    refine h.bind fun value => ?_
    match target with
    | .variable node name =>
      refine yields_pure fun r m w k hw u n hu => ?_
      obtain ⟨rfl, hname⟩ := hu.1.variable_eq
      exact ⟨by simpa using Grammar.Expression.assign hname heq hw.1,
        (hu.2.append hw.2).append_comm⟩
    | .get object name =>
      refine yields_pure fun r m w k hw u n hu => ?_
      obtain ⟨v, dot, rfl, ho, hd, hname⟩ := hu.1.get_eq
      exact ⟨by simpa using Grammar.Expression.set ho hd hname heq hw.1,
        (hu.2.append hw.2).append_comm⟩
    | .literal _ | .grouping _ | .unary _ _ | .binary _ _ _ | .logical _ _ _ | .assign _ _ _
    | .call _ _ _ | .set _ _ _ | .this _ _ | .super _ _ _ =>
      exact Yields.bind (P := fun _ _ _ _ _ => False) yields_report fun _ =>
        yields_pure fun _ _ _ _ h => h.elim
  · refine yields_pure fun r m u n he => ?_
    rw [List.append_nil]
    exact ⟨.operation he.1, he.2⟩

theorem ranked_yields (fuel : Nat) :
    (∀ rank < assignmentRank, Reads (Grammar.Operation rank) (ranked fuel rank)) ∧
      Reads Grammar.Expression (ranked fuel assignmentRank) := by
  induction fuel with
  | zero => exact ⟨fun _ _ => yields_fail, yields_fail⟩
  | succ fuel ih =>
    refine ⟨fun rank hr => ?_, ?_⟩
    · unfold ranked
      rw [if_pos hr]
      exact operation_yields ih.1 ih.2 fuel rank hr
    · unfold ranked
      rw [if_neg (Nat.lt_irrefl _)]
      exact assignment_yields ih.1 ih.2 fuel

theorem expression_yields (fuel : Nat) : Reads Grammar.Expression (expression fuel) :=
  (ranked_yields fuel).2

/-! ### Statements -/

/-- Like `Sentence`, for statements. -/
def StmtSentence (G : List Token → Stmt → Prop) (u : List Token) (n m : NodeId) (s : Stmt) :
    Prop :=
  G u s.anonymous ∧ Fresh n m s.nodes

/-- The identities in an expression that may be absent. -/
def optionalNodes (o : Option Expr) : List NodeId :=
  o.elim [] Expr.nodes

theorem anonymous_return (keyword : Token) (o : Option Expr) :
    (Stmt.return keyword o).anonymous = .return keyword (o.map Expr.anonymous) := by
  cases o <;> rfl

theorem nodes_return (keyword : Token) (o : Option Expr) :
    (Stmt.return keyword o).nodes = optionalNodes o := by
  cases o <;> rfl

theorem anonymous_class (name : Token) (o : Option Expr) (methods : List FunctionDecl) :
    (Stmt.class name o methods).anonymous =
      .class name (o.map Expr.anonymous) (Stmt.anonymousMethods methods) := by
  cases o <;> rfl

theorem nodes_class (name : Token) (o : Option Expr) (methods : List FunctionDecl) :
    (Stmt.class name o methods).nodes = optionalNodes o ++ Stmt.nodesOfMethods methods := by
  cases o <;> rfl

theorem desugarFor_anonymous (initial : Option Stmt) (condition increment : Option Expr)
    (body : Stmt) : (desugarFor initial condition increment body).anonymous =
      Grammar.lowered (initial.map Stmt.anonymous) (condition.map Expr.anonymous)
        (increment.map Expr.anonymous) body.anonymous := by
  cases initial <;> cases condition <;> cases increment <;> simp [desugarFor, Grammar.lowered]

theorem desugarFor_nodes (initial : Option Stmt) (condition increment : Option Expr)
    (body : Stmt) : (desugarFor initial condition increment body).nodes =
      initial.elim [] Stmt.nodes ++ (optionalNodes condition ++
        (body.nodes ++ optionalNodes increment)) := by
  cases initial <;> cases condition <;> cases increment <;>
    simp [desugarFor, optionalNodes, Stmt.nodes, Stmt.nodesOfAll, Expr.nodes]

theorem terminated_yields (fuel : Nat) (missing : Expected) :
    Yields (fun u _ n m e => ∃ w semicolon, u = w ++ [semicolon] ∧
      semicolon.kind = .mark .semicolon ∧ Sentence Grammar.Expression w n m e)
      (terminated fuel missing) := by
  refine (expression_yields fuel).bind fun e => yields_expect_bind fun t ht => yields_pure ?_
  intro r m u n he
  exact ⟨u, t, rfl, ht, he⟩

theorem expressionUnless_yields (k : Kind) (fuel : Nat) :
    Yields (fun u _ n m o => Grammar.Optional u (o.map Expr.anonymous) ∧
      Fresh n m (optionalNodes o)) (expressionUnless k fuel) := by
  refine yields_nextIs_bind fun b => ?_
  cases b with
  | true => exact yields_pure fun r n => ⟨.none, .nil (Nat.le_refl _)⟩
  | false =>
    refine (expression_yields fuel).bind fun e => yields_pure fun r m u n he => ?_
    rw [List.append_nil]
    exact ⟨.some he.1, he.2⟩

theorem varDeclaration_yields (p : Parts) :
    Yields (fun u _ n m s => ∀ keyword, keyword.kind = .keyword .var →
      StmtSentence Grammar.Variable (keyword :: u) n m s) (varDeclaration p) := by
  refine yields_expect_bind fun name hn =>
    yields_behind?_bind (expression_yields p.bound) (fun e => ?_) ?_
  · refine yields_expect_bind fun semicolon hs => yields_pure ?_
    intro r m equal u n heq he keyword hk
    exact ⟨by simpa using Grammar.Variable.initial hk hn heq he.1 hs, he.2⟩
  · refine yields_expect_bind fun semicolon hs => yields_pure ?_
    intro r m _ keyword hk
    exact ⟨.plain hk hn hs, .nil (Nat.le_refl _)⟩

/-- What a rule for statements yields. An `else` behind an open statement would have been its own. -/
def StatementRead : Post Stmt := fun u r n m s =>
  ∃ isOpen, (isOpen = true → NotNext (.keyword .else) r) ∧
    StmtSentence (Grammar.Statement isOpen) u n m s

theorem StatementRead.closed {u r : List Token} {n m : NodeId} {s : Stmt}
    (h : StmtSentence (Grammar.Statement false) u n m s) : StatementRead u r n m s :=
  ⟨false, by simp, h⟩

/-- What the rules for the parts of statements yield. -/
structure Parts.Yield (p : Parts) : Prop where
  statement : Yields StatementRead p.statement
  declarations : Yields (fun u _ n m ss => Grammar.Declarations u (Stmt.anonymousAll ss) ∧
    Fresh n m (Stmt.nodesOfAll ss)) p.declarations

variable {p : Parts} (hp : p.Yield)

include hp

theorem block_yields :
    Yields (fun u _ n m ss => ∀ opening, opening.kind = .mark .leftBrace →
      Grammar.Block (opening :: u) (Stmt.anonymousAll ss) ∧ Fresh n m (Stmt.nodesOfAll ss))
      (block p) := by
  refine hp.declarations.bind fun ss => yields_expect_bind fun closing hc => yields_pure ?_
  intro r m u n hss opening ho
  exact ⟨.intro ho hss.1 hc, hss.2⟩

theorem function_yields (form : FunctionForm) :
    Yields (fun u _ n m f => Grammar.Function u f.anonymous ∧ Fresh n m f.nodes)
      (function p form) := by
  refine yields_expect_bind fun name hn => yields_expect_bind fun opening ho => ?_
  refine (items_yields (P := fun u _ n m t => u = [t] ∧ n = m ∧ t.kind = .identifier)
    (L := fun u _ n m l => Grammar.Names u l ∧ n = m) ?_ ?_ ?_ _ _).bind fun parameters => ?_
  · rintro u r n m t ⟨rfl, rfl, ht⟩
    exact ⟨.one ht, rfl⟩
  · rintro u comma w r n k m t l ⟨rfl, rfl, ht⟩ hc ⟨hl, rfl⟩
    exact ⟨.more ht hc hl, rfl⟩
  · exact yields_expect
  · refine yields_expect_bind fun closing hc => yields_expect_bind fun brace hb => ?_
    refine (block_yields hp).bind fun body => yields_pure ?_
    intro r m w k hw u n hu
    have hparameters : Grammar.Parameters u parameters ∧ n = k := by
      obtain ⟨rfl, rfl, rfl⟩ | ⟨⟨hl, rfl⟩, hlength⟩ := hu
      · exact ⟨.none, rfl⟩
      · exact ⟨.some hl hlength, rfl⟩
    obtain ⟨hps, rfl⟩ := hparameters
    exact ⟨by simpa using Grammar.Function.intro hn ho hps hc (hw brace hb).1, (hw brace hb).2⟩

theorem methods_yields (fuel : Nat) :
    Yields (fun u _ n m fs => Grammar.Functions u (Stmt.anonymousMethods fs) ∧
      Fresh n m (Stmt.nodesOfMethods fs)) (methods p fuel) := by
  induction fuel with
  | zero => exact yields_pure fun r n => ⟨.nil, .nil (Nat.le_refl _)⟩
  | succ fuel ih =>
    unfold methods
    refine yields_atBlockEnd_bind fun b => ?_
    cases b with
    | true => exact yields_pure fun r n => ⟨.nil, .nil (Nat.le_refl _)⟩
    | false =>
      refine (function_yields hp .method).bind fun f => ih.bind fun fs => yields_pure ?_
      intro r m w k hfs u n hf
      rw [List.append_nil]
      exact ⟨.cons hf.1 hfs.1, hf.2.append hfs.2⟩

theorem classDeclaration_yields :
    Yields (fun u _ n m s => ∀ keyword, keyword.kind = .keyword .class →
      StmtSentence Grammar.Declaration (keyword :: u) n m s) (classDeclaration p) := by
  have hsuper : Yields (fun u _ n m e => ∃ name, u = [name] ∧ name.kind = .identifier ∧
      e = .variable n name ∧ m = n + 1) superclassReference :=
    yields_expect_bind fun name hn => yields_fresh_bind fun i => yields_pure
      fun r n h => ⟨name, rfl, hn, rfl, h⟩
  refine yields_expect_bind fun name hn => yields_behind?_bind hsuper (fun e => ?_) ?_
  · refine yields_expect_bind fun opening ho => (methods_yields hp _).bind fun fs =>
      yields_expect_bind fun closing hc => yields_pure ?_
    rintro r m v k hv less u n hl ⟨superName, rfl, hs, rfl, rfl⟩ keyword hk
    refine ⟨?_, ?_⟩
    · rw [anonymous_class]
      simpa using Grammar.Declaration.class hk hn (.some hl hs) ho hv.1 hc
    · rw [nodes_class]
      exact Fresh.single.append hv.2
  · refine yields_expect_bind fun opening ho => (methods_yields hp _).bind fun fs =>
      yields_expect_bind fun closing hc => yields_pure ?_
    intro r m v n hv _ keyword hk
    exact ⟨by simpa using Grammar.Declaration.class hk hn .none ho hv.1 hc, hv.2⟩

omit hp in
theorem forInitial_yields :
    Yields (fun u _ n m o => Grammar.Initial u (o.map Stmt.anonymous) ∧
      Fresh n m (o.elim [] Stmt.nodes)) (forInitial p) := by
  refine yields_accept_bind (fun semicolon hs => yields_pure fun r n => ?_)
    (yields_accept_bind (fun keyword hk => ?_) ?_)
  · exact ⟨.none hs, .nil (Nat.le_refl _)⟩
  · refine (varDeclaration_yields p).bind fun s => yields_pure fun r m u n hs => ?_
    rw [List.append_nil]
    exact ⟨.variable (hs keyword hk).1, (hs keyword hk).2⟩
  · refine (terminated_yields _ _).bind fun e => yields_pure ?_
    rintro r m u n ⟨w, semicolon, rfl, hs, he⟩
    rw [List.append_nil]
    exact ⟨.expression (.intro he.1 hs), he.2⟩

theorem forStatement_yields :
    Yields (fun u r n m s => ∀ keyword, keyword.kind = .keyword .for →
      StatementRead (keyword :: u) r n m s) (forStatement p) := by
  refine yields_expect_bind fun opening ho => forInitial_yields.bind fun initial =>
    (expressionUnless_yields _ _).bind fun condition => yields_expect_bind fun semicolon hs =>
    (expressionUnless_yields _ _).bind fun increment => yields_expect_bind fun closing hc =>
    hp.statement.bind fun body => yields_pure ?_
  rintro r m x k₃ ⟨isOpen, hopen, hbody⟩ w k₂ hw v k₁ hv u n hu keyword hk
  refine ⟨isOpen, hopen, ?_, ?_⟩
  · rw [desugarFor_anonymous]
    simpa using Grammar.Statement.for hk ho hu.1 hv.1 hs hw.1 hc hbody.1
  · rw [desugarFor_nodes]
    exact hu.2.append (hv.2.append (hw.2.append hbody.2).append_comm)

theorem ifStatement_yields :
    Yields (fun u r n m s => ∀ keyword, keyword.kind = .keyword .if →
      StatementRead (keyword :: u) r n m s) (ifStatement p) := by
  refine yields_expect_bind fun opening ho => (expression_yields _).bind fun condition =>
    yields_expect_bind fun closing hc => hp.statement.bind fun consequent =>
    yields_behind?_bind hp.statement (fun alternative => yields_pure ?_) (yields_pure ?_)
  · rintro r m otherwise w k₂ hotherwise ⟨isOpen, hopen, ha⟩ v k₁ ⟨isOpen', hopen', hv⟩ u n hu
      keyword hk
    have : isOpen' = false :=
      Bool.eq_false_iff.2 fun h => hopen' h otherwise (by simp) hotherwise
    subst this
    exact ⟨isOpen, hopen, by simpa using Grammar.Statement.ifElse hk ho hu.1 hc hv.1 hotherwise ha.1,
      by simpa [Stmt.nodes] using hu.2.append (hv.2.append ha.2)⟩
  · rintro r m hnone v k ⟨isOpen, hopen, hv⟩ u n hu keyword hk
    exact ⟨true, fun _ => hnone, by simpa using Grammar.Statement.if hk ho hu.1 hc hv.1,
      hu.2.append hv.2⟩

theorem whileStatement_yields :
    Yields (fun u r n m s => ∀ keyword, keyword.kind = .keyword .while →
      StatementRead (keyword :: u) r n m s) (whileStatement p) := by
  refine yields_expect_bind fun opening ho => (expression_yields _).bind fun condition =>
    yields_expect_bind fun closing hc => hp.statement.bind fun body => yields_pure ?_
  rintro r m v k ⟨isOpen, hopen, hv⟩ u n hu keyword hk
  exact ⟨isOpen, hopen, by simpa using Grammar.Statement.while hk ho hu.1 hc hv.1,
    hu.2.append hv.2⟩

omit hp in
theorem returnStatement_yields (keyword : Token) (hk : keyword.kind = .keyword .return) :
    Yields (fun u r n m s => StatementRead (keyword :: u) r n m s)
      (returnStatement p keyword) := by
  refine (expressionUnless_yields _ _).bind fun value => yields_expect_bind fun semicolon hs =>
    yields_pure fun r m u n hu => ?_
  refine .closed ⟨?_, ?_⟩
  · rw [anonymous_return]
    simpa using Grammar.Statement.return hk hu.1 hs
  · rw [nodes_return]
    exact hu.2

theorem statementOf_yields : Yields StatementRead (statementOf p) := by
  intro s hs
  refine YieldsAt.peek (YieldsAt.accept (fun t _ _ ht => ?_) fun _ => ?_)
  · exact ((forStatement_yields hp).imp fun _ _ _ _ _ h => h t ht) _ hs
  refine YieldsAt.accept (fun t _ _ ht => ?_) fun _ => ?_
  · exact ((ifStatement_yields hp).imp fun _ _ _ _ _ h => h t ht) _ hs
  refine YieldsAt.accept (fun t _ _ ht => ?_) fun _ => ?_
  · refine ((terminated_yields _ _).bind fun e => yields_pure ?_ : Yields _ _) _ hs
    rintro r m u n ⟨w, semicolon, rfl, hsemicolon, he⟩
    rw [List.append_nil]
    exact .closed ⟨.print ht he.1 hsemicolon, he.2⟩
  refine YieldsAt.accept (fun t rest hrest ht => ?_) fun _ => ?_
  · rw [hrest]
    exact returnStatement_yields t ht _ hs
  refine YieldsAt.accept (fun t _ _ ht => ?_) fun _ => ?_
  · exact ((whileStatement_yields hp).imp fun _ _ _ _ _ h => h t ht) _ hs
  refine YieldsAt.accept (fun t _ _ ht => ?_) fun _ => ?_
  · refine ((block_yields hp).bind fun ss => yields_pure ?_ : Yields _ _) _ hs
    intro r m u n hss
    rw [List.append_nil]
    exact .closed ⟨.block (hss t ht).1, (hss t ht).2⟩
  · refine ((terminated_yields _ _).bind fun e => yields_pure ?_ : Yields _ _) _ hs
    rintro r m u n ⟨w, semicolon, rfl, hsemicolon, he⟩
    rw [List.append_nil]
    exact .closed ⟨.expression (.intro he.1 hsemicolon), he.2⟩

theorem declarationOf_yields :
    Yields (fun u _ => StmtSentence Grammar.Declaration u) (declarationOf p) := by
  refine yields_accept_bind (fun t ht => ?_) <| yields_accept_bind (fun t ht => ?_) <|
    yields_accept_bind (fun t ht => ?_) ?_
  · exact (classDeclaration_yields hp).imp fun _ _ _ _ _ h => h t ht
  · refine (function_yields hp .function).bind fun f => yields_pure fun r m u n hf => ?_
    rw [List.append_nil]
    exact ⟨.function ht hf.1, hf.2⟩
  · exact (varDeclaration_yields p).imp fun _ _ _ _ _ h => ⟨.variable (h t ht).1, (h t ht).2⟩
  · exact (statementOf_yields hp).imp fun _ _ _ _ _ ⟨_, _, h⟩ => ⟨.statement h.1, h.2⟩

/-- If reading a declaration adds no error, then there is one. -/
theorem declaration_sound {s : Reading} (hs : s.finish.kind = .eof) :
    (declaration p s).2.finish = s.finish ∧ s.next ≤ (declaration p s).2.next ∧
      ∃ new, (declaration p s).2.errors = new ++ s.errors ∧ (new = [] → ∃ u stmt,
        (declaration p s).1 = some stmt ∧ s.rest = u ++ (declaration p s).2.rest ∧
          StmtSentence Grammar.Declaration u s.next (declaration p s).2.next stmt) := by
  have := declarationOf_yields hp s hs
  unfold YieldsAt at this
  unfold declaration
  cases h : declarationOf p s with
  | error e s' =>
    simp only [h] at this ⊢
    obtain ⟨hfin, hn, new, he⟩ := this
    exact ⟨hfin, hn, e :: new, by rw [he, List.cons_append], fun h => nomatch h⟩
  | ok stmt s' =>
    simp only [h] at this ⊢
    obtain ⟨hfin, hn, new, he, hP⟩ := this
    refine ⟨hfin, hn, new, he, fun h => ?_⟩
    obtain ⟨u, hu, hd⟩ := hP h
    exact ⟨u, stmt, rfl, hu, hd⟩

omit hp

theorem parts_yield (fuel : Nat) : Parts.Yield ⟨fuel, statement fuel, declarations fuel⟩ := by
  induction fuel with
  | zero =>
    exact ⟨yields_fail, yields_pure fun r n => ⟨.nil, .nil (Nat.le_refl _)⟩⟩
  | succ fuel ih =>
    refine ⟨statementOf_yields ih, ?_⟩
    show Yields _ (declarations (fuel + 1))
    unfold declarations
    refine yields_atBlockEnd_bind fun b => ?_
    cases b with
    | true => exact yields_pure fun r n => ⟨.nil, .nil (Nat.le_refl _)⟩
    | false =>
      refine Yields.bind (P := fun u _ n m o => ∃ s, o = some s ∧
        StmtSentence Grammar.Declaration u n m s) (fun s hs => ?_) fun o =>
        ih.declarations.bind fun ss => yields_pure ?_
      · obtain ⟨hfin, hn, new, he, hP⟩ := declaration_sound ih hs
        refine ⟨hfin, hn, new, he, fun h => ?_⟩
        obtain ⟨u, stmt, ho, hu, hd⟩ := hP h
        exact ⟨u, hu, stmt, ho, hd⟩
      · rintro r m w k hss u n ⟨s, rfl, hs⟩
        rw [List.append_nil]
        exact ⟨.cons hs.1 hss.1, hs.2.append hss.2⟩

/-- A program that is read without an error is derived, and its references have identities of their
own. -/
theorem program_sound (fuel : Nat) {s : Reading} (hs : s.finish.kind = .eof) :
    s.next ≤ (program fuel s).2.next ∧ ∃ new, (program fuel s).2.errors = new ++ s.errors ∧
      (new = [] → s.rest.length ≤ fuel →
        Grammar.Program s.rest (Stmt.anonymousAll (program fuel s).1) ∧
          Fresh s.next (program fuel s).2.next (Stmt.nodesOfAll (program fuel s).1)) := by
  induction fuel generalizing s with
  | zero =>
    refine ⟨Nat.le_refl _, [], rfl, fun _ hfuel => ?_⟩
    rw [List.eq_nil_of_length_eq_zero (Nat.le_zero.1 hfuel)]
    exact ⟨.nil, .nil (Nat.le_refl _)⟩
  | succ fuel ih =>
    unfold program
    by_cases hempty : s.rest.isEmpty = true
    · rw [if_pos hempty, List.isEmpty_iff.1 hempty]
      exact ⟨Nat.le_refl _, [], rfl, fun _ _ => ⟨.nil, .nil (Nat.le_refl _)⟩⟩
    · rw [if_neg hempty]
      have hd := declaration_sound (parts_yield fuel) hs
      generalize declaration ⟨fuel, statement fuel, declarations fuel⟩ s = d at hd ⊢
      obtain ⟨first, s₁⟩ := d
      obtain ⟨hfin, hn, new, he, hP⟩ := hd
      obtain ⟨hn', new', he', hP'⟩ := ih (s := s₁) (hfin ▸ hs)
      refine ⟨Nat.le_trans hn hn', new' ++ new, by rw [List.append_assoc, ← he]; exact he', ?_⟩
      intro h hfuel
      obtain ⟨rfl, rfl⟩ := List.append_eq_nil_iff.1 h
      obtain ⟨u, stmt, rfl, hu, hd⟩ := hP rfl
      have hlength : s₁.rest.length ≤ fuel := by
        obtain ⟨t, v, rfl, -⟩ := hd.1.head
        simp only [hu, List.length_append, List.length_cons] at hfuel
        omega
      obtain ⟨hprogram, hfresh⟩ := hP' rfl hlength
      rw [hu]
      exact ⟨.cons hd.1 hprogram, hd.2.append hfresh⟩

end Rule

theorem finishOf_kind (tokens : List Token) : (finishOf tokens).kind = .eof := by
  unfold finishOf
  cases h : tokens.find? (·.kind = .eof) with
  | none => rfl
  | some t => simpa using List.find?_some h

/-- What is read without an error is derived, and its references have identities of their own. -/
theorem parseTokens_sound (tokens : List Token) (next : NodeId) :
    next ≤ (parseTokens tokens next).next ∧ ((parseTokens tokens next).errors = [] →
      Grammar.Program (beforeFinish tokens)
          (Stmt.anonymousAll (parseTokens tokens next).statements) ∧
        Fresh next (parseTokens tokens next).next
          (Stmt.nodesOfAll (parseTokens tokens next).statements)) := by
  obtain ⟨hn, new, he, hP⟩ := Rule.program_sound (beforeFinish tokens).length
    (s := ⟨beforeFinish tokens, finishOf tokens, next, []⟩) (finishOf_kind tokens)
  refine ⟨hn, fun h => hP ?_ (Nat.le_refl _)⟩
  have := he.symm.trans (List.reverse_eq_nil_iff.1 h)
  simpa using this

end Treewalk
