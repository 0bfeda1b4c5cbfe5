import Treewalk.Proofs.Renaming.Trees
import Treewalk.Proofs.Tree.Yields
/-!
# Reading renamed tokens

The reader looks at the kinds of tokens and never at their lines, and gives identities to references
by counting. So from tokens on other lines, and with identities that are counted from elsewhere on, it
reads the renamed trees (`parseTokens_rename`).
-/

namespace Treewalk

/-- Consecutive identities stay consecutive. -/
def Renaming.Counts (ρ : Renaming) : Prop :=
  ∀ n, ρ.node (n + 1) = ρ.node n + 1

def SyntaxError.rename (ρ : Renaming) (e : SyntaxError) : SyntaxError := ⟨e.token.rename ρ, e.fault⟩

def Reading.rename (ρ : Renaming) (s : Reading) : Reading :=
  ⟨s.rest.map (Token.rename ρ), s.finish.rename ρ, ρ.node s.next, s.errors.map (SyntaxError.rename ρ)⟩

namespace Rule

variable {α α' β β' : Type} {ρ : Renaming}

/-- What `x` does to tokens, `x'` does to the renamed ones; `φ` renames what they return. -/
def Renames (ρ : Renaming) (φ : α → α') (x : Rule α) (x' : Rule α') : Prop :=
  ∀ s : Reading, x' (s.rename ρ) = match x s with
    | .ok a s' => .ok (φ a) (s'.rename ρ)
    | .error e s' => .error (e.rename ρ) (s'.rename ρ)

section Primitives

variable {φ : α → α'} {ψ : β → β'} {x : Rule α} {x' : Rule α'} {f : α → Rule β} {f' : α' → Rule β'}

theorem renames_pure {a : α} {a' : α'} (h : φ a = a') : Renames ρ φ (pure a) (pure a') := by
  subst h
  exact fun _ => rfl

theorem Renames.bind (h : Renames ρ φ x x') (hf : ∀ a, Renames ρ ψ (f a) (f' (φ a))) :
    Renames ρ ψ (x >>= f) (x' >>= f') := by
  intro s
  rw [bind_run, bind_run, h s]
  cases x s with
  | ok a s' => exact hf a s'
  | error e s' => rfl

theorem Renames.map (h : Renames ρ φ x x') {g : α → β} {g' : α' → β'} (hg : ∀ a, ψ (g a) = g' (φ a)) :
    Renames ρ ψ (do let a ← x; return g a) (do let a ← x'; return g' a) :=
  h.bind fun a => renames_pure (hg a)

theorem renames_ite {c : Bool} {y : Rule α} {y' : Rule α'} (hx : Renames ρ φ x x')
    (hy : Renames ρ φ y y') :
    Renames ρ φ (if c = true then x else y) (if c = true then x' else y') := by
  cases c with
  | true => exact hx
  | false => exact hy

theorem renames_peek : Renames ρ (Token.rename ρ) peek peek := by
  rintro ⟨_ | ⟨t, rest⟩, finish, next, errors⟩ <;> rfl

theorem renames_fail (what : Expected) : Renames ρ φ (fail what) (fail what) := by
  rintro ⟨_ | ⟨t, rest⟩, finish, next, errors⟩ <;> rfl

theorem renames_report (t : Token) (fault : SyntaxFault) :
    Renames ρ id (report t fault) (report (t.rename ρ) fault) :=
  fun _ => rfl

theorem renames_take? (wanted : Kind → Bool) :
    Renames ρ (Option.map (Token.rename ρ)) (take? wanted) (take? wanted) := by
  rintro ⟨_ | ⟨t, rest⟩, finish, next, errors⟩
  · rfl
  · show take? wanted ⟨t.rename ρ :: rest.map (Token.rename ρ), _, _, _⟩ = _
    rw [take?_cons, take?_cons, Token.kind_rename]
    cases wanted t.kind <;> rfl

theorem renames_accept (k : Kind) : Renames ρ id (accept k) (accept k) :=
  (renames_take? _).map fun t => by cases t <;> rfl

theorem renames_nextIs (k : Kind) : Renames ρ id (nextIs k) (nextIs k) := by
  rintro ⟨_ | ⟨t, rest⟩, finish, next, errors⟩ <;> rfl

theorem renames_atBlockEnd : Renames ρ id atBlockEnd atBlockEnd := by
  rintro ⟨_ | ⟨t, rest⟩, finish, next, errors⟩ <;> rfl

theorem renames_expect (k : Kind) (what : Expected) :
    Renames ρ (Token.rename ρ) (expect k what) (expect k what) := by
  refine (renames_take? _).bind fun t => ?_
  cases t with
  | none => exact renames_fail what
  | some t => exact renames_pure rfl

theorem renames_behind? (k : Kind) (h : Renames ρ φ x x') :
    Renames ρ (Option.map φ) (behind? k x) (behind? k x') := by
  refine (renames_accept k).bind fun b => renames_ite ?_ (renames_pure rfl)
  exact h.map fun _ => rfl

theorem renames_commaSeparated {item : Nat → Rule α} {item' : Nat → Rule α'}
    (h : ∀ count, Renames ρ φ (item count) (item' count)) (n count : Nat) :
    Renames ρ (List.map φ) (commaSeparated item n count) (commaSeparated item' n count) := by
  induction n generalizing count with
  | zero => exact (h count).map fun _ => rfl
  | succ n ih =>
    refine (h count).bind fun a => (renames_accept _).bind fun b => renames_ite ?_ (renames_pure rfl)
    exact (ih _).map fun _ => rfl

theorem renames_items (h : Renames ρ φ x x') (tooMany : SyntaxFault) (n : Nat) :
    Renames ρ (List.map φ) (items x tooMany n) (items x' tooMany n) := by
  refine (renames_nextIs _).bind fun b => renames_ite (renames_pure rfl) ?_
  refine renames_commaSeparated (fun count => ?_) n 0
  by_cases hc : maxArity ≤ count
  · rw [if_pos hc, if_pos hc]
    exact renames_peek.bind fun t => (renames_report t tooMany).bind fun _ => h
  · rw [if_neg hc, if_neg hc]
    exact h

end Primitives

/-! ### Expressions -/

section Expressions

variable {inner inner' : Nat → Rule Expr}

theorem join_rename (left right : Expr) (operator : Token) :
    (join left operator right).rename ρ = join (left.rename ρ) (operator.rename ρ) (right.rename ρ) := by
  unfold join
  rw [Token.kind_rename]
  split <;> rfl

theorem renames_assignTo (target value : Expr) (equal : Token) :
    Renames ρ (Expr.rename ρ) (assignTo target equal value)
      (assignTo (target.rename ρ) (equal.rename ρ) (value.rename ρ)) := by
  match target with
  | .variable _ _ | .get _ _ => exact renames_pure rfl
  | .literal _ | .grouping _ | .unary _ _ | .binary _ _ _ | .logical _ _ _ | .assign _ _ _
  | .call _ _ _ | .set _ _ _ | .this _ _ | .super _ _ _ =>
    exact (renames_report equal _).bind fun _ => renames_pure rfl

theorem renames_fresh (hρ : ρ.Counts) : Renames ρ ρ.node fresh fresh := by
  intro s
  show EStateM.Result.ok _ _ = EStateM.Result.ok _ _
  simp only [Reading.rename, hρ s.next]

theorem renames_consumed (t : Token) (e : Expr) :
    Renames ρ (Expr.rename ρ) (primary.consumed t e) (primary.consumed (t.rename ρ) (e.rename ρ)) :=
  (renames_accept _).map fun _ => rfl

variable (hρ : ρ.Counts) {inner : Nat → Rule Expr}
  (h : ∀ rank, Renames ρ (Expr.rename ρ) (inner rank) (inner rank))

include hρ h

theorem renames_primary (rank : Nat) :
    Renames ρ (Expr.rename ρ) (primary (inner rank)) (primary (inner rank)) := by
  refine renames_peek.bind fun t => ?_
  obtain ⟨kind, lexeme, line⟩ := t
  cases kind with
  | number | string => exact renames_consumed _ (.literal _)
  | identifier => exact (renames_fresh hρ).bind fun node => renames_consumed _ (.variable node _)
  | eof => exact renames_fail .expression
  | keyword kw =>
    cases kw with
    | «false» | «true» | nil => exact renames_consumed _ (.literal _)
    | this => exact (renames_fresh hρ).bind fun node => renames_consumed _ (.this node _)
    | super =>
      refine (renames_accept _).bind fun _ => (renames_expect _ _).bind fun _ => ?_
      exact (renames_expect _ _).bind fun method => (renames_fresh hρ).map fun node => rfl
    | _ => exact renames_fail .expression
  | mark m =>
    cases m with
    | leftParen =>
      refine (renames_accept _).bind fun _ => (h rank).bind fun e => ?_
      exact (renames_expect _ _).map fun _ => rfl
    | _ => exact renames_fail .expression

omit hρ in
theorem renames_callArguments (rank n : Nat) (callee : Expr) :
    Renames ρ (Expr.rename ρ) (callArguments (inner rank) n callee)
      (callArguments (inner rank) n (callee.rename ρ)) := by
  refine (renames_items (h rank) _ n).bind fun arguments => (renames_expect _ _).map fun closing => ?_
  rw [Expr.rename, Expr.renameAll_eq]

omit hρ in
theorem renames_suffixes (rank n : Nat) (e : Expr) :
    Renames ρ (Expr.rename ρ) (suffixes (inner rank) n e) (suffixes (inner rank) n (e.rename ρ)) := by
  induction n generalizing e with
  | zero => exact renames_pure rfl
  | succ n ih =>
    refine (renames_accept _).bind fun isCall => renames_ite ?_ ?_
    · exact (renames_callArguments h rank n e).bind fun call => ih call
    · refine (renames_accept _).bind fun isProperty => renames_ite ?_ (renames_pure rfl)
      exact (renames_expect _ _).bind fun name => ih (.get e name)

omit hρ in
theorem renames_chain (operand rank n : Nat) (left : Expr) :
    Renames ρ (Expr.rename ρ) (chain (inner operand) rank n left)
      (chain (inner operand) rank n (left.rename ρ)) := by
  induction n generalizing left with
  | zero => exact renames_pure rfl
  | succ n ih =>
    refine (renames_take? _).bind fun operator => ?_
    cases operator with
    | none => exact renames_pure rfl
    | some operator =>
      refine (h operand).bind fun right => ?_
      rw [← join_rename]
      exact ih _

theorem renames_operation (n rank : Nat) :
    Renames ρ (Expr.rename ρ) (operation inner n rank) (operation inner n rank) := by
  induction rank with
  | zero =>
    refine (renames_take? _).bind fun operator => ?_
    cases operator with
    | none => exact (renames_primary hρ h _).bind fun e => renames_suffixes h _ n e
    | some operator => exact (h 0).map fun _ => rfl
  | succ rank ih => exact ih.bind fun e => renames_chain h rank (rank + 1) n e

omit h in
theorem renames_ranked (n rank : Nat) : Renames ρ (Expr.rename ρ) (ranked n rank) (ranked n rank) := by
  induction n generalizing rank with
  | zero => exact renames_fail .expression
  | succ n ih =>
    unfold ranked
    split
    · exact renames_operation hρ ih n rank
    · refine (renames_operation hρ ih n _).bind fun target => (renames_take? _).bind fun equal => ?_
      cases equal with
      | none => exact renames_pure rfl
      | some equal => exact (ih _).bind fun value => renames_assignTo target value equal

omit h in
theorem renames_expression (n : Nat) : Renames ρ (Expr.rename ρ) (expression n) (expression n) :=
  renames_ranked hρ n assignmentRank

end Expressions

/-! ### Statements -/

theorem desugarFor_rename (initial : Option Stmt) (condition increment : Option Expr) (body : Stmt) :
    (desugarFor initial condition increment body).rename ρ =
      desugarFor (initial.map (Stmt.rename ρ)) (condition.map (Expr.rename ρ))
        (increment.map (Expr.rename ρ)) (body.rename ρ) := by
  unfold desugarFor
  cases initial <;> cases condition <;> cases increment <;> rfl

section Statements

variable (hρ : ρ.Counts)

include hρ

theorem renames_terminated (n : Nat) (missing : Expected) :
    Renames ρ (Expr.rename ρ) (terminated n missing) (terminated n missing) :=
  (renames_expression hρ n).bind fun _ => (renames_expect _ _).map fun _ => rfl

theorem renames_expressionUnless (k : Kind) (n : Nat) :
    Renames ρ (Option.map (Expr.rename ρ)) (expressionUnless k n) (expressionUnless k n) := by
  refine (renames_nextIs k).bind fun isEnd => renames_ite (renames_pure rfl) ?_
  exact (renames_expression hρ n).map fun _ => rfl

theorem renames_superclassReference :
    Renames ρ (Expr.rename ρ) superclassReference superclassReference :=
  (renames_expect _ _).bind fun _ => (renames_fresh hρ).map fun _ => rfl

theorem renames_varDeclaration (p : Parts) :
    Renames ρ (Stmt.rename ρ) (varDeclaration p) (varDeclaration p) := by
  refine (renames_expect _ _).bind fun name => ?_
  refine (renames_behind? _ (renames_expression hρ p.bound)).bind fun initial => ?_
  exact (renames_expect _ _).map fun _ => by cases initial <;> rfl

theorem renames_returnStatement (p : Parts) (keyword : Token) :
    Renames ρ (Stmt.rename ρ) (returnStatement p keyword) (returnStatement p (keyword.rename ρ)) := by
  refine (renames_expressionUnless hρ _ p.bound).bind fun value => ?_
  exact (renames_expect _ _).map fun _ => by cases value <;> rfl

theorem renames_forInitial (p : Parts) :
    Renames ρ (Option.map (Stmt.rename ρ)) (forInitial p) (forInitial p) := by
  refine (renames_accept _).bind fun isEmpty => renames_ite (renames_pure rfl) ?_
  refine (renames_accept _).bind fun isVariable => renames_ite ?_ ?_
  · exact (renames_varDeclaration hρ p).map fun _ => rfl
  · exact (renames_terminated hρ p.bound _).map fun _ => rfl

/-- The parts of a statement are renamed. -/
structure Parts.Renamed (ρ : Renaming) (p : Parts) : Prop where
  statement : Renames ρ (Stmt.rename ρ) p.statement p.statement
  declarations : Renames ρ (List.map (Stmt.rename ρ)) p.declarations p.declarations

variable {p : Parts} (hp : p.Renamed ρ)

include hp

omit hρ in
theorem renames_block : Renames ρ (List.map (Stmt.rename ρ)) (block p) (block p) :=
  hp.declarations.bind fun _ => (renames_expect _ _).map fun _ => rfl

omit hρ in
theorem renames_function (form : FunctionForm) :
    Renames ρ (FunctionDecl.rename ρ) (function p form) (function p form) := by
  refine (renames_expect _ _).bind fun name => (renames_expect _ _).bind fun _ => ?_
  refine (renames_items (renames_expect _ _) _ p.bound).bind fun parameters => ?_
  refine (renames_expect _ _).bind fun _ => (renames_expect _ _).bind fun _ => ?_
  exact (renames_block hp).map fun body => by rw [FunctionDecl.rename, Stmt.renameAll_eq]

omit hρ in
theorem renames_methods (n : Nat) :
    Renames ρ (List.map (FunctionDecl.rename ρ)) (methods p n) (methods p n) := by
  induction n with
  | zero => exact renames_pure rfl
  | succ n ih =>
    refine renames_atBlockEnd.bind fun isEnd => renames_ite (renames_pure rfl) ?_
    exact (renames_function hp .method).bind fun first => ih.map fun _ => rfl

theorem renames_classDeclaration :
    Renames ρ (Stmt.rename ρ) (classDeclaration p) (classDeclaration p) := by
  refine (renames_expect _ _).bind fun name => ?_
  refine (renames_behind? _ (renames_superclassReference hρ)).bind fun superclass => ?_
  refine (renames_expect _ _).bind fun _ => (renames_methods hp p.bound).bind fun declared => ?_
  refine (renames_expect _ _).map fun _ => ?_
  cases superclass <;> simp only [Stmt.rename, Stmt.renameMethods_eq, Option.map]

theorem renames_forStatement : Renames ρ (Stmt.rename ρ) (forStatement p) (forStatement p) := by
  refine (renames_expect _ _).bind fun _ => (renames_forInitial hρ p).bind fun initial => ?_
  refine (renames_expressionUnless hρ _ p.bound).bind fun condition => ?_
  refine (renames_expect _ _).bind fun _ => ?_
  refine (renames_expressionUnless hρ _ p.bound).bind fun increment => ?_
  exact (renames_expect _ _).bind fun _ => hp.statement.map fun body => desugarFor_rename ..

theorem renames_ifStatement : Renames ρ (Stmt.rename ρ) (ifStatement p) (ifStatement p) := by
  refine (renames_expect _ _).bind fun _ => (renames_expression hρ p.bound).bind fun condition => ?_
  refine (renames_expect _ _).bind fun _ => hp.statement.bind fun consequent => ?_
  exact (renames_behind? _ hp.statement).map fun alternative => by cases alternative <;> rfl

theorem renames_whileStatement : Renames ρ (Stmt.rename ρ) (whileStatement p) (whileStatement p) := by
  refine (renames_expect _ _).bind fun _ => (renames_expression hρ p.bound).bind fun condition => ?_
  exact (renames_expect _ _).bind fun _ => hp.statement.map fun _ => rfl

theorem renames_statementOf : Renames ρ (Stmt.rename ρ) (statementOf p) (statementOf p) := by
  refine renames_peek.bind fun t => ?_
  refine (renames_accept _).bind fun _ => renames_ite (renames_forStatement hρ hp) ?_
  refine (renames_accept _).bind fun _ => renames_ite (renames_ifStatement hρ hp) ?_
  refine (renames_accept _).bind fun _ => renames_ite ((renames_terminated hρ _ _).map fun _ => rfl) ?_
  refine (renames_accept _).bind fun _ => renames_ite (renames_returnStatement hρ p t) ?_
  refine (renames_accept _).bind fun _ => renames_ite (renames_whileStatement hρ hp) ?_
  refine (renames_accept _).bind fun _ => renames_ite ?_ ((renames_terminated hρ _ _).map fun _ => rfl)
  exact (renames_block hp).map fun body => by rw [Stmt.rename, Stmt.renameAll_eq]

theorem renames_declarationOf : Renames ρ (Stmt.rename ρ) (declarationOf p) (declarationOf p) := by
  refine (renames_accept _).bind fun _ => renames_ite (renames_classDeclaration hρ hp) ?_
  refine (renames_accept _).bind fun _ => renames_ite ?_ ?_
  · exact (renames_function hp .function).map fun _ => rfl
  · exact (renames_accept _).bind fun _ =>
      renames_ite (renames_varDeclaration hρ p) (renames_statementOf hρ hp)

omit hρ hp in
theorem resync_rename (u : List Token) :
    resync (u.map (Token.rename ρ)) = (resync u).map (Token.rename ρ) := by
  have hresume (previous : Token) (u : List Token) :
      resume (previous.rename ρ) (u.map (Token.rename ρ)) =
        (resume previous u).map (Token.rename ρ) := by
    induction u generalizing previous with
    | nil => rfl
    | cons t u ih =>
      rw [List.map_cons, resume, resume, Token.kind_rename, Token.kind_rename]
      split
      · rfl
      · exact ih t
  cases u with
  | nil => rfl
  | cons t u => exact hresume t u

theorem declaration_rename (s : Reading) : declaration p (s.rename ρ) =
    ((declaration p s).1.map (Stmt.rename ρ), (declaration p s).2.rename ρ) := by
  unfold declaration
  rw [renames_declarationOf hρ hp s]
  cases declarationOf p s with
  | ok stmt s' => rfl
  | error e s' => simp only [Reading.rename, resync_rename, List.map_cons, Option.map_none]

omit hp in
theorem parts_renamed (n : Nat) : Parts.Renamed ρ ⟨n, statement n, declarations n⟩ := by
  induction n with
  | zero => exact ⟨renames_fail .expression, renames_pure rfl⟩
  | succ n ih =>
    refine ⟨renames_statementOf hρ ih, ?_⟩
    refine renames_atBlockEnd.bind fun isEnd => renames_ite (renames_pure rfl) ?_
    have hfirst : Renames ρ (Option.map (Stmt.rename ρ))
        (modifyGet (declaration ⟨n, statement n, declarations n⟩))
        (modifyGet (declaration ⟨n, statement n, declarations n⟩)) := by
      intro s
      show EStateM.Result.ok (declaration _ _).1 (declaration _ _).2 = _
      rw [declaration_rename hρ ih s]
      rfl
    refine hfirst.bind fun first => ih.declarations.map fun others => ?_
    cases first <;> rfl

omit hp in
theorem program_rename (n : Nat) (s : Reading) : program n (s.rename ρ) =
    ((program n s).1.map (Stmt.rename ρ), (program n s).2.rename ρ) := by
  induction n generalizing s with
  | zero => rfl
  | succ n ih =>
    have hempty : (s.rename ρ).rest.isEmpty = s.rest.isEmpty := List.isEmpty_map
    rw [program, program, hempty]
    split
    · rfl
    · simp only [declaration_rename hρ (parts_renamed hρ n), ih, List.map_append]
      cases (declaration ⟨n, statement n, declarations n⟩ s).1 <;> rfl

end Statements

end Rule

/-- From tokens on other lines and with identities counted from elsewhere on, the same is read but for
these. -/
theorem parseTokens_rename {ρ : Renaming} (hρ : ρ.Counts) {tokens : List Token}
    (hfinish : ∃ t ∈ tokens, t.kind = .eof) (next : NodeId) :
    parseTokens (tokens.map (Token.rename ρ)) (ρ.node next) =
      ⟨(parseTokens tokens next).statements.map (Stmt.rename ρ),
        (parseTokens tokens next).errors.map (SyntaxError.rename ρ),
        ρ.node (parseTokens tokens next).next⟩ := by
  have hbefore : beforeFinish (tokens.map (Token.rename ρ)) =
      (beforeFinish tokens).map (Token.rename ρ) := List.takeWhile_map ..
  have hlast : finishOf (tokens.map (Token.rename ρ)) = (finishOf tokens).rename ρ := by
    have hsome : (tokens.find? (·.kind = .eof)).isSome := by simpa using hfinish
    obtain ⟨t, ht⟩ := Option.isSome_iff_exists.1 hsome
    have hmap : (tokens.map (Token.rename ρ)).find? (·.kind = .eof) = some (t.rename ρ) := by
      rw [List.find?_map]
      exact congrArg (Option.map (Token.rename ρ)) ht
    unfold finishOf
    rw [hmap, ht]
  have hprogram := Rule.program_rename hρ (beforeFinish tokens).length
    ⟨beforeFinish tokens, finishOf tokens, next, []⟩
  simp only [Reading.rename, List.map_nil] at hprogram
  simp only [parseTokens, hbefore, hlast, List.length_map, hprogram, List.map_reverse]

end Treewalk
