import Treewalk.Proofs.Renaming.Resolving
import Treewalk.Proofs.Resolution.Table
import Treewalk.Session
/-!
# Balance

Resolving leaves the scopes and contexts of a walk in balance, whatever is resolved and in whatever
state. Behind an expression they are as they were. Behind a statement the contexts are, and of the
scopes only the innermost may have changed: it has lost no name, and what it has gained is defined
(`Resolver.Balanced`). What has been found before stays in front of what is found now.

Between the statements of a program no scope is open and both contexts are none, as in the beginning.
So a program may be resolved in parts (`Session.resolve_balanced`).
-/

namespace Treewalk
namespace Resolver

variable {r r' : Resolver}

/-- What a statement may have changed of a walk. -/
structure Balanced (r r' : Resolver) : Prop extends Onward r r' where
  height : r'.scopes.length = r.scopes.length
  outer : r'.scopes.tail = r.scopes.tail
  /-- The innermost scope has lost no name. -/
  kept : ∀ x, (r.innermost? x).isSome → (r'.innermost? x).isSome
  /-- A name that it has gained is defined. -/
  gained : ∀ x isDefined, r.innermost? x = none → r'.innermost? x = some isDefined →
    isDefined = true
  /-- What was defined still is. -/
  defined : ∀ x, r.innermost? x = some true → r'.innermost? x = some true
  inFunction : r'.inFunction = r.inFunction
  inClass : r'.inClass = r.inClass

/-- Each name of the innermost scope is as it was or has become defined. -/
theorem Gains.innermost? (h : Gains r r') (x : String) :
    r'.innermost? x = r.innermost? x ∨ r'.innermost? x = some true := by
  have scopes := h.scopes
  unfold Resolver.innermost?
  cases hr : r.scopes with
  | nil =>
    rw [hr] at scopes
    have hr' : r'.scopes = [] := scopes
    exact .inl (by rw [hr'])
  | cons b outer =>
    rw [hr] at scopes
    obtain ⟨b', hr', hb⟩ := scopes
    rw [hr']
    exact hb x

theorem Gains.balanced (h : Gains r r') : Balanced r r' where
  toOnward := h.toOnward
  height := h.length_eq
  outer := h.scopes.tail_eq
  kept x hx := by
    rcases h.innermost? x with he | he <;> rw [he]
    · exact hx
    · rfl
  gained x isDefined hx hx' := by
    rcases h.innermost? x with he | he <;> rw [he] at hx'
    · rw [hx] at hx'; cases hx'
    · exact (Option.some.inj hx').symm
  defined x hx := by
    rcases h.innermost? x with he | he
    · exact he.trans hx
    · exact he
  inFunction := h.inFunction
  inClass := h.inClass

end Resolver

theorem resolve_append (p q : List Stmt) :
    resolve (p ++ q) = ⟨(resolve p).references ++ (resolve q).references,
      (resolve p).errors ++ (resolve q).errors⟩ := by
  have same : Stmt.rename .same = id := funext Stmt.rename_same
  have references : Reference.rename .same = id := rfl
  have errors : StaticError.rename .same = id := rfl
  have renamed := resolve_append_rename .same p q
  rwa [same, references, errors, List.map_id, List.map_id, List.map_id] at renamed

namespace Session

/-- Resolves parts of a program one after another, each from the outermost level on, and puts together
what is found. -/
def resolveInTurn (s : Session) : List (List Stmt) → Resolution × Session
  | [] => (⟨[], []⟩, s)
  | p :: rest =>
    let (found, s) := s.resolve p
    let (others, s) := resolveInTurn s rest
    (⟨found.references ++ others.references, found.errors ++ others.errors⟩, s)

theorem resolve_flatten (parts : List (List Stmt)) (s : Session) :
    s.resolve parts.flatten = s.resolveInTurn parts := by
  induction parts generalizing s with
  | nil => rfl
  | cons p rest ih =>
    rw [resolveInTurn]
    dsimp only
    rw [← ih, List.flatten_cons]
    unfold resolve
    dsimp only
    rw [resolve_append, Distances.record_append]

/-- Resolving is balanced. In every state of the walk, a statement leaves as many scopes as there were
and changes the innermost one only, where names are gained, as defined ones, and none is lost; an
expression leaves the scopes as they were. Both leave the contexts as they were and find more without
changing what was found. So of a program in parts the same is found and recorded as of the parts one
after another. -/
theorem resolve_balanced :
    (∀ (st : Stmt) (r : Resolver), r.Balanced (Resolver.stmt st r)) ∧
    (∀ (e : Expr) (r : Resolver), r.Notes (Resolver.expr e r)) ∧
    ∀ (s : Session) (parts : List (List Stmt)),
      s.resolve parts.flatten = s.resolveInTurn parts :=
  ⟨fun st r => (Resolver.stmt_gains st r).balanced, Resolver.expr_notes,
    fun s parts => resolve_flatten parts s⟩

end Session
end Treewalk
