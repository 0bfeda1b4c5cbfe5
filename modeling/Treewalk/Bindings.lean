/-!
# Bindings

Names with what they are bound to. A name is bound at most once; binding it again replaces what it
was bound to.
-/

namespace Treewalk

abbrev Bindings (α : Type) := List (String × α)

namespace Bindings

variable {α : Type}

def get? : Bindings α → String → Option α
  | [], _ => none
  | (y, a) :: rest, x => if y = x then some a else get? rest x

def set : Bindings α → String → α → Bindings α
  | [], x, v => [(x, v)]
  | (y, a) :: rest, x, v => if y = x then (y, v) :: rest else (y, a) :: set rest x v

def contains (b : Bindings α) (x : String) : Bool :=
  (b.get? x).isSome

theorem get?_set (b : Bindings α) (x y : String) (v : α) :
    (b.set x v).get? y = if x = y then some v else b.get? y := by
  induction b with
  | nil => simp [set, get?]
  | cons e rest ih =>
    obtain ⟨z, a⟩ := e
    by_cases h : z = x
    · subst h; simp only [set, get?, if_true]; split <;> rfl
    · simp only [set, get?, h, if_false, ih]
      by_cases hy : z = y
      · subst hy; simp [Ne.symm h]
      · simp [hy]

/-- Of what is bound under one name after another, the last counts. -/
theorem get?_foldl_set {β : Type} (key : β → String) (value : β → α) (l : List β) (b : Bindings α)
    (x : String) :
    (l.foldl (fun b e => b.set (key e) (value e)) b).get? x =
      ((l.reverse.find? (key · = x)).map value).or (b.get? x) := by
  induction l generalizing b with
  | nil => rfl
  | cons e rest ih =>
    rw [List.foldl_cons, ih, get?_set, List.reverse_cons, List.find?_append]
    cases rest.reverse.find? (key · = x) with
    | some _ => rfl
    | none => by_cases hx : key e = x <;> simp [hx]

end Bindings

end Treewalk
