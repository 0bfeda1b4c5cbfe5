import Mathlib
import Treewalk.Proofs.Token.Munch
import Treewalk.Proofs.Tree.Grammar
import Treewalk.Tree.Prefix
/-!
# Nested lists and their texts

A tree in prefix form is a nested list of atoms. Its text determines it, if no atom in it is empty or has a
blank or a parenthesis (`Nested.text_injective`).
-/

namespace Treewalk

inductive Nested where
  | atom (s : String)
  | list (items : List Nested)

namespace Nested

/-! ### Texts -/

mutual

def chars : Nested → List Char
  | .atom s => s.toList
  | .list [] => ['(', ')']
  | .list (first :: rest) => '(' :: first.chars ++ behind rest ++ [')']

/-- The items of a list, each behind a blank. -/
def behind : List Nested → List Char
  | [] => []
  | x :: rest => ' ' :: x.chars ++ behind rest

end

def text (x : Nested) : String :=
  String.ofList x.chars

/-- A blank or a parenthesis. -/
def isDelimiter (c : Char) : Bool :=
  c = ' ' || c = '(' || c = ')'

/-- Characters that are read back as one atom. -/
def Solid (cs : List Char) : Prop :=
  cs ≠ [] ∧ ∀ c ∈ cs, isDelimiter c = false

instance (cs : List Char) : Decidable (Solid cs) :=
  decidable_of_iff (cs ≠ [] ∧ cs.all (!isDelimiter ·) = true) (by simp [Solid])

mutual

/-- All atoms are solid. -/
def Proper : Nested → Prop
  | .atom s => Solid s.toList
  | .list items => AllProper items

def AllProper : List Nested → Prop
  | [] => True
  | x :: rest => x.Proper ∧ AllProper rest

end

theorem Proper.atom {s : String} (h : Solid s.toList) : (Nested.atom s).Proper := by
  rw [Proper]
  exact h

theorem Proper.list {items : List Nested} (h : AllProper items) : (Nested.list items).Proper := by
  rw [Proper]
  exact h

theorem AllProper.nil : AllProper [] := by
  rw [AllProper]
  trivial

theorem AllProper.cons {x : Nested} {rest : List Nested} (h : x.Proper) (hs : AllProper rest) :
    AllProper (x :: rest) := by
  rw [AllProper]
  exact ⟨h, hs⟩

theorem allProper_iff (xs : List Nested) : AllProper xs ↔ ∀ x ∈ xs, x.Proper := by
  induction xs with
  | nil => simp [AllProper]
  | cons x rest ih => simp [AllProper, ih]

/-- What may stand behind a nested list: nothing, or a delimiter first. -/
def Delimited (r : List Char) : Prop :=
  ∀ c ∈ r.head?, isDelimiter c = true

/-! ### Reading back -/

/-- An atom is what is in front of the next delimiter. -/
theorem Solid.append_inj {cs cs' r r' : List Char} (h : Solid cs) (h' : Solid cs')
    (hr : Delimited r) (hr' : Delimited r') (heq : cs ++ r = cs' ++ r') : cs = cs' ∧ r = r' := by
  have hrun {cs r : List Char} (h : Solid cs) (hr : Delimited r) :
      (cs ++ r).takeWhile (!isDelimiter ·) = cs :=
    takeWhile_run (fun c hc => by rw [h.2 c hc]; rfl) fun c hc => by rw [hr c hc]; rfl
  obtain rfl : cs = cs' := by rw [← hrun h hr, heq, hrun h' hr']
  exact ⟨rfl, List.append_cancel_left heq⟩

theorem delimited_behind (xs : List Nested) (r : List Char) :
    Delimited (behind xs ++ ')' :: r) := by
  cases xs with
  | nil =>
    rintro _ ⟨⟩
    rfl
  | cons x rest =>
    rintro _ ⟨⟩
    rfl

/-- A list begins as no atom does. -/
theorem Solid.ne_list {cs : List Char} (h : Solid cs) (items : List Nested) (r r' : List Char) :
    cs ++ r ≠ (list items).chars ++ r' := by
  intro heq
  obtain ⟨c, v, rfl⟩ := List.exists_cons_of_ne_nil h.1
  have hparen : c = '(' := by cases items <;> exact (List.cons.inj heq).1
  have hc := h.2 c List.mem_cons_self
  rw [hparen] at hc
  cases hc

/-- Nothing begins as the end of a list. -/
theorem Proper.ne_closing {x : Nested} (h : x.Proper) (r r' : List Char) :
    x.chars ++ r ≠ ')' :: r' := by
  intro heq
  match x with
  | .atom s =>
    simp only [Proper] at h
    rw [chars] at heq
    obtain ⟨c, v, hs⟩ := List.exists_cons_of_ne_nil h.1
    have hc := h.2 c (hs ▸ List.mem_cons_self)
    rw [hs] at heq
    rw [(List.cons.inj heq).1] at hc
    cases hc
  | .list [] => simp [chars] at heq
  | .list (_ :: _) => simp [chars] at heq

mutual

/-- What is in front of a delimiter, or of nothing, is the text of one nested list only. -/
theorem chars_append_inj : (x y : Nested) → {r r' : List Char} → x.Proper → y.Proper →
    Delimited r → Delimited r' → x.chars ++ r = y.chars ++ r' → x = y ∧ r = r'
  | .atom s, .atom s', _, _, hx, hy, hr, hr', heq => by
    simp only [Proper, chars] at hx hy heq
    obtain ⟨hs, rfl⟩ := hx.append_inj hy hr hr' heq
    rw [String.toList_inj.1 hs]
    exact ⟨rfl, rfl⟩
  | .atom s, .list items, _, _, hx, _, _, _, heq => by
    simp only [Proper, chars] at hx heq
    exact (hx.ne_list items _ _ heq).elim
  | .list items, .atom s, _, _, _, hy, _, _, heq => by
    simp only [Proper, chars] at hy heq
    exact (hy.ne_list items _ _ heq.symm).elim
  | .list [], .list [], _, _, _, _, _, _, heq => ⟨rfl, by simpa [chars] using heq⟩
  | .list [], .list (y :: ys), _, _, _, hy, _, _, heq => by
    simp only [Proper, AllProper] at hy
    simp only [chars, List.cons_append, List.append_assoc, List.cons.injEq, true_and] at heq
    exact (hy.1.ne_closing _ _ heq.symm).elim
  | .list (x :: xs), .list [], _, _, hx, _, _, _, heq => by
    simp only [Proper, AllProper] at hx
    simp only [chars, List.cons_append, List.append_assoc, List.cons.injEq, true_and] at heq
    exact (hx.1.ne_closing _ _ heq).elim
  | .list (x :: xs), .list (y :: ys), r, r', hx, hy, _, _, heq => by
    simp only [Proper, AllProper] at hx hy
    simp only [chars, List.cons_append, List.append_assoc, List.cons.injEq, true_and] at heq
    obtain ⟨rfl, hrest⟩ := chars_append_inj x y hx.1 hy.1 (delimited_behind _ _)
      (delimited_behind _ _) heq
    obtain ⟨rfl, rfl⟩ := behind_append_inj xs ys hx.2 hy.2 hrest
    exact ⟨rfl, rfl⟩

theorem behind_append_inj : (xs ys : List Nested) → {r r' : List Char} → AllProper xs →
    AllProper ys → behind xs ++ ')' :: r = behind ys ++ ')' :: r' → xs = ys ∧ r = r'
  | [], [], _, _, _, _, heq => ⟨rfl, by simpa [behind] using heq⟩
  | [], y :: ys, _, _, _, _, heq => by simp [behind] at heq
  | x :: xs, [], _, _, _, _, heq => by simp [behind] at heq
  | x :: xs, y :: ys, r, r', hx, hy, heq => by
    simp only [AllProper] at hx hy
    simp only [behind, List.cons_append, List.append_assoc, List.cons.injEq, true_and] at heq
    obtain ⟨rfl, hrest⟩ := chars_append_inj x y hx.1 hy.1 (delimited_behind _ _)
      (delimited_behind _ _) heq
    obtain ⟨rfl, rfl⟩ := behind_append_inj xs ys hx.2 hy.2 hrest
    exact ⟨rfl, rfl⟩

end

/-- The text determines the list. -/
theorem text_injective {x y : Nested} (hx : x.Proper) (hy : y.Proper) (h : x.text = y.text) :
    x = y := by
  have hnil : Delimited [] := fun c hc => absurd hc (Option.not_mem_none c)
  have heq := congrArg (· ++ []) (String.ofList_injective h)
  exact (chars_append_inj x y hx hy hnil hnil heq).1

theorem map_text_injective {xs ys : List Nested} (hx : AllProper xs) (hy : AllProper ys)
    (h : xs.map text = ys.map text) : xs = ys := by
  induction xs generalizing ys with
  | nil => exact (List.map_eq_nil_iff.1 h.symm).symm
  | cons x rest ih =>
    obtain ⟨y, others, rfl, htext, hothers⟩ := List.map_eq_cons_iff.1 h.symm
    simp only [AllProper] at hx hy
    rw [text_injective hx.1 hy.1 htext.symm, ih hx.2 hy.2 hothers.symm]

/-! ### Layout -/

theorem toList_spaced (xs : List Nested) : (spaced (xs.map text)).toList = behind xs := by
  induction xs with
  | nil => rfl
  | cons x rest ih =>
    simp only [spaced, List.map_cons, String.join_cons, String.toList_append, behind, text,
      String.toList_ofList] at ih ⊢
    rw [ih]
    rfl

@[simp] theorem text_atom (s : String) : (atom s).text = s := by
  rw [text, chars, String.ofList_toList]

@[simp] theorem text_list (head : String) (xs : List Nested) :
    (list (.atom head :: xs)).text = listed head (xs.map text) := by
  refine String.toList_inj.1 ?_
  simp only [text, listed, String.toList_ofList, String.toList_append, toList_spaced, chars]
  rfl

theorem intercalate_names (s : String) (names : List String) :
    [' '].intercalate ((s :: names).map String.toList) = s.toList ++ behind (names.map atom) := by
  induction names generalizing s with
  | nil => simp [behind]
  | cons name rest ih =>
    rw [List.map_cons, List.map_cons, List.intercalate_cons_cons, ← List.map_cons, ih name]
    simp [behind, chars]

/-- A list of atoms only. -/
@[simp] theorem text_names (names : List String) :
    (list (names.map atom)).text = "(" ++ " ".intercalate names ++ ")" := by
  refine String.toList_inj.1 ?_
  rw [text, String.toList_ofList, String.toList_append, String.toList_append,
    String.toList_intercalate]
  cases names with
  | nil => simp [chars]
  | cons s rest =>
    show '(' :: s.toList ++ behind (rest.map atom) ++ [')'] = ['('] ++ [' '].intercalate _ ++ [')']
    rw [intercalate_names]
    simp

end Nested

end Treewalk
