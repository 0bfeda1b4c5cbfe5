import Mathlib
import Treewalk.Evaluation
/-!
# Parameters

What the parameters of a call are bound to. There are as many arguments as parameters, so each name
of a parameter is bound (`isSome_parameterBindings`), and to the argument at its place if the names
are different (`parameterBindings_iff`).
-/

namespace Treewalk
namespace Eval

variable {parameters : List Token} {arguments : List Value} {x : String} {v : Value}

/-- Of parameters of one name the last counts. -/
theorem get?_parameterBindings (parameters : List Token) (arguments : List Value) (x : String) :
    (parameterBindings parameters arguments).get? x =
      ((parameters.zip arguments).reverse.find? (·.1.lexeme = x)).map (·.2) :=
  (Bindings.get?_foldl_set (fun pv : Token × Value => pv.1.lexeme) (·.2)
    (parameters.zip arguments) [] x).trans (Option.or_none ..)

theorem mem_of_parameterBindings (h : (parameterBindings parameters arguments).get? x = some v) :
    v ∈ arguments := by
  rw [get?_parameterBindings] at h
  obtain ⟨⟨p, v⟩, hfind, rfl⟩ := Option.map_eq_some_iff.1 h
  have hmem : (p, v) ∈ parameters.zip arguments :=
    List.mem_reverse.1 (List.mem_of_find?_eq_some hfind)
  exact (List.of_mem_zip hmem).2

/-- The names that are bound are those of the parameters. -/
theorem isSome_parameterBindings (hl : parameters.length = arguments.length) (x : String) :
    ((parameterBindings parameters arguments).get? x).isSome ↔
      x ∈ parameters.map (·.lexeme) := by
  have hfst : (parameters.zip arguments).map (·.1) = parameters :=
    List.map_fst_zip (Nat.le_of_eq hl)
  conv_rhs => rw [← hfst, List.map_map]
  rw [get?_parameterBindings]
  simp

/-- Parameters of different names are bound to the arguments at their places. -/
theorem get?_parameter {i : Nat} {p : Token} (hn : (parameters.map (·.lexeme)).Nodup)
    (hl : parameters.length = arguments.length) (hp : parameters[i]? = some p) :
    (parameterBindings parameters arguments).get? p.lexeme = arguments[i]? := by
  obtain ⟨v, hv⟩ : ∃ v, arguments[i]? = some v :=
    ⟨_, List.getElem?_eq_getElem (hl ▸ (List.getElem?_eq_some_iff.1 hp).1)⟩
  have hmem : (p, v) ∈ parameters.zip arguments :=
    List.mem_iff_getElem?.2 ⟨i, List.getElem?_zip_eq_some.2 ⟨hp, hv⟩⟩
  have hnodup : ((parameters.zip arguments).map (·.1.lexeme)).Nodup := by
    have hfst := List.map_fst_zip (Nat.le_of_eq hl)
    rw [← hfst, List.map_map] at hn
    exact hn
  rw [get?_parameterBindings, hv]
  cases hfind : (parameters.zip arguments).reverse.find? (·.1.lexeme = p.lexeme) with
  | none => simpa using List.find?_eq_none.1 hfind _ (List.mem_reverse.2 hmem)
  | some pv =>
    have hname : pv.1.lexeme = p.lexeme := by simpa using List.find?_some hfind
    have hpv := List.mem_reverse.1 (List.mem_of_find?_eq_some hfind)
    rw [List.inj_on_of_nodup_map hnodup hpv hmem hname]
    rfl

/-- If the names are different, each is bound to its own argument, and no others are bound. -/
theorem parameterBindings_iff (hn : (parameters.map (·.lexeme)).Nodup)
    (hl : parameters.length = arguments.length) :
    (parameterBindings parameters arguments).get? x = some v ↔
      ∃ (i : Nat) (p : Token), parameters[i]? = some p ∧ p.lexeme = x ∧ arguments[i]? = some v := by
  constructor
  · intro hx
    have hmem := (isSome_parameterBindings hl x).1 (by rw [hx]; rfl)
    obtain ⟨p, hp, rfl⟩ := List.mem_map.1 hmem
    obtain ⟨i, hi⟩ := List.mem_iff_getElem?.1 hp
    exact ⟨i, p, hi, rfl, (get?_parameter hn hl hi).symm.trans hx⟩
  · rintro ⟨i, p, hp, rfl, hv⟩
    exact (get?_parameter hn hl hp).trans hv

end Eval
end Treewalk
