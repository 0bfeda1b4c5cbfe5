import Mathlib
import Treewalk.Decimal.Shortest
/-!
# Which value a decimal rounds to

The reals that round to a binary64 value form an interval around it (`Binary.Rounds`), which is what
`Binary.readsBack` computes. The intervals of different values have no real in common
(`Binary.Canonical.eq_of_rounds`), and the shortest digits of a value are in its own
(`Binary.rounds_shortest`).
-/

namespace Treewalk.Decimal

def Digits.value (d : Digits) : ℚ := d.digits * 10 ^ d.exponent

/-! ### Exact arithmetic -/

theorem zpow_mul_pow_toNat {b : ℚ} (hb : b ≠ 0) (i : ℤ) : b ^ i * b ^ (-i).toNat = b ^ i.toNat := by
  rw [← zpow_natCast, ← zpow_natCast, ← zpow_add₀ hb]
  congr 1
  omega

/-- Powers with a sign are compared without one. -/
theorem compareScaled_eq (a : Nat) (i : Int) (n : Nat) (j : Int) :
    compareScaled a i n j = cmp ((a : ℚ) * 10 ^ i) (n * 2 ^ j) := by
  have hscale : (0 : ℚ) < 2 ^ (-j).toNat * 10 ^ (-i).toNat := by positivity
  have hleft : (a : ℚ) * 10 ^ i * (2 ^ (-j).toNat * 10 ^ (-i).toNat) =
      ((a * Nat.pow 10 i.toNat * Nat.pow 2 (-j).toNat : ℕ) : ℚ) := by
    have h := zpow_mul_pow_toNat (b := 10) (by norm_num) i
    rw [Nat.pow_eq, Nat.pow_eq]
    push_cast
    rw [← h]
    ring
  have hright : (n : ℚ) * 2 ^ j * (2 ^ (-j).toNat * 10 ^ (-i).toNat) =
      ((n * Nat.pow 2 j.toNat * Nat.pow 10 (-i).toNat : ℕ) : ℚ) := by
    have h := zpow_mul_pow_toNat (b := 2) (by norm_num) j
    rw [Nat.pow_eq, Nat.pow_eq]
    push_cast
    rw [← h]
    ring
  rw [← cmp_mul_pos_right hscale, hleft, hright, Nat.strictMono_cast.cmp_map_eq, compareScaled,
    cmp_eq_compare]

namespace Binary

def value (x : Binary) : ℚ := x.m * 2 ^ x.q

/-- The real halfway to the value below, in quarters of the gap to the value above. -/
def lowQuarters (x : Binary) : Nat :=
  if x.narrowBelow then 4 * x.m - 1 else 4 * x.m - 2

def low (x : Binary) : ℚ := x.lowQuarters * 2 ^ (x.q - 2)

/-- The real halfway to the value above. -/
def high (x : Binary) : ℚ := (4 * x.m + 2 : ℕ) * 2 ^ (x.q - 2)

/-- The value is the one that `r` rounds to, which at both ends is the case if it is even. -/
structure Rounds (x : Binary) (r : ℚ) : Prop where
  low_le : x.low ≤ r
  le_high : r ≤ x.high
  even : r = x.low ∨ r = x.high → x.m % 2 = 0

theorem readsBack_iff (x : Binary) (d : Digits) : x.readsBack d = true ↔ x.Rounds d.value := by
  have hlow : compareScaled d.digits d.exponent x.lowQuarters (x.q - 2) = cmp d.value x.low :=
    compareScaled_eq _ _ _ _
  have hhigh : compareScaled d.digits d.exponent (4 * x.m + 2) (x.q - 2) = cmp d.value x.high :=
    compareScaled_eq _ _ _ _
  unfold lowQuarters at hlow
  unfold readsBack
  simp only [hlow, hhigh, Bool.and_eq_true, Bool.or_eq_true, decide_eq_true_eq, cmp_eq_gt_iff,
    cmp_eq_eq_iff, cmp_eq_lt_iff]
  constructor
  · rintro ⟨hlow | ⟨heven, hlow⟩, hhigh | ⟨heven', hhigh⟩⟩
    · exact ⟨hlow.le, hhigh.le, fun h => (h.elim hlow.ne' hhigh.ne).elim⟩
    · exact ⟨hlow.le, hhigh.le, fun _ => heven'⟩
    · exact ⟨hlow.ge, hhigh.le, fun _ => heven⟩
    · exact ⟨hlow.ge, hhigh.le, fun _ => heven⟩
  · rintro ⟨hlow, hhigh, heven⟩
    refine ⟨?_, ?_⟩
    · rcases hlow.lt_or_eq with hlt | heq
      · exact .inl hlt
      · exact .inr ⟨heven (.inl heq.symm), heq.symm⟩
    · rcases hhigh.lt_or_eq with hlt | heq
      · exact .inl hlt
      · exact .inr ⟨heven (.inr heq), heq⟩

/-! ### Different values -/

/-- The value is one of binary64, in its only form. -/
structure Canonical (x : Binary) : Prop where
  m_lt : x.m < 2 ^ 53
  q_ge : -1074 ≤ x.q
  normal : x.q = -1074 ∨ 2 ^ 52 ≤ x.m
  narrow : x.narrowBelow = true ↔ x.m = 2 ^ 52 ∧ x.q ≠ -1074

variable {x y : Binary} {r : ℚ}

theorem Canonical.le_lowQuarters (hy : y.Canonical) (hq : y.q ≠ -1074) :
    2 ^ 54 - 1 ≤ y.lowQuarters := by
  have hm : 2 ^ 52 ≤ y.m := hy.normal.resolve_left hq
  unfold lowQuarters
  by_cases hnarrow : y.narrowBelow = true
  · rw [if_pos hnarrow]
    omega
  · have hne : y.m ≠ 2 ^ 52 := fun h => hnarrow (hy.narrow.2 ⟨h, hq⟩)
    rw [if_neg hnarrow]
    omega

/-- The interval of a greater value is above, and if the two have an end in common then one of them is
open there. -/
theorem Canonical.high_le_low (hx : x.Canonical) (hy : y.Canonical)
    (h : x.q < y.q ∨ x.q = y.q ∧ x.m < y.m) :
    x.high ≤ y.low ∧ (x.high = y.low → x.m % 2 = 1 ∨ y.m % 2 = 1) := by
  obtain ⟨k, hlow, hle, hodd⟩ : ∃ k : ℕ, y.low = (k : ℚ) * 2 ^ (x.q - 2) ∧ 4 * x.m + 2 ≤ k ∧
      (4 * x.m + 2 = k → x.m % 2 = 1 ∨ y.m % 2 = 1) := by
    rcases h with hq | ⟨hq, hm⟩
    · refine ⟨y.lowQuarters * 2 ^ (y.q - x.q).toNat, ?_, ?_, ?_⟩
      · have hpow : (2 : ℚ) ^ (y.q - 2) = 2 ^ (y.q - x.q).toNat * 2 ^ (x.q - 2) := by
          rw [← zpow_natCast, ← zpow_add₀ (by norm_num)]
          congr 1
          omega
        rw [low, hpow]
        push_cast
        ring
      all_goals
        have hquarters := hy.le_lowQuarters (by have := hx.q_ge; omega)
        have htwo : 2 ^ 1 ≤ 2 ^ (y.q - x.q).toNat :=
          Nat.pow_le_pow_right (by norm_num) (by omega)
        have hprod := Nat.mul_le_mul hquarters htwo
        have hm := hx.m_lt
        omega
    · refine ⟨y.lowQuarters, by rw [low, hq], ?_, ?_⟩
      all_goals
        unfold lowQuarters
        split <;> omega
  have hpos : (0 : ℚ) < 2 ^ (x.q - 2) := by positivity
  rw [hlow, high]
  refine ⟨?_, fun heq => hodd ?_⟩
  · exact mul_le_mul_of_nonneg_right (by exact_mod_cast hle) hpos.le
  · exact_mod_cast mul_right_cancel₀ hpos.ne' heq

/-- No real rounds to two values. -/
theorem Canonical.eq_of_rounds (hx : x.Canonical) (hy : y.Canonical) (hxr : x.Rounds r)
    (hyr : y.Rounds r) : x = y := by
  have apart {x y : Binary} (hx : x.Canonical) (hy : y.Canonical) (hxr : x.Rounds r)
      (hyr : y.Rounds r) (h : x.q < y.q ∨ x.q = y.q ∧ x.m < y.m) : False := by
    obtain ⟨hle, hodd⟩ := hx.high_le_low hy h
    have hhigh : r = x.high := le_antisymm hxr.le_high (hle.trans hyr.low_le)
    have hlow : r = y.low := le_antisymm (hxr.le_high.trans hle) hyr.low_le
    have hevenx := hxr.even (.inr hhigh)
    have heveny := hyr.even (.inl hlow)
    rcases hodd (hhigh.symm.trans hlow) with hodd | hodd <;> omega
  have hq : x.q = y.q := by
    rcases lt_trichotomy x.q y.q with h | h | h
    · exact (apart hx hy hxr hyr (.inl h)).elim
    · exact h
    · exact (apart hy hx hyr hxr (.inl h)).elim
  have hm : x.m = y.m := by
    rcases lt_trichotomy x.m y.m with h | h | h
    · exact (apart hx hy hxr hyr (.inr ⟨hq, h⟩)).elim
    · exact h
    · exact (apart hy hx hyr hxr (.inr ⟨hq.symm, h⟩)).elim
  have hnarrow : x.narrowBelow = y.narrowBelow := by
    rw [Bool.eq_iff_iff, hx.narrow, hy.narrow, hq, hm]
  obtain ⟨m, q, narrow⟩ := x
  obtain ⟨m', q', narrow'⟩ := y
  simp only at hq hm hnarrow
  rw [hq, hm, hnarrow]

/-! ### The decimals that are written -/

theorem rounds_value (x : Binary) : x.Rounds x.value := by
  have hpos : (0 : ℚ) < 2 ^ (x.q - 2) := by positivity
  have hvalue : x.value = (4 * x.m : ℕ) * 2 ^ (x.q - 2) := by
    rw [value, zpow_sub₀ (by norm_num)]
    push_cast
    ring
  have hle : x.lowQuarters ≤ 4 * x.m := by
    unfold lowQuarters
    split <;> omega
  rw [hvalue]
  refine ⟨?_, ?_, ?_⟩
  · exact mul_le_mul_of_nonneg_right (by exact_mod_cast hle) hpos.le
  · exact mul_le_mul_of_nonneg_right (by exact_mod_cast Nat.le_add_right _ _) hpos.le
  · rintro (heq | heq)
    · have hquarters : 4 * x.m = x.lowQuarters := by exact_mod_cast mul_right_cancel₀ hpos.ne' heq
      unfold lowQuarters at hquarters
      split at hquarters <;> omega
    · have hquarters : 4 * x.m = 4 * x.m + 2 := by exact_mod_cast mul_right_cancel₀ hpos.ne' heq
      omega

/-- A value without a fractional part is the natural that it is written as. -/
theorem value_of_natural? {n : Nat} (h : x.natural? = some n) : x.value = n := by
  unfold natural? at h
  simp only [Nat.pow_eq] at h
  split at h
  next hmod =>
    obtain rfl := Option.some.inj h
    have hpow := zpow_mul_pow_toNat (b := 2) (by norm_num) x.q
    obtain ⟨k, hk⟩ := Nat.dvd_of_mod_eq_zero hmod
    have hdiv : x.m / 2 ^ (-x.q).toNat = k := by
      rw [hk, Nat.mul_div_cancel_left _ (by positivity)]
    rw [value, hdiv, hk]
    push_cast
    rw [← hpow]
    ring
  next => cases h

theorem value_exact (x : Binary) : x.exact.value = x.value := by
  unfold exact Digits.value value
  split
  next hq =>
    have hpow := zpow_mul_pow_toNat (b := 2) (by norm_num) x.q
    have hzero : (-x.q).toNat = 0 := by omega
    rw [hzero, pow_zero, mul_one] at hpow
    simp only [Nat.pow_eq]
    push_cast
    rw [hpow, mul_one]
  next hq =>
    have hpow := zpow_mul_pow_toNat (b := 5) (by norm_num) x.q
    have hzero : x.q.toNat = 0 := by omega
    have hten : (10 : ℚ) ^ x.q = 2 ^ x.q * 5 ^ x.q := by
      rw [← mul_zpow]
      norm_num
    rw [hzero, pow_zero] at hpow
    simp only [Nat.pow_eq]
    push_cast
    rw [hten]
    linear_combination (x.m : ℚ) * 2 ^ x.q * hpow

/-- What is found on a grid reads back. -/
theorem readsBack_of_onGrid? {tie : Tie} {g : Int} {d : Digits} (h : x.onGrid? tie g = some d) :
    x.readsBack d = true := by
  have hnearer : x.nearer tie (x.floorAt g) g = x.floorAt g ∨
      x.nearer tie (x.floorAt g) g = x.floorAt g + 1 := by
    unfold nearer
    split
    · exact .inr rfl
    · exact .inl rfl
    · split
      · exact .inr rfl
      · split
        · exact .inl rfl
        · exact .inr rfl
  unfold onGrid? at h
  simp only at h
  split at h
  next hbelow habove =>
    obtain rfl := Option.some.inj h
    rcases hnearer with heq | heq <;> rw [heq] <;> assumption
  next hbelow _ =>
    obtain rfl := Option.some.inj h
    exact hbelow
  next _ habove =>
    obtain rfl := Option.some.inj h
    exact habove
  next => cases h

end Binary

theorem Digits.value_strip (d : Digits) : d.strip.value = d.value := by
  fun_induction Digits.strip d with
  | case1 d h ih =>
    have hdigits : (d.digits : ℚ) = 10 * (d.digits / 10 : ℕ) := by
      exact_mod_cast (Nat.mul_div_cancel' (Nat.dvd_of_mod_eq_zero h.2)).symm
    rw [ih]
    unfold value
    rw [zpow_add_one₀ (by norm_num), hdigits]
    ring
  | case2 d h => rfl

/-- The shortest digits of a value round to it. -/
theorem Binary.rounds_shortest (tie : Tie) (x : Binary) : x.Rounds (shortest tie x).value := by
  unfold shortest
  split
  next hm =>
    have hzero : Digits.value ⟨0, 0⟩ = x.value := by simp [Digits.value, value, hm]
    rw [hzero]
    exact x.rounds_value
  next =>
    rw [Digits.value_strip]
    cases hfound : (List.range 17).findSome? fun (n : Nat) => x.onGrid? tie (x.scale - (n + 1)) with
    | none =>
      rw [Option.getD_none, value_exact]
      exact x.rounds_value
    | some d =>
      obtain ⟨n, -, hgrid⟩ := List.exists_of_findSome?_eq_some hfound
      exact (x.readsBack_iff d).1 (readsBack_of_onGrid? hgrid)

end Treewalk.Decimal
