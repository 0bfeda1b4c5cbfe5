import Mathlib
import Treewalk.Proofs.Decimal.Rounding
import Treewalk.Token.Lexer
import Treewalk.Tree.Prefix
/-!
# Texts of numbers

What a number is written as in a tree denotes a decimal that rounds to it (`Literal.numberText_eq`), so
that finite numbers with the same text are the same (`Literal.numberText_injective`). A literal that is
read from a source is never `NaN` (`Lexer.magnitude_decimal_ne_nan`).
-/

namespace Treewalk.Decimal

/-! ### Denotation -/

/-- The number that a positional text without a sign denotes. -/
def denoted (cs : List Char) : ℚ :=
  Lexer.natural (cs.filter (· ≠ '.')) / 10 ^ (cs.dropWhile (· ≠ '.')).tail.length

theorem natural_eq_ofDigitChars (cs : List Char) : Lexer.natural cs = Nat.ofDigitChars 10 cs 0 := by
  rw [Nat.ofDigitChars_eq_foldl]
  rfl

theorem natural_toDigits (n : Nat) : Lexer.natural (Nat.toDigits 10 n) = n := by
  rw [natural_eq_ofDigitChars, Nat.ofDigitChars_ten_toDigits]

/-- The characters of a text without a point. -/
def Digital (cs : List Char) : Prop :=
  ∀ c ∈ cs, c.isDigit = true

theorem digital_toDigits (n : Nat) : Digital (Nat.toDigits 10 n) :=
  fun _ hc => Nat.isDigit_of_mem_toDigits (by norm_num) (by norm_num) hc

theorem Digital.ne_point {cs : List Char} (h : Digital cs) : ∀ c ∈ cs, c ≠ '.' := by
  rintro c hc rfl
  exact absurd (h '.' hc) (by decide)

theorem Digital.append {cs cs' : List Char} (h : Digital cs) (h' : Digital cs') :
    Digital (cs ++ cs') :=
  List.forall_mem_append.2 ⟨h, h'⟩

theorem digital_zeros (n : Nat) : Digital (List.replicate n '0') := by
  intro c hc
  rw [List.eq_of_mem_replicate hc]
  rfl

theorem denoted_whole {whole : List Char} (h : Digital whole) :
    denoted whole = Lexer.natural whole := by
  have hfilter : whole.filter (· ≠ '.') = whole :=
    List.filter_eq_self.2 fun c hc => decide_eq_true (h.ne_point c hc)
  have hdrop : whole.dropWhile (· ≠ '.') = [] :=
    List.dropWhile_eq_nil_iff.2 fun c hc => decide_eq_true (h.ne_point c hc)
  rw [denoted, hfilter, hdrop]
  simp

theorem denoted_fraction {whole part : List Char} (h : Digital whole) (h' : Digital part) :
    denoted (whole ++ '.' :: part) = Lexer.natural (whole ++ part) / 10 ^ part.length := by
  have hfilter : (whole ++ '.' :: part).filter (· ≠ '.') = whole ++ part := by
    rw [List.filter_append, List.filter_cons_of_neg (by simp)]
    rw [List.filter_eq_self.2 fun c hc => decide_eq_true (h.ne_point c hc)]
    rw [List.filter_eq_self.2 fun c hc => decide_eq_true (h'.ne_point c hc)]
  have hdrop : (whole ++ '.' :: part).dropWhile (· ≠ '.') = '.' :: part := by
    rw [List.dropWhile_append_of_pos fun c hc => decide_eq_true (h.ne_point c hc)]
    rfl
  rw [denoted, hfilter, hdrop, List.tail_cons]

/-- The positional layout denotes the value that it lays out. -/
theorem denoted_positional (d : Digits) : denoted d.positional = d.value := by
  have hcs := digital_toDigits d.digits
  have hnatural := natural_toDigits d.digits
  have hexponent (h : ¬ 0 ≤ d.exponent) : (10 : ℚ) ^ d.exponent = 1 / 10 ^ (-d.exponent).toNat := by
    rw [← zpow_natCast, one_div, ← zpow_neg]
    congr 1
    omega
  unfold Digits.positional Digits.characters Digits.value
  simp only
  generalize Nat.toDigits 10 d.digits = cs at hcs hnatural ⊢
  split
  next hpos =>
    rw [denoted_whole (hcs.append (digital_zeros _)), natural_eq_ofDigitChars,
      Nat.ofDigitChars_append, Nat.ofDigitChars_replicate_zero, ← natural_eq_ofDigitChars, hnatural]
    push_cast
    rw [mul_comm, ← zpow_natCast, Int.toNat_of_nonneg hpos]
  next hneg =>
    rw [hexponent hneg]
    split
    next hlt =>
      have hlength : (cs.drop (cs.length - (-d.exponent).toNat)).length = (-d.exponent).toNat := by
        rw [List.length_drop]
        omega
      rw [denoted_fraction (fun c hc => hcs c (List.mem_of_mem_take hc))
        (fun c hc => hcs c (List.mem_of_mem_drop hc)), List.take_append_drop, hnatural, hlength]
      ring
    next hge =>
      have hlength : (List.replicate ((-d.exponent).toNat - cs.length) '0' ++ cs).length =
          (-d.exponent).toNat := by
        rw [List.length_append, List.length_replicate]
        omega
      show denoted (List.replicate 1 '0' ++ '.' :: _) = _
      rw [denoted_fraction (digital_zeros 1) ((digital_zeros _).append hcs), hlength,
        natural_eq_ofDigitChars, Nat.ofDigitChars_append, Nat.ofDigitChars_append,
        Nat.ofDigitChars_replicate_zero, Nat.ofDigitChars_replicate_zero, mul_zero, mul_zero,
        ← natural_eq_ofDigitChars, hnatural]
      ring

/-- Digits and points, of which a digit is first. -/
structure Numeric (cs : List Char) : Prop where
  begins : ∃ c ∈ cs.head?, c.isDigit = true
  within : ∀ c ∈ cs, c.isDigit = true ∨ c = '.'

theorem Digital.numeric_append {whole rest : List Char} (h : Digital whole) (hne : whole ≠ [])
    (hrest : ∀ c ∈ rest, c.isDigit = true ∨ c = '.') : Numeric (whole ++ rest) := by
  obtain ⟨c, tail, rfl⟩ := List.exists_cons_of_ne_nil hne
  exact ⟨⟨c, rfl, h c List.mem_cons_self⟩,
    List.forall_mem_append.2 ⟨fun c hc => .inl (h c hc), hrest⟩⟩

theorem Digital.numeric_fraction {whole part : List Char} (h : Digital whole) (hne : whole ≠ [])
    (h' : Digital part) : Numeric (whole ++ '.' :: part) :=
  h.numeric_append hne (List.forall_mem_cons.2 ⟨.inr rfl, fun c hc => .inl (h' c hc)⟩)

theorem numeric_positional (d : Digits) : Numeric d.positional := by
  have hcs := digital_toDigits d.digits
  have hne : Nat.toDigits 10 d.digits ≠ [] := Nat.toDigits_ne_nil
  unfold Digits.positional Digits.characters
  simp only
  generalize Nat.toDigits 10 d.digits = cs at hcs hne ⊢
  split
  · exact hcs.numeric_append hne fun c hc => .inl (digital_zeros _ c hc)
  · split
    next hlt =>
      refine Digital.numeric_fraction (fun c hc => hcs c (List.mem_of_mem_take hc)) ?_
        (fun c hc => hcs c (List.mem_of_mem_drop hc))
      refine List.ne_nil_of_length_pos ?_
      rw [List.length_take]
      omega
    · show Numeric (List.replicate 1 '0' ++ '.' :: _)
      exact (digital_zeros 1).numeric_fraction (by simp) ((digital_zeros _).append hcs)

/-- The text of a finite number is a sign and a positional text, which denotes a decimal that rounds to
the number. -/
theorem numberText_eq {x : Float} {b : Binary} (h : magnitude x = .finite b) :
    ∃ cs, Literal.numberText x = signed (isNegative x) cs ∧ Numeric cs ∧ b.Rounds (denoted cs) := by
  unfold Literal.numberText plain
  simp only [h]
  cases hnatural : b.natural? with
  | none =>
    refine ⟨(shortest .up b).positional, rfl, numeric_positional _, ?_⟩
    rw [denoted_positional]
    exact b.rounds_shortest .up
  | some n =>
    have hdigits := digital_toDigits n
    refine ⟨Nat.toDigits 10 n ++ ['.', '0'], rfl,
      hdigits.numeric_fraction Nat.toDigits_ne_nil (digital_zeros 1), ?_⟩
    have hdenoted : denoted (Nat.toDigits 10 n ++ ['.', '0']) = b.value := by
      show denoted (Nat.toDigits 10 n ++ '.' :: List.replicate 1 '0') = b.value
      rw [denoted_fraction hdigits (digital_zeros 1), natural_eq_ofDigitChars,
        Nat.ofDigitChars_append, Nat.ofDigitChars_replicate_zero, Nat.ofDigitChars_ten_toDigits,
        b.value_of_natural? hnatural]
      simp
    rw [hdenoted]
    exact b.rounds_value

theorem signed_injective {negative negative' : Bool} {cs cs' : List Char} (h : Numeric cs)
    (h' : Numeric cs') (heq : signed negative cs = signed negative' cs') :
    negative = negative' ∧ cs = cs' := by
  have hminus {cs : List Char} (h : Numeric cs) (cs' : List Char) : cs ≠ '-' :: cs' := by
    rintro rfl
    obtain ⟨c, hc, hdigit⟩ := h.begins
    obtain rfl := Option.some.inj hc
    exact absurd hdigit (by decide)
  have hlist := String.ofList_injective heq
  cases negative <;> cases negative'
  · exact ⟨rfl, hlist⟩
  · exact (hminus h _ hlist).elim
  · exact (hminus h' _ hlist.symm).elim
  · exact ⟨rfl, List.tail_eq_of_cons_eq hlist⟩

/-! ### Bit patterns -/

theorem toNat_exponent (bits : UInt64) :
    ((bits >>> 52) &&& 0x7FF).toNat = bits.toNat / 2 ^ 52 % 2 ^ 11 := by
  rw [UInt64.toNat_and, UInt64.toNat_shiftRight, Nat.shiftRight_eq_div_pow]
  exact Nat.and_two_pow_sub_one_eq_mod _ 11

theorem toNat_fraction (bits : UInt64) :
    (bits &&& 0xFFFFFFFFFFFFF).toNat = bits.toNat % 2 ^ 52 := by
  rw [UInt64.toNat_and]
  exact Nat.and_two_pow_sub_one_eq_mod _ 52

theorem isNegative_eq (x : Float) : isNegative x = decide (x.toBits.toNat / 2 ^ 63 = 1) := by
  unfold isNegative
  rw [decide_eq_decide, ← UInt64.toNat_inj, UInt64.toNat_shiftRight, Nat.shiftRight_eq_div_pow]
  rfl

/-- A bit pattern of a finite magnitude has this form. -/
theorem Magnitude.ofBits_eq_finite {bits : UInt64} {b : Binary} (h : ofBits bits = .finite b) :
    (bits.toNat / 2 ^ 52 % 2 ^ 11 = 0 ∧ b = ⟨bits.toNat % 2 ^ 52, -1074, false⟩) ∨
    (0 < bits.toNat / 2 ^ 52 % 2 ^ 11 ∧
      b = ⟨2 ^ 52 + bits.toNat % 2 ^ 52, (bits.toNat / 2 ^ 52 % 2 ^ 11 : ℕ) - 1075,
        bits.toNat % 2 ^ 52 = 0 && 1 < bits.toNat / 2 ^ 52 % 2 ^ 11⟩) := by
  unfold ofBits at h
  simp only [toNat_exponent, toNat_fraction] at h
  split at h
  · split at h <;> cases h
  · split at h
    next hzero => exact .inl ⟨hzero, (Magnitude.finite.inj h).symm⟩
    next hpos => exact .inr ⟨Nat.pos_of_ne_zero hpos, (Magnitude.finite.inj h).symm⟩

theorem magnitude_canonical {x : Float} {b : Binary} (h : magnitude x = .finite b) :
    b.Canonical := by
  have hfraction : x.toBits.toNat % 2 ^ 52 < 2 ^ 52 := Nat.mod_lt _ (by norm_num)
  rcases Magnitude.ofBits_eq_finite h with ⟨-, rfl⟩ | ⟨hpos, rfl⟩
  · refine ⟨by simp only; omega, le_rfl, .inl rfl, by simp⟩
  · refine ⟨by simp only; omega, by simp only; omega, .inr (by simp only; omega), ?_⟩
    simp only [Bool.and_eq_true, decide_eq_true_eq]
    omega

theorem toBits_injective {x y : Float} (h : x.toBits = y.toBits) : x = y := by
  obtain ⟨⟨bits, _⟩⟩ := x
  obtain ⟨⟨bits', _⟩⟩ := y
  obtain rfl : bits = bits' := h
  rfl

/-- The sign and the magnitude are all there is to a finite number. -/
theorem eq_of_magnitude {x y : Float} {b : Binary} (hx : magnitude x = .finite b)
    (hy : magnitude y = .finite b) (hsign : isNegative x = isNegative y) : x = y := by
  have hlt := x.toBits.toNat_lt
  have hlt' := y.toBits.toNat_lt
  rw [isNegative_eq, isNegative_eq, decide_eq_decide] at hsign
  refine toBits_injective (UInt64.toNat_inj.1 ?_)
  rcases Magnitude.ofBits_eq_finite hx with ⟨hexponent, rfl⟩ | ⟨hexponent, rfl⟩ <;>
    rcases Magnitude.ofBits_eq_finite hy with ⟨hexponent', heq⟩ | ⟨hexponent', heq⟩ <;>
    obtain ⟨hm, hq, -⟩ := Binary.mk.inj heq <;> omega

end Treewalk.Decimal

namespace Treewalk

open Decimal

/-- Finite numbers with the same text are the same. -/
theorem Literal.numberText_injective {x y : Float} {b b' : Binary} (hx : magnitude x = .finite b)
    (hy : magnitude y = .finite b') (h : numberText x = numberText y) : x = y := by
  obtain ⟨cs, htext, hnumeric, hrounds⟩ := numberText_eq hx
  obtain ⟨cs', htext', hnumeric', hrounds'⟩ := numberText_eq hy
  rw [htext, htext'] at h
  obtain ⟨hsign, rfl⟩ := signed_injective hnumeric hnumeric' h
  obtain rfl := (magnitude_canonical hx).eq_of_rounds (magnitude_canonical hy) hrounds hrounds'
  exact eq_of_magnitude hx hy hsign

end Treewalk

namespace Treewalk.Decimal

/-! ### Literals are numbers -/

open Float.Model (UnpackedFloat Format)
open Float.Model.UnpackedFloat

theorem unpack_eq_notANumber_iff (spec : Format) (bits : BitVec spec.numBits) :
    unpack spec bits = .notANumber ↔ unpackExponent bits = -1#_ ∧ unpackMantissa bits ≠ 0#_ := by
  unfold unpack
  simp only
  split_ifs <;> simp_all

theorem toNat_unpackExponent (bits : UInt64) :
    (@unpackExponent Format.binary64 bits.toBitVec).toNat =
      bits.toNat / 2 ^ 52 % 2 ^ 11 := by
  simp [unpackExponent, BitVec.extractLsb_toNat, Nat.shiftRight_eq_div_pow]

theorem toNat_unpackMantissa (bits : UInt64) :
    (@unpackMantissa Format.binary64 bits.toBitVec).toNat = bits.toNat % 2 ^ 52 := by
  simp [unpackMantissa, BitVec.extractLsb_toNat]

theorem magnitude_eq_nan_iff (x : Float) :
    magnitude x = .nan ↔ x.toModel.unpack = .notANumber := by
  rw [Float.Model.unpack, unpack_eq_notANumber_iff, ← BitVec.toNat_inj, toNat_unpackExponent, ne_eq,
    ← BitVec.toNat_inj, toNat_unpackMantissa, ← toNat_exponent, ← toNat_fraction]
  unfold magnitude Magnitude.ofBits Float.toBits
  simp only
  split_ifs <;> simp_all

/-- Packing makes no `NaN` of anything else, not even when it overflows. -/
theorem unpack_pack_ne {f : UnpackedFloat} (h : f ≠ .notANumber) :
    (Float.Model.pack f).unpack ≠ .notANumber := by
  rw [Float.Model.unpack, ne_eq, unpack_eq_notANumber_iff]
  show ¬ (unpackExponent (pack Format.binary64 f) = _ ∧ unpackMantissa (pack Format.binary64 f) ≠ _)
  unfold pack
  split
  · exact absurd rfl h
  · simp [packedInfinity]
  · simp [packedZero]
  · simp only
    split_ifs with hoverflow
    · simp [packedInfinity]
    · rw [unpackExponent_packComponents, ← BitVec.toNat_inj]
      simp
      omega
    · simp

theorem roundWithAccuracy_ne (spec : Format) (sign : Sign) (mantissa : Nat) (exponent : Int)
    (accuracy : Accuracy) :
    roundWithAccuracy spec sign mantissa exponent accuracy ≠ .notANumber := by
  unfold roundWithAccuracy
  simp only
  split <;> exact nofun

theorem ofNat_ne (spec : Format) (n : Nat) : UnpackedFloat.ofNat spec n ≠ .notANumber := by
  unfold UnpackedFloat.ofNat UnpackedFloat.ofInt UnpackedFloat.normalize
  split
  · exact roundWithAccuracy_ne _ _ _ _ _
  · exact nofun
  · exact roundWithAccuracy_ne _ _ _ _ _

theorem ofScientific_ne (spec : Format) (m : Nat) (e : Int) :
    UnpackedFloat.ofScientific spec m e ≠ .notANumber := by
  unfold UnpackedFloat.ofScientific
  split_ifs
  · exact nofun
  · exact nofun
  · exact nofun
  · exact roundWithAccuracy_ne _ _ _ _ _
  · exact roundWithAccuracy_ne _ _ _ _ _

/-- A quotient is no number only if its divisor is zero or not finite, or its dividend is none. -/
theorem div_finite_ne {f : UnpackedFloat} (h : f ≠ .notANumber) (spec : Format) (sign : Sign)
    (mantissa : Nat) (exponent : Int) (hpos : 0 < mantissa) :
    div spec f (.finite sign mantissa exponent hpos) ≠ .notANumber := by
  cases f with
  | notANumber => exact absurd rfl h
  | infinity _ | zero _ => exact nofun
  | finite _ _ _ _ => exact roundWithAccuracy_ne _ _ _ _ _

theorem exists_power_finite (i : Fin 23) : ∃ sign mantissa exponent hpos,
    Float.exactlyRepresentablePowersOfTen[i].toModel.unpack =
      .finite sign mantissa exponent hpos := by
  fin_cases i <;> exact ⟨_, _, _, _, rfl⟩

theorem magnitude_ofScientific_ne (m e : Nat) : magnitude (Float.ofScientific m true e) ≠ .nan := by
  rw [ne_eq, magnitude_eq_nan_iff]
  unfold Float.ofScientific
  split
  next h =>
    obtain ⟨sign, mantissa, exponent, hpos, hpower⟩ := exists_power_finite ⟨e, by omega⟩
    have hdividend := unpack_pack_ne (ofNat_ne Format.binary64 m.toUInt64.toNat)
    have hquotient := div_finite_ne hdividend Format.binary64 sign mantissa exponent hpos
    rw [← hpower] at hquotient
    exact unpack_pack_ne hquotient
  next => exact unpack_pack_ne (ofScientific_ne _ _ _)

end Treewalk.Decimal
