import ResourceCode.Proofs.Number.Shortest

/-!
From eight bytes to four and back. A number that is written with all the digits of its format, or with the least
exponent, has one such form, and rounding only has to find it. So widening a four-byte number loses nothing, and
narrowing gives it back; an eight-byte number comes through both exactly when it has been a four-byte number.
-/

namespace ResourceCode.Number

namespace Binary

variable {l : Binary} {m p k : Nat} {e : Int} {negative : Bool}

/-- With all the digits of the format, or with the least exponent. -/
structure IsNormal (l : Binary) (m : Nat) (e : Int) : Prop where
  least : l.leastExponent ≤ e
  lt : m < 2 ^ (l.fraction + 1)
  lead : l.leastExponent < e → 2 ^ l.fraction ≤ m

/-- The pattern of a number in its normal form. -/
def pattern (l : Binary) (m : Nat) (e : Int) : Nat := (e - l.leastExponent).toNat * 2 ^ l.fraction + m

/-- What a pattern stands for is in normal form. -/
theorem isNormal_finiteParts (l : Binary) (p : Nat) :
    l.IsNormal (l.finiteParts p).1 (l.finiteParts p).2 := by
  have hrest : p % 2 ^ l.fraction < 2 ^ l.fraction := Nat.mod_lt p (Nat.two_pow_pos _)
  have hdouble : 2 ^ (l.fraction + 1) = 2 * 2 ^ l.fraction := Nat.pow_succ'
  simp only [finiteParts, Nat.pow_eq]
  split
  · exact ⟨le_refl _, by omega, fun h => absurd h (lt_irrefl _)⟩
  · exact ⟨by omega, by dsimp only; omega, fun _ => Nat.le_add_right _ _⟩

/-- A pattern can be told from its number in normal form. -/
theorem pattern_finiteParts (l : Binary) (p : Nat) :
    l.pattern (l.finiteParts p).1 (l.finiteParts p).2 = p := by
  have hp := Nat.div_add_mod' p (2 ^ l.fraction)
  simp only [finiteParts, pattern, Nat.pow_eq]
  split
  · rename_i hrow
    rw [hrow] at hp
    simpa using hp
  · rename_i hrow
    obtain ⟨row, hsucc⟩ := Nat.exists_eq_succ_of_ne_zero hrow
    rw [hsucc, Nat.succ_mul] at hp
    simp only [hsucc, Nat.succ_sub_one, add_sub_cancel_left, Int.toNat_natCast]
    omega

/-- In normal form every number has its own pattern. -/
theorem finiteParts_pattern (h : l.IsNormal m e) : l.finiteParts (l.pattern m e) = (m, e) := by
  have hunit : 0 < 2 ^ l.fraction := Nat.two_pow_pos _
  have hdouble : 2 ^ (l.fraction + 1) = 2 * 2 ^ l.fraction := Nat.pow_succ'
  have hlt := h.lt
  obtain ⟨row, hrow⟩ := Int.eq_ofNat_of_zero_le (Int.sub_nonneg.mpr h.least)
  obtain rfl : e = l.leastExponent + row := by omega
  simp only [finiteParts, pattern, Nat.pow_eq, add_sub_cancel_left, Int.toNat_natCast]
  by_cases hsmall : m < 2 ^ l.fraction
  · obtain rfl : row = 0 := by
      by_contra hne
      have hlead := h.lead (by omega)
      omega
    simp [Nat.div_eq_of_lt hsmall, Nat.mod_eq_of_lt hsmall]
  · -- the digit in front is not written, and counts as one more row
    obtain ⟨rest, rfl⟩ := Nat.exists_eq_add_of_le (Nat.le_of_not_lt hsmall)
    have hrest : rest < 2 ^ l.fraction := by omega
    have hsum : row * 2 ^ l.fraction + (2 ^ l.fraction + rest) = rest + 2 ^ l.fraction * (row + 1) := by
      ring
    rw [hsum, Nat.add_mul_div_left _ _ hunit, Nat.add_mul_mod_self_left, Nat.div_eq_of_lt hrest,
      Nat.mod_eq_of_lt hrest]
    simp

theorem log2_mul_two_pow (hm : m ≠ 0) (k : Nat) : (m * 2 ^ k).log2 = m.log2 + k := by
  have hlow := Nat.mul_le_mul_right (2 ^ k) (Nat.log2_self_le hm)
  have hhigh := Nat.mul_lt_mul_of_pos_right (Nat.lt_log2_self (n := m)) (Nat.two_pow_pos k)
  rw [← Nat.pow_add] at hlow hhigh
  have hne : m * 2 ^ k ≠ 0 := Nat.mul_ne_zero hm (Nat.two_pow_pos k).ne'
  exact (Nat.log2_eq_iff hne).mpr ⟨hlow, by rwa [Nat.add_right_comm] at hhigh⟩

/-- The place of the last digit of a number in normal form. -/
theorem place_eq (h : l.IsNormal m e) (hm : m ≠ 0) :
    max (e + m.log2 - l.fraction) l.leastExponent = e := by
  have hlog : m.log2 < l.fraction + 1 := (Nat.log2_lt hm).mpr h.lt
  have hleast := h.least
  by_cases hlead : l.leastExponent < e
  · have hfull : l.fraction ≤ m.log2 := (Nat.le_log2 hm).mpr (h.lead hlead)
    omega
  · omega

/-- Rounding never gets past infinity. -/
theorem roundMagnitude_le_infinity (l : Binary) (m : Nat) (e : Int) :
    l.roundMagnitude m e ≤ l.infinity := by
  unfold roundMagnitude
  split
  · exact Nat.zero_le _
  · exact Nat.min_le_right _ _

theorem pattern_zero (h : l.IsNormal 0 e) : l.pattern 0 e = 0 := by
  have hleast : e = l.leastExponent := by
    by_contra hne
    have hlead := h.lead (lt_of_le_of_ne h.least (Ne.symm hne))
    exact absurd hlead (Nat.two_pow_pos _).not_ge
  simp [pattern, hleast]

/-- Digits that are missing behind the last one are added. -/
theorem roundMagnitude_of_short (h : l.IsNormal (m * 2 ^ k) e) :
    l.roundMagnitude m (e + k) = min (l.pattern (m * 2 ^ k) e) l.infinity := by
  by_cases hm : m = 0
  · subst hm
    rw [Nat.zero_mul] at h ⊢
    simp [roundMagnitude, pattern_zero h]
  · have hne : m * 2 ^ k ≠ 0 := Nat.mul_ne_zero hm (Nat.two_pow_pos k).ne'
    have hplace := place_eq h hne
    rw [log2_mul_two_pow hm] at hplace
    have hsame : e + k + m.log2 - l.fraction = e + (m.log2 + k : Nat) - l.fraction := by
      push_cast
      ring
    have hk : (e + k - e).toNat = k := by omega
    simp only [roundMagnitude, if_neg hm, hsame, hplace, if_pos (Int.le_add_of_nonneg_right (Int.natCast_nonneg k)), hk,
      Nat.pow_eq, pattern]

/-- Zeros that stand behind the last digit are dropped. -/
theorem roundMagnitude_of_long (h : l.IsNormal m (e + k)) :
    l.roundMagnitude (m * 2 ^ k) e = min (l.pattern m (e + k)) l.infinity := by
  by_cases hm : m = 0
  · subst hm
    simp [roundMagnitude, pattern_zero h]
  · have hunit := Nat.two_pow_pos k
    have hne : m * 2 ^ k ≠ 0 := Nat.mul_ne_zero hm hunit.ne'
    have hplace := place_eq h hm
    have hsame : e + (m.log2 + k : Nat) - l.fraction = e + k + m.log2 - l.fraction := by
      push_cast
      ring
    have hk : (e + k - e).toNat = k := by omega
    have hshift : shiftToEven (m * 2 ^ k) k = m := by
      simp [shiftToEven]
    simp only [roundMagnitude, if_neg hne, log2_mul_two_pow hm, hsame, hplace, hk, hshift, Nat.pow_eq,
      pattern]
    split
    · rename_i hle
      obtain rfl : k = 0 := by omega
      simp
    · rfl

theorem infinity_lt_signBit (l : Binary) : l.infinity < l.signBit := by
  have hexponent : 0 < 2 ^ l.exponent := Nat.two_pow_pos _
  simp only [infinity, signBit, Nat.pow_eq, Nat.pow_add]
  exact Nat.mul_lt_mul_of_pos_right (by omega) (Nat.two_pow_pos _)

theorem magnitude_signed (hp : p < l.signBit) :
    l.magnitude ((if negative then l.signBit else 0) + p) = p := by
  unfold magnitude
  cases negative <;> simp [Nat.mod_eq_of_lt hp]

theorem isNegative_signed (hp : p < l.signBit) :
    l.isNegative ((if negative then l.signBit else 0) + p) = negative := by
  unfold isNegative
  cases negative <;> simp [hp]

/-- Finite, infinite or undefined, as the magnitude says. -/
theorem datum_signed (negative : Bool) (hp : p < l.signBit) :
    l.datum ((if negative then l.signBit else 0) + p) =
      if p < l.infinity then .finite negative (l.finiteParts p).1 (l.finiteParts p).2
      else if p = l.infinity then .infinite negative else .undefined := by
  simp only [datum, magnitude_signed hp, isNegative_signed hp]

theorem quietNaN_lt_signBit (hl : 0 < l.fraction) : l.quietNaN < l.signBit := by
  have hhalf : 2 ^ (l.fraction - 1) < 2 ^ l.fraction := Nat.pow_lt_pow_right (by decide) (by omega)
  have hexponent : 0 < 2 ^ l.exponent := Nat.two_pow_pos _
  have hrows : (2 ^ l.exponent - 1) * 2 ^ l.fraction + 2 ^ l.fraction =
      2 ^ l.exponent * 2 ^ l.fraction := by
    rw [← Nat.succ_mul, Nat.succ_eq_add_one, Nat.sub_add_cancel hexponent]
  simp only [quietNaN, infinity, signBit, Nat.pow_eq, Nat.pow_add]
  omega

theorem datum_ofDatum_undefined (hl : 0 < l.fraction) :
    l.datum (l.ofDatum .undefined) = .undefined := by
  have hpast : l.infinity < l.quietNaN := Nat.lt_add_of_pos_right (Nat.two_pow_pos _)
  have hdatum := datum_signed false (quietNaN_lt_signBit hl)
  simpa [ofDatum, hpast.not_gt, hpast.ne'] using hdatum

theorem datum_ofDatum_infinite (l : Binary) (negative : Bool) :
    l.datum (l.ofDatum (.infinite negative)) = .infinite negative := by
  have hdatum := datum_signed negative l.infinity_lt_signBit
  simpa [ofDatum] using hdatum

/-- What is rounded keeps its sign, and becomes infinite when it is rounded to infinity. -/
theorem datum_ofDatum_finite (l : Binary) (negative : Bool) (m : Nat) (e : Int) :
    l.datum (l.ofDatum (.finite negative m e)) =
      if l.roundMagnitude m e < l.infinity then
        .finite negative (l.finiteParts (l.roundMagnitude m e)).1 (l.finiteParts (l.roundMagnitude m e)).2
      else .infinite negative := by
  have hle := l.roundMagnitude_le_infinity m e
  have hdatum := datum_signed negative (hle.trans_lt l.infinity_lt_signBit)
  rw [ofDatum, round, hdatum]
  split
  · rfl
  · rename_i hpast
    rw [if_pos (by omega)]

/-- The patterns that are no number are those that stand for none. -/
theorem isNaN_iff (l : Binary) (a : Nat) : l.isNaN a = true ↔ l.datum a = .undefined := by
  simp only [isNaN, datum, decide_eq_true_eq]
  split
  · simp [Nat.le_of_lt, *]
  · split
    · simp [*]
    · simp only [iff_true]
      omega

/-- Rounding makes no number undefined. -/
theorem isNaN_ofDatum (hl : 0 < l.fraction) (d : Datum) :
    l.isNaN (l.ofDatum d) = true ↔ d = .undefined := by
  rw [isNaN_iff]
  cases d with
  | undefined => simp [datum_ofDatum_undefined hl]
  | infinite negative => simp [datum_ofDatum_infinite]
  | finite negative m e =>
    rw [datum_ofDatum_finite]
    split <;> simp

/-- A rounded number fits into the bits of its format. -/
theorem ofDatum_lt (hl : 0 < l.fraction) (d : Datum) : l.ofDatum d < 2 * l.signBit := by
  have hinfinity := l.infinity_lt_signBit
  cases d with
  | undefined =>
    have hnan := quietNaN_lt_signBit hl
    simp only [ofDatum]
    omega
  | infinite negative =>
    simp only [ofDatum]
    split <;> omega
  | finite negative m e =>
    have hle := l.roundMagnitude_le_infinity m e
    simp only [ofDatum, round]
    split <;> omega

/-- The digits of a four-byte number fit into an eight-byte number, and so does its exponent. -/
theorem exists_isNormal_double (hp : p < single.infinity) :
    ∃ k : Nat, double.IsNormal ((single.finiteParts p).1 * 2 ^ k) ((single.finiteParts p).2 - k) ∧
      double.pattern ((single.finiteParts p).1 * 2 ^ k) ((single.finiteParts p).2 - k) <
        double.infinity := by
  have hnormal := single.isNormal_finiteParts p
  have hpattern := single.pattern_finiteParts p
  generalize (single.finiteParts p).1 = m at *
  generalize (single.finiteParts p).2 = e at *
  have hsingle : single.leastExponent = -149 ∧ single.fraction = 23 := by decide
  have hdouble : double.leastExponent = -1074 ∧ double.fraction = 52 := by decide
  have hinfinity : single.infinity = 255 * 2 ^ 23 ∧ double.infinity = 2047 * 2 ^ 52 := by decide
  obtain ⟨hleast, hlt, hlead⟩ := hnormal
  simp only [pattern, hsingle] at hleast hlt hlead hpattern
  have hgreatest : e ≤ 104 := by omega
  by_cases hm : m = 0
  · subst hm
    refine ⟨(e + 1074).toNat, ⟨?_, ?_, ?_⟩, ?_⟩ <;> simp only [pattern, hdouble, hinfinity] <;> omega
  · have hlog : m.log2 < 24 := (Nat.log2_lt hm).mpr hlt
    have hne : m * 2 ^ (52 - m.log2) ≠ 0 := Nat.mul_ne_zero hm (Nat.two_pow_pos _).ne'
    have hfull : (m * 2 ^ (52 - m.log2)).log2 = 52 := by
      rw [log2_mul_two_pow hm]
      omega
    have hdigits := (Nat.log2_eq_iff hne).mp hfull
    refine ⟨52 - m.log2, ⟨?_, ?_, ?_⟩, ?_⟩ <;> simp only [pattern, hdouble, hinfinity] <;> omega

/-- Widening a finite pattern gives a finite pattern, and narrowing that one gives the first one back. -/
theorem roundMagnitude_widened (hp : p < single.infinity) :
    double.roundMagnitude (single.finiteParts p).1 (single.finiteParts p).2 < double.infinity ∧
      single.roundMagnitude
        (double.finiteParts
          (double.roundMagnitude (single.finiteParts p).1 (single.finiteParts p).2)).1
        (double.finiteParts
          (double.roundMagnitude (single.finiteParts p).1 (single.finiteParts p).2)).2 = p := by
  obtain ⟨k, hnormal, hfinite⟩ := exists_isNormal_double hp
  have hwide := roundMagnitude_of_short hnormal
  rw [Int.sub_add_cancel, Nat.min_eq_left hfinite.le] at hwide
  rw [hwide]
  refine ⟨hfinite, ?_⟩
  rw [finiteParts_pattern hnormal]
  have hback : single.IsNormal (single.finiteParts p).1 ((single.finiteParts p).2 - k + k) := by
    rw [Int.sub_add_cancel]
    exact single.isNormal_finiteParts p
  rw [roundMagnitude_of_long hback, Int.sub_add_cancel, pattern_finiteParts, Nat.min_eq_left hp.le]

/-- All of this for patterns with their sign. -/
theorem ofDatum_widened {a : Nat} (ha : a < 2 * single.signBit) (hnan : single.isNaN a = false) :
    single.ofDatum (double.datum (double.ofDatum (single.datum a))) = a := by
  have hmagnitude : single.magnitude a < single.signBit := Nat.mod_lt a (Nat.two_pow_pos _)
  have hsigned := eq_sign_add_magnitude ha
  have hdatum := datum_signed (single.isNegative a) hmagnitude
  rw [← hsigned] at hdatum
  have hle : single.magnitude a ≤ single.infinity := by simpa [isNaN] using hnan
  rcases hle.lt_or_eq with hlt | heq
  · obtain ⟨hfinite, hback⟩ := roundMagnitude_widened hlt
    rw [hdatum, if_pos hlt, datum_ofDatum_finite, if_pos hfinite, ofDatum, round, hback]
    exact hsigned.symm
  · rw [hdatum, heq, if_neg (lt_irrefl _), if_pos rfl, datum_ofDatum_infinite, ofDatum, ← heq]
    exact hsigned.symm

end Binary

theorem Single.toNat_bits_ofDatum (d : Datum) :
    (Single.ofDatum d).bits.toNat = Binary.single.ofDatum d :=
  Nat.mod_eq_of_lt (Binary.ofDatum_lt (l := .single) (by decide) d)

theorem Double.toNat_bits_ofDatum (d : Datum) :
    (Double.ofDatum d).bits.toNat = Binary.double.ofDatum d :=
  Nat.mod_eq_of_lt (Binary.ofDatum_lt (l := .double) (by decide) d)

namespace Single

/-- Widening makes no undefined number, and does away with none. -/
theorem isNaN_toDouble (x : Single) : x.toDouble.isNaN = x.isNaN := by
  have hwide : x.toDouble.isNaN = Binary.double.isNaN (Binary.double.ofDatum x.datum) :=
    congrArg Binary.double.isNaN (Double.toNat_bits_ofDatum x.datum)
  rw [hwide, Bool.eq_iff_iff, Binary.isNaN_ofDatum (by decide)]
  exact (Binary.single.isNaN_iff _).symm

/-- Narrowing gives back what has been widened. -/
theorem toSingle_toDouble {x : Single} (hx : x.isNaN = false) : x.toDouble.toSingle = x := by
  have hwide : x.toDouble.datum = Binary.double.datum (Binary.double.ofDatum x.datum) :=
    congrArg Binary.double.datum (Double.toNat_bits_ofDatum x.datum)
  have hbits : x.toDouble.toSingle.bits.toNat = x.bits.toNat := by
    rw [Double.toSingle, toNat_bits_ofDatum, hwide]
    exact Binary.ofDatum_widened x.bits.toNat_lt hx
  cases x
  exact congrArg Single.mk (UInt32.toNat_inj.mp hbits)

end Single

namespace Double

/-- Narrowing makes no number undefined, and leaves undefined what is. -/
theorem isNaN_toSingle (x : Double) : x.toSingle.isNaN = x.isNaN := by
  have hnarrow : x.toSingle.isNaN = Binary.single.isNaN (Binary.single.ofDatum x.datum) :=
    congrArg Binary.single.isNaN (Single.toNat_bits_ofDatum x.datum)
  rw [hnarrow, Bool.eq_iff_iff, Binary.isNaN_ofDatum (by decide)]
  exact (Binary.double.isNaN_iff _).symm

/-- A defined number stays the same through four bytes exactly when a four-byte number stands for it. -/
theorem toDouble_toSingle_eq_iff {x : Double} (hx : x.isNaN = false) :
    x.toSingle.toDouble = x ↔ ∃ y : Single, y.toDouble = x := by
  constructor
  · intro h
    exact ⟨x.toSingle, h⟩
  · rintro ⟨y, rfl⟩
    rw [Single.isNaN_toDouble] at hx
    rw [Single.toSingle_toDouble hx]

end Double

end ResourceCode.Number
