import ResourceCode.Number
import Mathlib.Algebra.Order.Field.Basic
import Mathlib.Algebra.Order.Field.Power
import Mathlib.Algebra.Order.Field.Rat
import Mathlib.Order.Monotone.Basic
import Mathlib.Tactic.FieldSimp
import Mathlib.Tactic.Linarith
import Mathlib.Tactic.LinearCombination
import Mathlib.Tactic.Positivity
import Mathlib.Tactic.Ring

/-!
The numbers that bit patterns stand for, one after the other. They grow with the pattern, and the numbers that round
to a pattern reach halfway to its neighbours on either side. Halfway between two patterns the even one is taken, so no
number rounds to two patterns.

The search for the shortest decimal always comes to a power of ten with a multiple that rounds to the pattern, since
the number of the pattern is itself such a multiple at the last power that is tried. The decimal has no zero at its end
behind the point, for without it a coarser power of ten would have done.
-/

namespace ResourceCode

namespace Number.Binary

variable {l : Binary} {p q : Nat}

/-- A pattern is its sign and its magnitude. -/
theorem eq_sign_add_magnitude {a : Nat} (ha : a < 2 * l.signBit) :
    a = (if l.isNegative a then l.signBit else 0) + l.magnitude a := by
  unfold isNegative magnitude
  by_cases hsign : l.signBit ≤ a
  · rw [Nat.mod_eq_sub_mod hsign, Nat.mod_eq_of_lt (by omega)]
    simp only [hsign, decide_true, if_true]
    omega
  · rw [Nat.mod_eq_of_lt (by omega)]
    simp [hsign]

/-- The number of a pattern without its sign. Patterns past the finite ones continue in the same way. -/
def value (l : Binary) (p : Nat) : ℚ := (l.finiteParts p).1 * 2 ^ (l.finiteParts p).2

/-- The distance to the number of the next pattern. -/
def gap (l : Binary) (p : Nat) : ℚ := 2 ^ (l.finiteParts p).2

theorem gap_pos (l : Binary) (p : Nat) : 0 < l.gap p := by
  unfold gap
  positivity

theorem value_zero (l : Binary) : l.value 0 = 0 := by
  simp [value, finiteParts]

/-- Behind the last pattern of a row comes the first one of the next row. The gaps in it are twice as large, except
behind the first row of all. -/
theorem finiteParts_succ (l : Binary) (p : Nat) :
    (l.finiteParts (p + 1) = ((l.finiteParts p).1 + 1, (l.finiteParts p).2) ∧
        ((l.finiteParts p).1 + 1 = 2 ^ l.fraction → (l.finiteParts p).2 = l.leastExponent)) ∨
      (l.finiteParts (p + 1) = (2 ^ l.fraction, (l.finiteParts p).2 + 1) ∧
        (l.finiteParts p).1 + 1 = 2 ^ (l.fraction + 1) ∧ l.leastExponent ≤ (l.finiteParts p).2) := by
  -- a pattern is a row, which gives the exponent, and a place in it, which gives the fraction
  obtain ⟨row, place, hplace, rfl⟩ : ∃ row place, place < 2 ^ l.fraction ∧
      p = 2 ^ l.fraction * row + place :=
    ⟨_, _, Nat.mod_lt p (Nat.two_pow_pos _), (Nat.div_add_mod p _).symm⟩
  have hunit : 0 < 2 ^ l.fraction := Nat.two_pow_pos _
  have hdiv (i : Nat) (hi : i < 2 ^ l.fraction) : (2 ^ l.fraction * row + i) / 2 ^ l.fraction = row := by
    rw [Nat.mul_add_div hunit, Nat.div_eq_of_lt hi, Nat.add_zero]
  have hmod (i : Nat) (hi : i < 2 ^ l.fraction) : (2 ^ l.fraction * row + i) % 2 ^ l.fraction = i := by
    rw [Nat.mul_add_mod, Nat.mod_eq_of_lt hi]
  simp only [finiteParts, Nat.pow_eq, hdiv place hplace, hmod place hplace, Nat.add_assoc]
  by_cases hlast : place + 1 = 2 ^ l.fraction
  · have hnext : 2 ^ l.fraction * row + 2 ^ l.fraction = 2 ^ l.fraction * (row + 1) := rfl
    rw [hlast, hnext, Nat.mul_div_cancel_left _ hunit, Nat.mul_mod_right]
    cases row with
    | zero =>
      left
      simp [hlast]
    | succ row =>
      right
      simp only [Nat.succ_ne_zero, if_false, Nat.add_sub_cancel]
      refine ⟨?_, ?_, Int.le_add_of_nonneg_right (Int.natCast_nonneg row)⟩
      · push_cast
        rw [Nat.add_zero, Int.add_assoc]
      · rw [Nat.add_assoc, hlast, pow_succ]
        omega
  · have hnext : place + 1 < 2 ^ l.fraction := by omega
    rw [hdiv _ hnext, hmod _ hnext]
    left
    split
    · exact ⟨rfl, fun _ => rfl⟩
    · exact ⟨rfl, fun h => by omega⟩

/-- The gap above a pattern leads to the number of the next one. -/
theorem value_succ (l : Binary) (p : Nat) : l.value (p + 1) = l.value p + l.gap p := by
  unfold value gap
  rcases l.finiteParts_succ p with ⟨h, -⟩ | ⟨h, hlast, -⟩
  · rw [h]
    push_cast
    ring
  · have hlast' : ((l.finiteParts p).1 : ℚ) + 1 = 2 ^ l.fraction * 2 := by
      exact_mod_cast hlast.trans (pow_succ 2 l.fraction)
    rw [h, zpow_add_one₀ two_ne_zero]
    push_cast
    linear_combination -(2 : ℚ) ^ (l.finiteParts p).2 * hlast'

/-- Numbers grow with their patterns. -/
theorem value_strictMono (l : Binary) : StrictMono l.value :=
  strictMono_nat_of_lt_succ fun p => by
    rw [value_succ]
    exact lt_add_of_pos_right _ (l.gap_pos p)

/-- Where the numbers that round to a pattern meet those that round to the next one. -/
def halfway (l : Binary) (p : Nat) : ℚ := l.value p + l.gap p / 2

theorem value_lt_halfway (l : Binary) (p : Nat) : l.value p < l.halfway p :=
  lt_add_of_pos_right _ (half_pos (l.gap_pos p))

/-- Halfway lies strictly between a number and the next one. -/
theorem halfway_lt_value (l : Binary) (p : Nat) : l.halfway p < l.value (p + 1) := by
  rw [value_succ]
  exact add_lt_add_right (half_lt_self (l.gap_pos p)) _

theorem halfway_strictMono (l : Binary) : StrictMono l.halfway :=
  strictMono_nat_of_lt_succ fun p => (l.halfway_lt_value p).trans (l.value_lt_halfway (p + 1))

namespace Rounding

variable {r : Rounding} {x : ℚ}

/-- The number rounds to the pattern. -/
def Includes (r : Rounding) (x : ℚ) : Prop :=
  if r.closed then r.low * 2 ^ r.unit ≤ x ∧ x ≤ r.high * 2 ^ r.unit
  else r.low * 2 ^ r.unit < x ∧ x < r.high * 2 ^ r.unit

theorem Includes.low_le (h : r.Includes x) : r.low * 2 ^ r.unit ≤ x := by
  unfold Includes at h
  split at h
  · exact h.1
  · exact h.1.le

theorem Includes.le_high (h : r.Includes x) : x ≤ r.high * 2 ^ r.unit := by
  unfold Includes at h
  split at h
  · exact h.2
  · exact h.2.le

/-- An end belongs to the pattern only when the pattern is even. -/
theorem Includes.closed (h : r.Includes x) (hx : x = r.low * 2 ^ r.unit ∨ x = r.high * 2 ^ r.unit) :
    r.closed = true := by
  by_contra hopen
  unfold Includes at h
  rw [if_neg hopen] at h
  rcases hx with rfl | rfl
  · exact lt_irrefl _ h.1
  · exact lt_irrefl _ h.2

end Rounding

/-- In units of the rounding, the number in the middle is that of the pattern. -/
theorem rounding_mid (l : Binary) (p : Nat) :
    (l.rounding p).mid * (2 : ℚ) ^ (l.rounding p).unit = l.value p := by
  simp only [rounding, value, zpow_sub₀ (two_ne_zero' ℚ)]
  push_cast
  ring

/-- The upper end is halfway to the next number. -/
theorem rounding_high (l : Binary) (p : Nat) :
    (l.rounding p).high * (2 : ℚ) ^ (l.rounding p).unit = l.halfway p := by
  simp only [rounding, halfway, value, gap, zpow_sub₀ (two_ne_zero' ℚ)]
  push_cast
  ring

/-- Whether the row ends there or not, the numbers of a pattern begin halfway from the one before. -/
theorem rounding_low (l : Binary) (p : Nat) :
    (l.rounding (p + 1)).low * (2 : ℚ) ^ (l.rounding (p + 1)).unit = l.halfway p := by
  simp only [rounding, halfway, value, gap, Nat.pow_eq]
  rcases l.finiteParts_succ p with ⟨h, hleast⟩ | ⟨h, hlast, hleast⟩
  · have hfar : ¬ ((l.finiteParts p).1 + 1 = 2 ^ l.fraction ∧ l.leastExponent < (l.finiteParts p).2) := by
      intro ⟨hfirst, hlt⟩
      exact hlt.ne (hleast hfirst).symm
    rw [h]
    simp only [hfar, if_false, zpow_sub₀ (two_ne_zero' ℚ)]
    have hlow : 4 * ((l.finiteParts p).1 + 1) - 2 = 4 * (l.finiteParts p).1 + 2 := by omega
    rw [hlow]
    push_cast
    ring
  · rw [h]
    have hlow : 4 * 2 ^ l.fraction - 1 = 2 * (l.finiteParts p).1 + 1 := by
      rw [pow_succ] at hlast
      omega
    simp only [true_and, Int.lt_add_one_of_le hleast, if_true, hlow,
      zpow_sub₀ (two_ne_zero' ℚ), zpow_add_one₀ (two_ne_zero' ℚ)]
    push_cast
    ring

/-- The ends themselves round to the pattern exactly when it is even. -/
theorem rounding_closed (hl : 0 < l.fraction) (p : Nat) :
    (l.rounding p).closed = true ↔ p % 2 = 0 := by
  have heven : 2 ∣ 2 ^ l.fraction := dvd_pow_self 2 hl.ne'
  have hplace : p % 2 ^ l.fraction % 2 = p % 2 := Nat.mod_mod_of_dvd p heven
  simp only [rounding, finiteParts, Nat.pow_eq, decide_eq_true_eq]
  split
  · rw [hplace]
  · rw [Nat.add_mod, Nat.mod_eq_zero_of_dvd heven, hplace, Nat.zero_add, Nat.mod_mod]

/-- No number rounds to two patterns: they could only meet halfway, and one of two neighbours is odd. -/
theorem Rounding.Includes.unique (hl : 0 < l.fraction) {x : ℚ} (hp : (l.rounding (p + 1)).Includes x)
    (hq : (l.rounding (q + 1)).Includes x) : p = q := by
  wlog hle : p ≤ q generalizing p q
  · exact (this hq hp (by omega)).symm
  by_contra hne
  have hhigh : x ≤ l.halfway (p + 1) := l.rounding_high (p + 1) ▸ hp.le_high
  have hlow : l.halfway q ≤ x := l.rounding_low q ▸ hq.low_le
  have hbetween : l.halfway (p + 1) ≤ l.halfway q :=
    l.halfway_strictMono.monotone (Nat.succ_le_of_lt (lt_of_le_of_ne hle hne))
  have hnext : p + 1 = q :=
    l.halfway_strictMono.injective (le_antisymm hbetween (hlow.trans hhigh))
  have hx : x = l.halfway (p + 1) := le_antisymm hhigh (hbetween.trans hlow)
  have heven := (rounding_closed hl (p + 1)).mp (hp.closed (.inr (hx.trans (l.rounding_high _).symm)))
  have hodd := (rounding_closed hl (q + 1)).mp
    (hq.closed (.inl (hx.trans (hnext ▸ (l.rounding_low _).symm))))
  omega

end Number.Binary

namespace Number.Binary

namespace Rounding

variable {r : Rounding} {x y z : ℚ} {k : Int} {n : Nat}

/-- The numbers that round to a pattern have none in between that does not. -/
theorem Includes.between (hx : r.Includes x) (hz : r.Includes z) (hxy : x ≤ y) (hyz : y ≤ z) :
    r.Includes y := by
  unfold Includes at hx hz ⊢
  split at hx
  · rename_i hclosed
    rw [if_pos hclosed] at hz ⊢
    exact ⟨hx.1.trans hxy, hyz.trans hz.2⟩
  · rename_i hopen
    rw [if_neg hopen] at hz ⊢
    exact ⟨hx.1.trans_le hxy, hyz.trans_lt hz.2⟩

/-- The unit of the range, in the whole numbers in which it is compared with the multiples of `10 ^ k`. -/
def scale (r : Rounding) (k : Int) : Nat := 2 ^ r.unit.toNat * 10 ^ (-k).toNat

/-- The distance of the multiples of `10 ^ k`, in the same whole numbers. -/
def stride (r : Rounding) (k : Int) : Nat := 10 ^ k.toNat * 2 ^ (-r.unit).toNat

theorem zpow_eq_div (b : Nat) (k : Int) :
    (b : ℚ) ^ k = b ^ k.toNat / b ^ (-k).toNat := by
  rcases Int.le_total 0 k with hk | hk
  · obtain ⟨n, rfl⟩ := Int.eq_ofNat_of_zero_le hk
    simp
  · obtain ⟨n, hn⟩ := Int.eq_ofNat_of_zero_le (Int.neg_nonneg.mpr hk)
    obtain rfl : k = -n := by omega
    simp

/-- What such a whole number is to be divided by. -/
def measure (r : Rounding) (k : Int) : ℚ := 10 ^ (-k).toNat * 2 ^ (-r.unit).toNat

theorem measure_pos (r : Rounding) (k : Int) : 0 < r.measure k := by
  unfold measure
  positivity

theorem scale_div (r : Rounding) (k : Int) (a : Nat) :
    (a * r.scale k : Nat) / r.measure k = a * 2 ^ r.unit := by
  have h := zpow_eq_div 2 r.unit
  push_cast at h
  rw [h, scale, measure]
  push_cast
  field_simp

/-- Steps of the search are multiples of a power of ten, in the measure of the rounding. -/
theorem stride_div (r : Rounding) (k : Int) (a : Nat) :
    (a * r.stride k : Nat) / r.measure k = a * 10 ^ k := by
  have h := zpow_eq_div 10 k
  push_cast at h
  rw [h, stride, measure]
  push_cast
  field_simp

theorem le_multiple_iff (r : Rounding) (k : Int) (a n : Nat) :
    (a : ℚ) * 2 ^ r.unit ≤ n * 10 ^ k ↔ a * r.scale k ≤ n * r.stride k := by
  rw [← scale_div r k, ← stride_div r k, div_le_div_iff_of_pos_right (r.measure_pos k), Nat.cast_le]

theorem multiple_le_iff (r : Rounding) (k : Int) (a n : Nat) :
    (n : ℚ) * 10 ^ k ≤ a * 2 ^ r.unit ↔ n * r.stride k ≤ a * r.scale k := by
  rw [← scale_div r k, ← stride_div r k, div_le_div_iff_of_pos_right (r.measure_pos k), Nat.cast_le]

/-- In whole numbers, a multiple of a power of ten rounds to the pattern when it lies between the scaled ends.
-/
theorem includes_iff (r : Rounding) (k : Int) (n : Nat) :
    r.Includes (n * 10 ^ k) ↔
      if r.closed then r.low * r.scale k ≤ n * r.stride k ∧ n * r.stride k ≤ r.high * r.scale k
      else r.low * r.scale k < n * r.stride k ∧ n * r.stride k < r.high * r.scale k := by
  simp only [Includes, ← not_le, le_multiple_iff, multiple_le_iff]

/-- The largest multiple up to the number of the pattern. -/
def below (r : Rounding) (k : Int) : Nat := r.mid * r.scale k / r.stride k

theorem stride_pos (r : Rounding) (k : Int) : 0 < r.stride k :=
  Nat.mul_pos (Nat.pow_pos (by decide)) (Nat.two_pow_pos _)

/-- Whether a multiple rounds to the pattern, in whole numbers. -/
def inside (r : Rounding) (k : Int) (n : Nat) : Bool :=
  if r.closed then r.low * r.scale k ≤ n * r.stride k && n * r.stride k ≤ r.high * r.scale k
  else r.low * r.scale k < n * r.stride k && n * r.stride k < r.high * r.scale k

/-- The search checks just that. -/
theorem inside_iff (r : Rounding) (k : Int) (n : Nat) :
    r.inside k n = true ↔ r.Includes (n * 10 ^ k) := by
  rw [includes_iff]
  unfold inside
  split <;> simp

/-- The two multiples around the number of the pattern are tried. -/
theorem multiple?_cases (r : Rounding) (k : Int) :
    (∃ n : Nat, r.multiple? k = some n ∧ r.Includes (n * 10 ^ k)) ∨
      (r.multiple? k = none ∧ ¬ r.Includes (r.below k * 10 ^ k) ∧
        ¬ r.Includes ((r.below k + 1 : Nat) * 10 ^ k)) := by
  simp only [← inside_iff]
  unfold multiple?
  dsimp only
  split
  · rename_i hbelow habove
    split
    · exact .inl ⟨_, rfl, hbelow⟩
    · exact .inl ⟨_, rfl, habove⟩
  · rename_i hbelow habove
    exact .inl ⟨_, rfl, hbelow⟩
  · rename_i hbelow habove
    exact .inl ⟨_, rfl, habove⟩
  · rename_i hbelow habove
    exact .inr ⟨rfl, Bool.eq_false_iff.mp hbelow, Bool.eq_false_iff.mp habove⟩

/-- When neither of them will do, no multiple does. -/
theorem not_includes_of_multiple? (hmid : r.Includes (r.mid * 2 ^ r.unit)) {k : Int}
    (h : r.multiple? k = none) (n : Nat) : ¬ r.Includes (n * 10 ^ k) := by
  obtain ⟨_, hsome, -⟩ | ⟨-, hbelow, habove⟩ := r.multiple?_cases k
  · simp [h] at hsome
  intro hn
  have hpow : (0 : ℚ) < 10 ^ k := by positivity
  have hmul {a b : Nat} (hab : a ≤ b) : (a : ℚ) * 10 ^ k ≤ b * 10 ^ k :=
    mul_le_mul_of_nonneg_right (Nat.cast_le.mpr hab) hpow.le
  by_cases hle : n ≤ r.below k
  · have hfloor : (r.below k : ℚ) * 10 ^ k ≤ r.mid * 2 ^ r.unit :=
      (multiple_le_iff r k _ _).mpr (Nat.div_mul_le_self _ _)
    exact hbelow (hn.between hmid (hmul hle) hfloor)
  · have hceil : r.mid * 2 ^ r.unit ≤ ((r.below k + 1 : Nat) : ℚ) * 10 ^ k := by
      rw [le_multiple_iff, Nat.mul_comm (r.below k + 1)]
      exact (Nat.lt_mul_div_succ _ (r.stride_pos k)).le
    exact habove (hmid.between hn hceil (hmul (Nat.lt_of_not_le hle)))

/-- The search ends at the first power of ten with a multiple, if there is one among those that are tried. -/
theorem search_eq (r : Rounding) (k : Int) (tries : Nat) {j : Int} (hj : j ≤ k) (htries : k < j + tries)
    (hsome : (r.multiple? j).isSome) :
    ∃ n i, r.search k tries = (n, i) ∧ r.multiple? i = some n ∧ i ≤ k ∧
      (i < k → r.multiple? (i + 1) = none) := by
  induction tries generalizing k with
  | zero => omega
  | succ tries ih =>
    unfold search
    cases hk : r.multiple? k with
    | some n => exact ⟨n, k, rfl, hk, le_refl k, fun hlt => (lt_irrefl k hlt).elim⟩
    | none =>
      have hne : j ≠ k := by
        rintro rfl
        simp [hk] at hsome
      obtain ⟨n, i, hsearch, hi, hle, hnone⟩ := ih (k - 1) (by omega) (by omega)
      refine ⟨n, i, hsearch, hi, by omega, fun _ => ?_⟩
      by_cases hlast : i + 1 = k
      · rw [hlast, hk]
      · exact hnone (by omega)

/-- The number of the pattern is a multiple of a power of ten. -/
theorem exists_multiple (r : Rounding) :
    ∃ n : Nat, (n : ℚ) * 10 ^ (-((-r.unit).toNat : Int)) = r.mid * 2 ^ r.unit := by
  refine ⟨r.mid * 2 ^ r.unit.toNat * 5 ^ (-r.unit).toNat, ?_⟩
  have h := zpow_eq_div 2 r.unit
  have hten : (10 : ℚ) = 2 * 5 := by norm_num
  push_cast at h ⊢
  rw [h, zpow_neg, zpow_natCast, hten, mul_pow]
  field_simp

end Rounding

/-- The number of a pattern rounds to it. -/
theorem includes_value (l : Binary) (p : Nat) : (l.rounding (p + 1)).Includes (l.value (p + 1)) := by
  unfold Rounding.Includes
  rw [rounding_low, rounding_high]
  have hlow := l.halfway_lt_value p
  have hhigh := l.value_lt_halfway (p + 1)
  split
  · exact ⟨hlow.le, hhigh.le⟩
  · exact ⟨hlow, hhigh⟩

/-- The shortest decimal rounds to the pattern, and it has no zero at its end behind the point. -/
theorem shortest_eq (l : Binary) (p : Nat) :
    ∃ n k, l.shortest (p + 1) = (n, k) ∧ (l.rounding (p + 1)).Includes (n * 10 ^ k) ∧
      (k < 0 → n % 10 ≠ 0) := by
  have hmid : (l.rounding (p + 1)).Includes
      ((l.rounding (p + 1)).mid * 2 ^ (l.rounding (p + 1)).unit) := by
    rw [rounding_mid]
    exact l.includes_value p
  unfold shortest
  generalize l.rounding (p + 1) = r at hmid
  obtain ⟨m, hm⟩ := r.exists_multiple
  have hsome : (r.multiple? (-((-r.unit).toNat : Int))).isSome := by
    rw [Option.isSome_iff_ne_none]
    intro hnone
    exact Rounding.not_includes_of_multiple? hmid hnone m (hm ▸ hmid)
  have hstart : 0 < (Nat.toDigits 10
      (2 * r.mid * Nat.pow 2 r.unit.toNat / Nat.pow 2 (-r.unit).toNat)).length :=
    Nat.length_toDigits_pos
  dsimp only
  generalize (Nat.toDigits 10
      (2 * r.mid * Nat.pow 2 r.unit.toNat / Nat.pow 2 (-r.unit).toNat)).length = start at hstart
  obtain ⟨n, k, hsearch, hk, -, hcoarser⟩ :=
    r.search_eq start (start + (-r.unit).toNat + 1) (by omega) (by omega) hsome
  have hn : r.Includes (n * 10 ^ k) := by
    obtain ⟨n', hn', hincludes⟩ | ⟨hnone, -⟩ := r.multiple?_cases k
    · obtain rfl := Option.some.inj (hk.symm.trans hn')
      exact hincludes
    · simp [hk] at hnone
  refine ⟨n, k, hsearch, hn, fun hneg hzero => ?_⟩
  -- without the zero it would have been found before
  obtain ⟨n', rfl⟩ := Nat.dvd_of_mod_eq_zero hzero
  apply Rounding.not_includes_of_multiple? hmid (hcoarser (by omega)) n'
  rw [zpow_add_one₀ (by norm_num)]
  convert hn using 1
  push_cast
  ring

end Number.Binary

end ResourceCode
