import ResourceCode.Proofs.Number.Shortest

/-!
The text of a binary number tells the bit pattern. It is a decimal with digits before the point and perhaps behind it,
the last of them not a zero, and such a decimal is a number that rounds to the pattern.
-/

namespace ResourceCode.Number

/-- The digits before the point and behind it; without any behind it there is no point. -/
structure Decimal where
  negative : Bool
  whole : List Char
  fraction : List Char

namespace Decimal

def sign (d : Decimal) : List Char := if d.negative then ['-'] else []

def tail (d : Decimal) : List Char := if d.fraction = [] then [] else '.' :: d.fraction

def chars (d : Decimal) : List Char := d.sign ++ d.whole ++ d.tail

/-- The decimal as a number, without its sign. -/
def magnitude (d : Decimal) : ℚ :=
  (Nat.ofDigitChars 10 (d.whole ++ d.fraction) 0 : Nat) / 10 ^ d.fraction.length

structure IsProper (d : Decimal) : Prop where
  nonempty : d.whole ≠ []
  whole : ∀ c ∈ d.whole, c.isDigit = true
  fraction : ∀ c ∈ d.fraction, c.isDigit = true

/-- The decimal `n * 10 ^ k`. -/
def ofScaled (negative : Bool) (n : Nat) (k : Int) : Decimal :=
  let digits := Nat.toDigits 10 n
  if 0 ≤ k then ⟨negative, digits ++ List.replicate k.toNat '0', []⟩
  else
    let places := (-k).toNat
    if digits.length ≤ places then
      ⟨negative, ['0'], List.replicate (places - digits.length) '0' ++ digits⟩
    else ⟨negative, digits.take (digits.length - places), digits.drop (digits.length - places)⟩

variable {negative : Bool} {n : Nat} {k : Int}

@[simp] theorem negative_ofScaled : (ofScaled negative n k).negative = negative := by
  unfold ofScaled
  dsimp only
  split
  · rfl
  · split <;> rfl

theorem isProper_ofScaled : (ofScaled negative n k).IsProper := by
  have hdigits : ∀ c ∈ Nat.toDigits 10 n, c.isDigit = true :=
    fun c hc => Nat.isDigit_of_mem_toDigits (by decide) (by decide) hc
  have hzeros (i : Nat) : ∀ c ∈ List.replicate i '0', c.isDigit = true := by
    intro c hc
    rw [List.eq_of_mem_replicate hc]
    rfl
  unfold ofScaled
  dsimp only
  split
  · refine ⟨by simp [Nat.toDigits_ne_nil], ?_, nofun⟩
    intro c hc
    exact (List.mem_append.mp hc).elim (hdigits c) (hzeros _ c)
  · split
    · refine ⟨nofun, by simp, ?_⟩
      intro c hc
      exact (List.mem_append.mp hc).elim (hzeros _ c) (hdigits c)
    · rename_i hlong
      refine ⟨?_, fun c hc => hdigits c (List.mem_of_mem_take hc),
        fun c hc => hdigits c (List.mem_of_mem_drop hc)⟩
      intro hnil
      have hlength := congrArg List.length hnil
      rw [List.length_take, List.length_nil] at hlength
      omega

/-- The characters of a scaled number are its sign and its positional text. -/
theorem chars_ofScaled :
    (ofScaled negative n k).chars = (if negative then ['-'] else []) ++ positional n k := by
  have hdigits : Nat.toDigits 10 n ≠ [] := Nat.toDigits_ne_nil
  unfold ofScaled positional
  dsimp only
  split
  · simp [chars, sign, tail]
  · split
    · simp [chars, sign, tail, hdigits]
    · rename_i hneg hlong
      have hdrop : (Nat.toDigits 10 n).drop ((Nat.toDigits 10 n).length - (-k).toNat) ≠ [] := by
        intro hnil
        rw [List.drop_eq_nil_iff] at hnil
        omega
      simp [chars, sign, tail, hdrop]

/-- A scaled number has the size that its digits and its power of ten give. -/
theorem magnitude_ofScaled : (ofScaled negative n k).magnitude = n * 10 ^ k := by
  have hn : Nat.ofDigitChars 10 (Nat.toDigits 10 n) 0 = n := Nat.ofDigitChars_ten_toDigits
  unfold ofScaled
  dsimp only
  split
  · rename_i hk
    obtain ⟨i, rfl⟩ := Int.eq_ofNat_of_zero_le hk
    have hvalue : Nat.ofDigitChars 10 (Nat.toDigits 10 n ++ List.replicate i '0') 0 = 10 ^ i * n := by
      rw [Nat.ofDigitChars_append, hn, Nat.ofDigitChars_replicate_zero]
    simp [magnitude, hvalue, mul_comm]
  · rename_i hk
    obtain ⟨i, rfl⟩ : ∃ i : Nat, k = -i := ⟨(-k).toNat, by omega⟩
    simp only [neg_neg, Int.toNat_natCast]
    split
    · rename_i hshort
      have hvalue : Nat.ofDigitChars 10
          ('0' :: (List.replicate (i - (Nat.toDigits 10 n).length) '0' ++ Nat.toDigits 10 n)) 0 = n := by
        simp [Nat.ofDigitChars_cons, Nat.ofDigitChars_append, Nat.ofDigitChars_replicate_zero, hn]
      simp [magnitude, hvalue, hshort, div_eq_mul_inv]
    · rename_i hlong
      have hlength : (Nat.toDigits 10 n).length - ((Nat.toDigits 10 n).length - i) = i := by omega
      simp [magnitude, hn, hlength, div_eq_mul_inv]

/-- The last digit is the remainder by ten. -/
theorem getLast?_toDigits (n : Nat) : (Nat.toDigits 10 n).getLast? = some (n % 10).digitChar := by
  rw [Nat.toDigits_eq_if (by decide)]
  split
  · rename_i hlt
    simp [Nat.mod_eq_of_lt hlt]
  · simp

/-- The digits behind the point do not end in zero when the scaled number does not. -/
theorem getLast?_fraction_ofScaled (h : k < 0 → n % 10 ≠ 0) :
    (ofScaled negative n k).fraction.getLast? ≠ some '0' := by
  have hdigits : k < 0 → (Nat.toDigits 10 n).getLast? ≠ some '0' := by
    intro hk hlast
    rw [getLast?_toDigits, Option.some_inj, Nat.digitChar_eq_zero] at hlast
    exact h hk hlast
  unfold ofScaled
  dsimp only
  split
  · simp
  · rename_i hk
    split
    · rw [List.getLast?_append_of_ne_nil _ Nat.toDigits_ne_nil]
      exact hdigits (by omega)
    · rename_i hlong
      rw [List.getLast?_drop, if_neg (by omega)]
      exact hdigits (by omega)

end Decimal

namespace Binary

variable {l : Binary} {a b : Nat}

/-- The decimal that the text of a finite pattern spells. -/
def decimal (l : Binary) (bits : Nat) : Decimal :=
  let (n, k) := if l.magnitude bits = 0 then (0, 0) else l.shortest (l.magnitude bits)
  .ofScaled (l.isNegative bits) n k

/-- The text of a finite number is that of its shortest decimal. -/
theorem toList_finiteText (l : Binary) (bits : Nat) :
    (l.finiteText bits).toList = (l.decimal bits).chars := by
  unfold finiteText decimal
  dsimp only
  rw [Decimal.chars_ofScaled, String.toList_ofList]
  by_cases hzero : l.magnitude bits = 0
  · rw [if_pos hzero, if_pos hzero]
    cases l.isNegative bits <;> rfl
  · rw [if_neg hzero, if_neg hzero]
    cases l.isNegative bits <;> rfl

theorem isProper_decimal (l : Binary) (bits : Nat) : (l.decimal bits).IsProper :=
  Decimal.isProper_ofScaled

theorem decimal_of_zero (h : l.magnitude a = 0) :
    l.decimal a = .ofScaled (l.isNegative a) 0 0 := by
  simp [decimal, h]

/-- Other patterns have a decimal that rounds back to them and has no needless digit. -/
theorem decimal_of_succ {p : Nat} (h : l.magnitude a = p + 1) :
    ∃ (n : Nat) (k : Int), l.decimal a = .ofScaled (l.isNegative a) n k ∧
      (l.rounding (p + 1)).Includes (n * 10 ^ k) ∧ (k < 0 → n % 10 ≠ 0) := by
  obtain ⟨n, k, hshortest, hincludes, hlast⟩ := l.shortest_eq p
  refine ⟨n, k, ?_, hincludes, hlast⟩
  rw [decimal, h, if_neg p.succ_ne_zero, hshortest]

theorem negative_decimal (l : Binary) (bits : Nat) :
    (l.decimal bits).negative = l.isNegative bits := Decimal.negative_ofScaled

/-- No shortest decimal ends in a zero behind the point. -/
theorem getLast?_fraction_decimal (l : Binary) (bits : Nat) :
    (l.decimal bits).fraction.getLast? ≠ some '0' := by
  cases hp : l.magnitude bits with
  | zero =>
    rw [decimal_of_zero hp]
    exact Decimal.getLast?_fraction_ofScaled nofun
  | succ p =>
    obtain ⟨n, k, hdecimal, -, hlast⟩ := decimal_of_succ hp
    rw [hdecimal]
    exact Decimal.getLast?_fraction_ofScaled hlast

theorem magnitude_decimal_of_zero (h : l.magnitude a = 0) : (l.decimal a).magnitude = 0 := by
  rw [decimal_of_zero h, Decimal.magnitude_ofScaled]
  simp

/-- The shortest decimal rounds back to its pattern. -/
theorem includes_decimal {p : Nat} (h : l.magnitude a = p + 1) :
    (l.rounding (p + 1)).Includes (l.decimal a).magnitude := by
  obtain ⟨n, k, hdecimal, hincludes, -⟩ := decimal_of_succ h
  rw [hdecimal, Decimal.magnitude_ofScaled]
  exact hincludes

/-- What rounds to a pattern other than that of zero is positive. -/
theorem Rounding.Includes.pos {p : Nat} {x : ℚ} (h : (l.rounding (p + 1)).Includes x) : 0 < x := by
  have hlow : l.halfway p ≤ x := l.rounding_low p ▸ h.low_le
  have hzero : 0 ≤ l.value p := l.value_zero ▸ l.value_strictMono.monotone p.zero_le
  exact (hzero.trans_lt (l.value_lt_halfway p)).trans_le hlow

/-- The number that the decimal spells rounds to one pattern only. -/
theorem magnitude_eq_of_decimal (hl : 0 < l.fraction)
    (h : (l.decimal a).magnitude = (l.decimal b).magnitude) : l.magnitude a = l.magnitude b := by
  cases ha : l.magnitude a with
  | zero =>
    rw [magnitude_decimal_of_zero ha] at h
    cases hb : l.magnitude b with
    | zero => rfl
    | succ q => exact ((includes_decimal hb).pos.ne h).elim
  | succ p =>
    have hp := includes_decimal ha
    cases hb : l.magnitude b with
    | zero =>
      rw [magnitude_decimal_of_zero hb] at h
      exact (hp.pos.ne h.symm).elim
    | succ q =>
      rw [h] at hp
      rw [hp.unique hl (includes_decimal hb)]

/-- Different patterns are written as different decimals. -/
theorem decimal_injective (hl : 0 < l.fraction) (ha : a < 2 * l.signBit) (hb : b < 2 * l.signBit)
    (h : l.decimal a = l.decimal b) : a = b := by
  have hsign : l.isNegative a = l.isNegative b := by
    rw [← negative_decimal, h, negative_decimal]
  have hmagnitude := magnitude_eq_of_decimal hl (congrArg Decimal.magnitude h)
  rw [eq_sign_add_magnitude ha, eq_sign_add_magnitude hb, hsign, hmagnitude]

end Binary

namespace Single

def decimal (x : Single) : Decimal := Binary.single.decimal x.bits.toNat

/-- Two patterns of four bytes never have the same shortest decimal, since it rounds back to each of them. -/
theorem decimal_injective : Function.Injective decimal := by
  intro x y h
  have hbits := Binary.decimal_injective (by decide) x.bits.toNat_lt y.bits.toNat_lt h
  cases x
  cases y
  exact congrArg Single.mk (UInt32.toNat_inj.mp hbits)

theorem toList_text {x : Single} {negative : Bool} {m : Nat} {e : Int}
    (h : x.datum = .finite negative m e) : x.text.toList = x.decimal.chars := by
  rw [text, Binary.text, show Binary.single.datum x.bits.toNat = _ from h]
  exact Binary.toList_finiteText _ _

end Single

namespace Double

def decimal (x : Double) : Decimal := Binary.double.decimal x.bits.toNat

/-- The same for eight bytes. -/
theorem decimal_injective : Function.Injective decimal := by
  intro x y h
  have hbits := Binary.decimal_injective (by decide) x.bits.toNat_lt y.bits.toNat_lt h
  cases x
  cases y
  exact congrArg Double.mk (UInt64.toNat_inj.mp hbits)

theorem toList_text {x : Double} {negative : Bool} {m : Nat} {e : Int}
    (h : x.datum = .finite negative m e) : x.text.toList = x.decimal.chars := by
  rw [text, Binary.text, show Binary.double.datum x.bits.toNat = _ from h]
  exact Binary.toList_finiteText _ _

end Double

end ResourceCode.Number
