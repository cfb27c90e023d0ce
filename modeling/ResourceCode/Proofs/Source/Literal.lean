import ResourceCode.Proofs.Source.Lexeme

/-!
Literals in source text, except for those that are written as names: quoted text can be read back character by
character, and a number shows its type by its cast, its suffix or its fraction.
-/

namespace ResourceCode.Source

open Number (Single Double Decimal Datum)

/-- The value of a hexadecimal digit. -/
def hexValue (c : Char) : Nat := if c.toNat < 58 then c.toNat - 48 else c.toNat - 55

/-- Reads one character, escaped or not. -/
def unescape : List Char → Option (Char × List Char)
  | '\\' :: 'u' :: i :: j :: k :: l :: rest =>
    some (Char.ofNat (((hexValue i * 16 + hexValue j) * 16 + hexValue k) * 16 + hexValue l), rest)
  | '\\' :: 'n' :: rest => some ('\n', rest)
  | '\\' :: 'r' :: rest => some ('\r', rest)
  | '\\' :: 't' :: rest => some ('\t', rest)
  | '\\' :: '0' :: rest => some (Char.ofNat 0, rest)
  | '\\' :: c :: rest => some (c, rest)
  | c :: rest => some (c, rest)
  | [] => none

theorem hexValue_hexDigit (n : Nat) : hexValue (hexDigit (n % 16)) = n % 16 := by
  have h : ∀ i : Fin 16, hexValue (hexDigit i) = i := by decide
  exact h ⟨n % 16, Nat.mod_lt n (by decide)⟩

/-- The characters that are escaped by their numbers have four digits. -/
theorem toNat_lt_of_isUnprintable {c : Char} (h : isUnprintable c = true) : c.toNat < 65536 := by
  simp only [isUnprintable, Bool.or_eq_true, Bool.and_eq_true, decide_eq_true_eq] at h
  omega

def IsQuote (quote : Char) : Prop := quote = '"' ∨ quote = '\''

/-- An escaped character can be read back, and then nothing of it is left. -/
theorem unescape_escape {quote : Char} (hq : IsQuote quote) (c : Char) (rest : List Char) :
    unescape (escape quote c ++ rest) = some (c, rest) := by
  unfold escape
  split_ifs with hbackslash hn hr ht hzero hquote hunprintable
  · subst hbackslash
    rfl
  · subst hn
    rfl
  · subst hr
    rfl
  · subst ht
    rfl
  · subst hzero
    rfl
  · rcases hq with rfl | rfl <;> subst hquote <;> rfl
  · have hlt := toNat_lt_of_isUnprintable hunprintable
    have hnumber : ((c.toNat / 16 / 16 / 16 % 16 * 16 + c.toNat / 16 / 16 % 16) * 16
        + c.toNat / 16 % 16) * 16 + c.toNat % 16 = c.toNat := by omega
    simp only [hexDigits, List.nil_append, List.cons_append, unescape, hexValue_hexDigit, hnumber,
      Char.ofNat_toNat]
  · rw [List.singleton_append]
    unfold unescape
    split <;> simp_all

/-- An escaped character is never taken for the quote that ends the text. -/
theorem escape_ne_quote {quote : Char} (hq : IsQuote quote) (c : Char) (r s : List Char) :
    escape quote c ++ r ≠ quote :: s := by
  have hbackslash : quote ≠ '\\' := by rcases hq with rfl | rfl <;> decide
  have hhead {d : Char} (hd : quote ≠ d) (cs : List Char) : d :: cs ≠ quote :: s :=
    fun heq => hd (List.cons.inj heq).1.symm
  unfold escape
  split_ifs with _ _ _ _ _ hquote
  all_goals first | exact hhead hbackslash _ | exact hhead (Ne.symm hquote) _

theorem flatMap_escape_append_inj {quote : Char} (hq : IsQuote quote) {cs ds r s : List Char}
    (h : cs.flatMap (escape quote) ++ quote :: r = ds.flatMap (escape quote) ++ quote :: s) :
    cs = ds ∧ r = s := by
  induction cs generalizing ds with
  | nil =>
    cases ds with
    | nil => exact ⟨rfl, (List.cons.inj h).2⟩
    | cons d ds =>
      rw [List.flatMap_cons, List.append_assoc] at h
      exact (escape_ne_quote hq d _ _ h.symm).elim
  | cons c cs ih =>
    rw [List.flatMap_cons, List.append_assoc] at h
    cases ds with
    | nil => exact (escape_ne_quote hq c _ _ h).elim
    | cons d ds =>
      rw [List.flatMap_cons, List.append_assoc] at h
      have hread := congrArg unescape h
      rw [unescape_escape hq, unescape_escape hq] at hread
      obtain ⟨rfl, htail⟩ := Prod.mk.inj (Option.some.inj hread)
      obtain ⟨rfl, hrest⟩ := ih htail
      exact ⟨rfl, hrest⟩

theorem toList_quoted (quote : Char) (cs : List Char) :
    (quoted quote cs).toList = quote :: (cs.flatMap (escape quote) ++ [quote]) :=
  String.toList_ofList

/-- Quoted texts with text behind them are the same when the whole texts are. -/
theorem quoted_append_inj {quote : Char} (hq : IsQuote quote) {cs ds r s : List Char}
    (h : (quoted quote cs).toList ++ r = (quoted quote ds).toList ++ s) : cs = ds ∧ r = s := by
  simp only [toList_quoted, List.cons_append, List.append_assoc, List.nil_append] at h
  exact flatMap_escape_append_inj hq (List.cons.inj h).2

/-- A whole number as a decimal. -/
def wholeDecimal (i : Int) : Decimal := ⟨decide (i < 0), Nat.toDigits 10 i.natAbs, []⟩

theorem toList_toString_nat (n : Nat) : (toString n).toList = (wholeDecimal n).chars := by
  simp [wholeDecimal, Decimal.chars, Decimal.sign, Decimal.tail]

theorem toList_toString_int (i : Int) : (toString i).toList = (wholeDecimal i).chars := by
  cases i with
  | ofNat n => exact toList_toString_nat n
  | negSucc n =>
    have htext : toString (Int.negSucc n) = "-" ++ toString (n + 1) := rfl
    rw [htext, String.toList_append, Nat.toString_eq_ofList_toDigits, String.toList_ofList]
    simp [wholeDecimal, Decimal.chars, Decimal.sign, Decimal.tail, Int.negSucc_lt_zero]

theorem isProper_wholeDecimal (i : Int) : (wholeDecimal i).IsProper :=
  ⟨Nat.toDigits_ne_nil, fun c hc => Nat.isDigit_of_mem_toDigits (by decide) (by decide) hc, nofun⟩

theorem wholeDecimal_injective : Function.Injective wholeDecimal := by
  intro i j h
  have hsign : decide (i < 0) = decide (j < 0) := congrArg Decimal.negative h
  have hdigits : Nat.toDigits 10 i.natAbs = Nat.toDigits 10 j.natAbs := congrArg Decimal.whole h
  have habs := congrArg (fun ds => Nat.ofDigitChars 10 ds 0) hdigits
  simp only [Nat.ofDigitChars_ten_toDigits, decide_eq_decide] at habs hsign
  omega

/-- With a fraction, a zero if there is none. -/
def fractional (d : Decimal) : Decimal := if d.fraction = [] then { d with fraction := ['0'] } else d

/-- A decimal is written with a point exactly when it has a fraction. -/
theorem contains_point_iff {d : Decimal} (hd : d.IsProper) :
    d.chars.contains '.' = true ↔ d.fraction ≠ [] := by
  have hwhole : '.' ∉ d.whole := by
    intro hmem
    cases hd.whole _ hmem
  have hsign : '.' ∉ d.sign := by
    unfold Decimal.sign
    split <;> simp
  unfold Decimal.chars Decimal.tail
  split <;> simp_all

/-- A real number is given a fraction when it has none. -/
theorem toList_withFraction {s : String} {d : Decimal} (hd : d.IsProper) (hs : s.toList = d.chars) :
    (withFraction s).toList = (fractional d).chars := by
  unfold withFraction fractional
  rw [hs, if_congr (contains_point_iff hd) rfl rfl]
  by_cases hfraction : d.fraction = []
  · simp [hs, hfraction, Decimal.chars, Decimal.sign, Decimal.tail]
  · simp [hs, hfraction]

theorem isProper_fractional {d : Decimal} (hd : d.IsProper) : (fractional d).IsProper := by
  unfold fractional
  split
  · exact ⟨hd.nonempty, hd.whole, by simp⟩
  · exact hd

/-- The zero that is added is told from a fraction by the zeros that no fraction ends with. -/
theorem fractional_inj {d e : Decimal} (hd : d.fraction.getLast? ≠ some '0')
    (he : e.fraction.getLast? ≠ some '0') (h : fractional d = fractional e) : d = e := by
  have hzero {d e : Decimal} (he : e.fraction.getLast? ≠ some '0') : { d with fraction := ['0'] } ≠ e := by
    rintro rfl
    exact he rfl
  unfold fractional at h
  by_cases hfd : d.fraction = []
  · by_cases hfe : e.fraction = []
    · cases d
      cases e
      simp_all
    · rw [if_pos hfd, if_neg hfe] at h
      exact (hzero he h).elim
  · by_cases hfe : e.fraction = []
    · rw [if_neg hfd, if_pos hfe] at h
      exact (hzero hd h.symm).elim
    · rwa [if_neg hfd, if_neg hfe] at h

/-- The cast and the suffix of an integral type. -/
def affixes : Primitive → Option Primitive × List Char
  | .byte => (some .byte, [])
  | .sbyte => (some .sbyte, [])
  | .int16 => (some .int16, [])
  | .uint16 => (some .uint16, [])
  | .uint32 => (none, ['U'])
  | .int64 => (none, ['L'])
  | .uint64 => (none, ['U', 'L'])
  | _ => (none, [])

/-- The literal of an integral type for a number. -/
def ofInteger : Primitive → Int → Literal
  | .byte, i => .byte (.ofNat i.toNat)
  | .sbyte, i => .sbyte (.ofInt i)
  | .int16, i => .int16 (.ofInt i)
  | .uint16, i => .uint16 (.ofNat i.toNat)
  | .int32, i => .int32 (.ofInt i)
  | .uint32, i => .uint32 (.ofNat i.toNat)
  | .int64, i => .int64 (.ofInt i)
  | .uint64, i => .uint64 (.ofNat i.toNat)
  | _, _ => .null

/-- How a number is written, unless it is written as a name. -/
inductive Spells : Literal → Numeral → Prop
  | integer {l p i} : l.primitive? = some p → l.integer? = some i →
      Spells l { cast := (affixes p).1, decimal := wholeDecimal i, suffix := (affixes p).2 }
  | single {v negative m e} : v.datum = .finite negative m e →
      Spells (.single v) { decimal := v.decimal, suffix := ['F'] }
  | double {v negative m e} : v.datum = .finite negative m e →
      Spells (.double v) { decimal := fractional v.decimal }

variable {l l' : Literal} {n : Numeral}

/-- An integer and its type determine the literal. -/
theorem ofInteger_eq {p : Primitive} {i : Int} (hp : l.primitive? = some p)
    (hi : l.integer? = some i) : ofInteger p i = l := by
  cases l <;> cases hp <;> cases hi <;> simp [ofInteger]

theorem Spells.toList_literal (h : Spells l n) : (literal l).toList = n.chars := by
  cases h with
  | @integer l p i hp hi =>
    have hnat (n : Nat) : (n : Int).repr.toList = Nat.toDigits 10 n := by
      change (toString n).toList = _
      simp
    cases l <;> cases hp <;> cases hi <;>
      simp [literal, affixes, Numeral.chars, Numeral.castChars, primitive, ← toList_toString_int, hnat]
  | single hdatum =>
    simp [literal, special?, hdatum, Single.toList_text hdatum, Numeral.chars, Numeral.castChars]
  | @double v _ _ _ hdatum =>
    have hproper : v.decimal.IsProper := Number.Binary.isProper_decimal _ _
    simp [literal, special?, hdatum, toList_withFraction hproper (Double.toList_text hdatum),
      Numeral.chars, Numeral.castChars]

theorem Spells.isProper (h : Spells l n) : n.IsProper := by
  cases h with
  | @integer l p i =>
    refine ⟨isProper_wholeDecimal i, ?_⟩
    cases p <;> simp [affixes]
  | single => exact ⟨Number.Binary.isProper_decimal _ _, by simp⟩
  | double => exact ⟨isProper_fractional (Number.Binary.isProper_decimal _ _), by simp⟩

/-- The integral type with a cast and a suffix. -/
def ofAffixes : Option Primitive × List Char → Primitive
  | (some p, _) => p
  | (none, ['U']) => .uint32
  | (none, ['L']) => .int64
  | (none, ['U', 'L']) => .uint64
  | (none, _) => .int32

theorem ofAffixes_affixes {p : Primitive} (hp : p.isIntegral = true) : ofAffixes (affixes p) = p := by
  cases p <;> first | rfl | cases hp

theorem isIntegral_of_integer? {p : Primitive} {i : Int} (hp : l.primitive? = some p)
    (hi : l.integer? = some i) : p.isIntegral = true := by
  cases l <;> cases hp <;> first | rfl | cases hi

theorem fraction_fractional (d : Decimal) : (fractional d).fraction ≠ [] := by
  unfold fractional
  split
  · simp
  · assumption

/-- A number shows its type, and with it its value. -/
theorem Spells.unique (h : Spells l n) (h' : Spells l' n) : l = l' := by
  have haffixes (p : Primitive) : (affixes p).2 ≠ ['F'] := by cases p <;> simp [affixes]
  have hfraction (i : Int) (d : Decimal) : wholeDecimal i ≠ fractional d := by
    intro heq
    exact fraction_fractional d (heq ▸ rfl)
  generalize hn : n = n' at h'
  cases h with
  | @integer l p i hp hi =>
    cases h' with
    | @integer l' p' i' hp' hi' =>
      obtain ⟨hcast, hdecimal, hsuffix⟩ := Numeral.mk.inj hn
      have hsame : affixes p = affixes p' := Prod.ext hcast hsuffix
      have htypes := congrArg ofAffixes hsame
      rw [ofAffixes_affixes (isIntegral_of_integer? hp hi),
        ofAffixes_affixes (isIntegral_of_integer? hp' hi')] at htypes
      rw [← ofInteger_eq hp hi, ← ofInteger_eq hp' hi', htypes, wholeDecimal_injective hdecimal]
    | single => exact (haffixes p (Numeral.mk.inj hn).2.2).elim
    | double => exact (hfraction i _ (Numeral.mk.inj hn).2.1).elim
  | single hdatum =>
    cases h' with
    | @integer l' p' i' hp' hi' => exact (haffixes p' (Numeral.mk.inj hn).2.2.symm).elim
    | single => exact congrArg Literal.single (Single.decimal_injective (Numeral.mk.inj hn).2.1)
    | double => cases (Numeral.mk.inj hn).2.2
  | double hdatum =>
    cases h' with
    | @integer l' p' i' hp' hi' => exact (hfraction i' _ (Numeral.mk.inj hn).2.1.symm).elim
    | single => cases (Numeral.mk.inj hn).2.2
    | double =>
      have hdecimal := fractional_inj (Number.Binary.getLast?_fraction_decimal _ _)
        (Number.Binary.getLast?_fraction_decimal _ _) (Numeral.mk.inj hn).2.1
      exact congrArg Literal.double (Double.decimal_injective hdecimal)

/-- A literal that is not written as a name. -/
inductive IsSpelled : Literal → Prop
  | number {l : Literal} {n : Numeral} : Spells l n → IsSpelled l
  | char (c : Char) : IsSpelled (.char c)
  | string (s : String) : IsSpelled (.string s)

/-- What a number begins with. -/
def isNumberStart (c : Char) : Bool := c == '(' || c == '-' || c.isDigit

theorem Numeral.exists_cons {n : Numeral} (hn : n.IsProper) :
    ∃ c rest, n.chars = c :: rest ∧ isNumberStart c = true := by
  obtain ⟨d, ds, hwhole⟩ := List.exists_cons_of_ne_nil hn.decimal.nonempty
  have hdigit := hn.decimal.whole d (hwhole ▸ List.mem_cons_self)
  unfold chars castChars
  split
  · exact ⟨_, _, rfl, rfl⟩
  · unfold Decimal.chars Decimal.sign
    rw [hwhole]
    split
    · exact ⟨_, _, rfl, rfl⟩
    · exact ⟨_, _, rfl, by simp [isNumberStart, hdigit]⟩

/-- A numeral never begins like a quoted text. -/
theorem number_ne_quoted {n : Numeral} (hn : n.IsProper) {quote : Char} (hq : IsQuote quote)
    {cs r s : List Char} : n.chars ++ r ≠ (quoted quote cs).toList ++ s := by
  obtain ⟨c, rest, hchars, hstart⟩ := Numeral.exists_cons hn
  rw [hchars, toList_quoted]
  rintro heq
  obtain rfl : c = quote := (List.cons.inj heq).1
  rcases hq with rfl | rfl <;> cases hstart

/-- Literals with text behind them are the same when the whole texts are. -/
theorem literal_append_inj (hl : IsSpelled l) (hl' : IsSpelled l') {r s : List Char}
    (hr : Follows isWordChar r) (hs : Follows isWordChar s)
    (h : (literal l).toList ++ r = (literal l').toList ++ s) : l = l' ∧ r = s := by
  have hsingle : IsQuote '\'' := .inr rfl
  have hdouble : IsQuote '"' := .inl rfl
  -- the two kinds of quoted text begin with different quotes
  have hmixed {c : Char} {t : String} {r s : List Char} :
      (literal (.char c)).toList ++ r ≠ (literal (.string t)).toList ++ s := by
    simp [literal, toList_quoted]
  cases hl with
  | number hn =>
    rw [hn.toList_literal] at h
    cases hl' with
    | number hn' =>
      rw [hn'.toList_literal] at h
      obtain ⟨rfl, hrest⟩ := Numeral.append_inj hn.isProper hn'.isProper hr hs h
      exact ⟨hn.unique hn', hrest⟩
    | char c => exact (number_ne_quoted hn.isProper hsingle h).elim
    | string t => exact (number_ne_quoted hn.isProper hdouble h).elim
  | char c =>
    cases hl' with
    | number hn' =>
      rw [hn'.toList_literal] at h
      exact (number_ne_quoted hn'.isProper hsingle h.symm).elim
    | char c' =>
      obtain ⟨hc, hrest⟩ := quoted_append_inj hsingle h
      cases hc
      exact ⟨rfl, hrest⟩
    | string t => exact (hmixed h).elim
  | string t =>
    cases hl' with
    | number hn' =>
      rw [hn'.toList_literal] at h
      exact (number_ne_quoted hn'.isProper hdouble h.symm).elim
    | char c => exact (hmixed h.symm).elim
    | string t' =>
      obtain ⟨ht, hrest⟩ := quoted_append_inj hdouble h
      exact ⟨congrArg Literal.string (String.toList_inj.mp ht), hrest⟩

/-- What a literal begins with. -/
def isLiteralStart (c : Char) : Bool := isNumberStart c || c == '\'' || c == '"'

theorem exists_cons_of_isSpelled (hl : IsSpelled l) :
    ∃ c rest, (literal l).toList = c :: rest ∧ isLiteralStart c = true := by
  cases hl with
  | number hn =>
    obtain ⟨c, rest, hchars, hstart⟩ := Numeral.exists_cons hn.isProper
    exact ⟨c, rest, hn.toList_literal.trans hchars, by simp [isLiteralStart, hstart]⟩
  | char c => exact ⟨_, _, toList_quoted _ _, rfl⟩
  | string t => exact ⟨_, _, toList_quoted _ _, rfl⟩

end ResourceCode.Source
