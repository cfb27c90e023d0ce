import ResourceCode.Proofs.Number.Text
import ResourceCode.Source

/-!
Words and literals in source text. Each of them tells where it ends: of two texts that begin with one and go on with
something that cannot belong to it, both begin with the same one when they are equal.
-/

namespace ResourceCode.Source

open Number (Decimal)

/-- The text does not go on with such a character. -/
def Stops (p : Char → Bool) (rest : List Char) : Prop := ∀ c ∈ rest.head?, p c = false

@[simp] theorem stops_nil (p : Char → Bool) : Stops p [] := nofun

@[simp] theorem stops_cons {p : Char → Bool} {c : Char} {rest : List Char} :
    Stops p (c :: rest) ↔ p c = false := by
  simp [Stops]

theorem Stops.mono {p q : Char → Bool} {rest : List Char} (h : Stops p rest)
    (hpq : ∀ c, q c = true → p c = true) : Stops q rest := by
  intro c hc
  by_contra hq
  have hp := hpq c (Bool.eq_true_of_not_eq_false hq)
  rw [h c hc] at hp
  cases hp

/-- A text stops where the characters of some kind have come to their end. -/
theorem append_inj_of_stops {p : Char → Bool} {xs ys r s : List Char} (hx : ∀ c ∈ xs, p c = true)
    (hy : ∀ c ∈ ys, p c = true) (hr : Stops p r) (hs : Stops p s) (h : xs ++ r = ys ++ s) :
    xs = ys ∧ r = s := by
  induction xs generalizing ys with
  | nil =>
    cases ys with
    | nil => exact ⟨rfl, h⟩
    | cons y ys =>
      obtain rfl : r = y :: (ys ++ s) := h
      rw [stops_cons, hy y List.mem_cons_self] at hr
      cases hr
  | cons x xs ih =>
    cases ys with
    | nil =>
      obtain rfl : x :: (xs ++ r) = s := h
      rw [stops_cons, hx x List.mem_cons_self] at hs
      cases hs
    | cons y ys =>
      obtain ⟨rfl, htail⟩ := List.cons.inj h
      obtain ⟨rfl, hrest⟩ := ih (fun c hc => hx c (List.mem_cons_of_mem x hc))
        (fun c hc => hy c (List.mem_cons_of_mem x hc)) htail
      exact ⟨rfl, hrest⟩

def isWordStart (c : Char) : Bool := c.isAlpha || c == '_'

def isWordChar (c : Char) : Bool := c.isAlphanum || c == '_'

/-- A letter or an underscore, and behind it letters, digits and underscores, all of them ASCII. -/
def isWord (name : String) : Bool :=
  match name.toList with
  | [] => false
  | c :: rest => isWordStart c && rest.all isWordChar

theorem isWordChar_of_isWordStart {c : Char} (h : isWordStart c = true) : isWordChar c = true := by
  simp only [isWordStart, isWordChar, Char.isAlphanum, Bool.or_eq_true] at h ⊢
  exact h.imp .inl id

theorem isWordChar_of_isDigit {c : Char} (h : c.isDigit = true) : isWordChar c = true := by
  simp [isWordChar, Char.isAlphanum, h]

theorem exists_cons_of_isWord {name : String} (h : isWord name = true) :
    ∃ c rest, name.toList = c :: rest ∧ isWordStart c = true := by
  unfold isWord at h
  split at h
  · cases h
  · rename_i c rest hname
    exact ⟨c, rest, hname, (Bool.and_eq_true_iff.mp h).1⟩

theorem isWordChar_of_isWord {name : String} (h : isWord name = true) :
    ∀ c ∈ name.toList, isWordChar c = true := by
  unfold isWord at h
  split at h
  · cases h
  · rename_i c rest hname
    rw [hname]
    obtain ⟨hstart, hrest⟩ := Bool.and_eq_true_iff.mp h
    intro d hd
    rcases List.mem_cons.mp hd with rfl | hd
    · exact isWordChar_of_isWordStart hstart
    · exact List.all_eq_true.mp hrest d hd

/-- Where a word ends can be seen, so two words with text behind them are the same when the whole texts are.
-/
theorem word_append_inj {a b : String} (ha : isWord a = true) (hb : isWord b = true)
    {r s : List Char} (hr : Stops isWordChar r) (hs : Stops isWordChar s)
    (h : a.toList ++ r = b.toList ++ s) : a = b ∧ r = s := by
  obtain ⟨hname, hrest⟩ :=
    append_inj_of_stops (isWordChar_of_isWord ha) (isWordChar_of_isWord hb) hr hs h
  exact ⟨String.toList_inj.mp hname, hrest⟩

theorem isWord_primitive (p : Primitive) : isWord (primitive p) = true := by
  cases p <;> decide

theorem primitive_injective : Function.Injective primitive := by
  intro p q h
  cases p <;> cases q <;> first | rfl | exact absurd h (by decide)

/-- Neither such a character nor a point with a digit behind it follows. -/
structure Follows (p : Char → Bool) (rest : List Char) : Prop where
  stops : Stops p rest
  point : ∀ more, rest = '.' :: more → Stops Char.isDigit more

section

variable {a b d : Decimal} {r s : List Char}

theorem stops_tail (hr : Stops Char.isDigit r) : Stops Char.isDigit (d.tail ++ r) := by
  unfold Decimal.tail
  split
  · exact hr
  · rw [List.cons_append, stops_cons]
    rfl

/-- The sign can be told from the digits behind it. -/
theorem sign_append_inj (ha : a.IsProper) (hb : b.IsProper)
    (h : a.sign ++ (a.whole ++ r) = b.sign ++ (b.whole ++ s)) :
    a.negative = b.negative ∧ a.whole ++ r = b.whole ++ s := by
  have hminus {d : Decimal} (hd : d.IsProper) {r s : List Char} : d.whole ++ r ≠ '-' :: s := by
    obtain ⟨c, cs, hwhole⟩ := List.exists_cons_of_ne_nil hd.nonempty
    have hdigit := hd.whole c (hwhole ▸ List.mem_cons_self)
    rw [hwhole]
    rintro heq
    cases heq
    cases hdigit
  unfold Decimal.sign at h
  cases hna : a.negative with
  | false =>
    cases hnb : b.negative with
    | false => simpa [hna, hnb] using h
    | true => exact (hminus ha (by simpa [hna, hnb] using h)).elim
  | true =>
    cases hnb : b.negative with
    | false => exact (hminus hb (by simpa [hna, hnb] using h.symm)).elim
    | true => simpa [hna, hnb] using h

theorem tail_append_inj (ha : a.IsProper) (hb : b.IsProper) (hr : Follows Char.isDigit r)
    (hs : Follows Char.isDigit s) (h : a.tail ++ r = b.tail ++ s) :
    a.fraction = b.fraction ∧ r = s := by
  have hpoint {d : Decimal} (hd : d.IsProper) (hfraction : d.fraction ≠ []) {r s : List Char}
      (hr : Follows Char.isDigit r) : r ≠ '.' :: (d.fraction ++ s) := by
    rintro rfl
    obtain ⟨c, cs, hcons⟩ := List.exists_cons_of_ne_nil hfraction
    have hdigit := hd.fraction c (hcons ▸ List.mem_cons_self)
    have hstops := hr.point _ rfl
    rw [hcons, List.cons_append, stops_cons, hdigit] at hstops
    cases hstops
  unfold Decimal.tail at h
  by_cases hfa : a.fraction = []
  · by_cases hfb : b.fraction = []
    · rw [if_pos hfa, if_pos hfb] at h
      exact ⟨hfa.trans hfb.symm, h⟩
    · rw [if_pos hfa, if_neg hfb] at h
      exact (hpoint hb hfb hr h).elim
  · by_cases hfb : b.fraction = []
    · rw [if_neg hfa, if_pos hfb] at h
      exact (hpoint ha hfa hs h.symm).elim
    · rw [if_neg hfa, if_neg hfb] at h
      exact append_inj_of_stops ha.fraction hb.fraction hr.stops hs.stops (List.cons.inj h).2

/-- Two decimals with text behind them are the same when the whole texts are. -/
theorem decimal_append_inj (ha : a.IsProper) (hb : b.IsProper) (hr : Follows Char.isDigit r)
    (hs : Follows Char.isDigit s) (h : a.chars ++ r = b.chars ++ s) : a = b ∧ r = s := by
  simp only [Decimal.chars, List.append_assoc] at h
  obtain ⟨hnegative, hunsigned⟩ := sign_append_inj ha hb h
  obtain ⟨hwhole, htail⟩ :=
    append_inj_of_stops ha.whole hb.whole (stops_tail hr.stops) (stops_tail hs.stops) hunsigned
  obtain ⟨hfraction, hrest⟩ := tail_append_inj ha hb hr hs htail
  cases a
  cases b
  cases hnegative
  cases hwhole
  cases hfraction
  exact ⟨rfl, hrest⟩

end

/-- A number with the cast in front of it and the suffix behind it that tell its type. -/
structure Numeral where
  cast : Option Primitive := none
  decimal : Decimal
  suffix : List Char := []

namespace Numeral

def castChars (n : Numeral) : List Char :=
  match n.cast with
  | some p => '(' :: ((primitive p).toList ++ [')'])
  | none => []

def chars (n : Numeral) : List Char := n.castChars ++ (n.decimal.chars ++ n.suffix)

structure IsProper (n : Numeral) : Prop where
  decimal : n.decimal.IsProper
  suffix : ∀ c ∈ n.suffix, c = 'U' ∨ c = 'L' ∨ c = 'F'

variable {a b n : Numeral} {r s : List Char}

theorem follows_suffix (hn : n.IsProper) (hr : Follows isWordChar r) :
    Follows Char.isDigit (n.suffix ++ r) := by
  cases hsuffix : n.suffix with
  | nil => exact ⟨hr.stops.mono fun c => isWordChar_of_isDigit, hr.point⟩
  | cons c cs =>
    have hc := hn.suffix c (hsuffix ▸ List.mem_cons_self)
    constructor
    · rw [List.cons_append, stops_cons]
      rcases hc with rfl | rfl | rfl <;> rfl
    · rintro more heq
      cases heq
      simp at hc

/-- A number begins with a sign or a digit. -/
theorem decimal_ne_paren {d : Decimal} (hd : d.IsProper) : d.chars ++ r ≠ '(' :: s := by
  obtain ⟨c, cs, hwhole⟩ := List.exists_cons_of_ne_nil hd.nonempty
  have hdigit := hd.whole c (hwhole ▸ List.mem_cons_self)
  unfold Decimal.chars Decimal.sign
  rw [hwhole]
  split
  · simp
  · rintro heq
    cases heq
    cases hdigit

/-- The cast can be told from the number behind it. -/
theorem cast_append_inj {d e : Decimal} (hd : d.IsProper) (he : e.IsProper)
    (h : a.castChars ++ (d.chars ++ r) = b.castChars ++ (e.chars ++ s)) :
    a.cast = b.cast ∧ d.chars ++ r = e.chars ++ s := by
  unfold castChars at h
  cases hca : a.cast with
  | none =>
    cases hcb : b.cast with
    | none => simpa [hca, hcb] using h
    | some q => exact (decimal_ne_paren hd (by simpa [hca, hcb] using h)).elim
  | some p =>
    cases hcb : b.cast with
    | none => exact (decimal_ne_paren he (by simpa [hca, hcb] using h.symm)).elim
    | some q =>
      simp only [hca, hcb, List.cons_append, List.append_assoc, List.cons.injEq, true_and] at h
      obtain ⟨hword, hrest⟩ := word_append_inj (isWord_primitive p) (isWord_primitive q)
        (stops_cons.mpr rfl) (stops_cons.mpr rfl) h
      exact ⟨congrArg some (primitive_injective hword), (List.cons.inj hrest).2⟩

/-- So can whole numerals, with cast, digits and suffix. -/
theorem append_inj (ha : a.IsProper) (hb : b.IsProper) (hr : Follows isWordChar r)
    (hs : Follows isWordChar s) (h : a.chars ++ r = b.chars ++ s) : a = b ∧ r = s := by
  simp only [chars, List.append_assoc] at h
  obtain ⟨hcast, huncast⟩ := cast_append_inj ha.decimal hb.decimal h
  obtain ⟨hdecimal, hsuffixes⟩ :=
    decimal_append_inj ha.decimal hb.decimal (follows_suffix ha hr) (follows_suffix hb hs) huncast
  have hletters {n : Numeral} (hn : n.IsProper) : ∀ c ∈ n.suffix, isWordChar c = true := by
    intro c hc
    rcases hn.suffix c hc with rfl | rfl | rfl <;> rfl
  obtain ⟨hsuffix, hrest⟩ :=
    append_inj_of_stops (hletters ha) (hletters hb) hr.stops hs.stops hsuffixes
  cases a
  cases b
  cases hcast
  cases hdecimal
  cases hsuffix
  exact ⟨rfl, hrest⟩

end Numeral

end ResourceCode.Source
