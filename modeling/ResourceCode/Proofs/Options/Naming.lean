import ResourceCode.Options
import ResourceCode.Types
import Mathlib.Data.List.DropRight
import Mathlib.Data.List.TakeWhile

/-!
Names of nested locals. The name of a local is made an identifier again at every step of a path of members. That
comes to the same as joining the whole path first, as long as there is a character to begin with: what is put in
front of the first character is put there once, and what follows is only replaced character by character.

When the separator is an underscore, names of members that are plain, that is ASCII letters and digits and nothing
else, can be read off: behind the stem that the base name gives stands the member up to the next underscore. So the
locals inside two members of one value never meet, and none of them is the local of the value itself.

Only ASCII digits get an underscore in front. The numeric characters of other scripts are alphanumeric, so they are
kept, and where one stands first it stays first.
-/

namespace ResourceCode

namespace Text

/-- ASCII letters and digits, and at least one of them. -/
structure IsPlain (s : String) : Prop where
  nonempty : s.toList ≠ []
  alphanum : ∀ c ∈ s.toList, c.isAlphanum = true

/-- Letters and digits belong to words. -/
theorem isWordChar_of_isAlphanum {c : Char} (h : c.isAlphanum = true) : isWordChar c = true := by
  have hascii : c.toNat < 0x80 := by
    delta Char.isAlphanum Char.isAlpha Char.isUpper Char.isLower Char.isDigit at h
    simp only [Bool.or_eq_true, Bool.and_eq_true, decide_eq_true_eq, UInt32.le_iff_toNat_le,
      ge_iff_le] at h
    have hz : ('Z' : Char).val.toNat = 90 ∧ ('z' : Char).val.toNat = 122 ∧
        ('9' : Char).val.toNat = 57 := ⟨rfl, rfl, rfl⟩
    have hc : c.toNat = c.val.toNat := rfl
    omega
  simp [isWordChar, isAlphanumeric_of_ascii hascii, h]

theorem ne_underscore_of_isAlphanum {c : Char} (h : c.isAlphanum = true) : c ≠ '_' := by
  rintro rfl
  cases h

/-- Positions in a list are plain names. -/
theorem isPlain_toString (n : Nat) : IsPlain (toString n) := by
  constructor
  · simp [Nat.toDigits_ne_nil]
  · intro c hc
    rw [Nat.toString_eq_ofList_toDigits, String.toList_ofList] at hc
    have hdigit := Nat.isDigit_of_mem_toDigits (by decide) (by decide) hc
    simp [Char.isAlphanum, hdigit]

theorem toString_injective {i j : Nat} (h : toString i = toString j) : i = j := by
  have hlist := congrArg String.toList h
  have hnum := congrArg (fun ds => Nat.ofDigitChars 10 ds 0) hlist
  simpa [Nat.toString_eq_ofList_toDigits] using hnum

/-- An identifier already. -/
structure IsProper (cs : List Char) : Prop where
  lead : needsLead cs = false
  word : ∀ c ∈ cs, isWordChar c = true

theorem map_wordChar {cs : List Char} (h : ∀ c ∈ cs, isWordChar c = true) :
    cs.map wordChar = cs := by
  induction cs with
  | nil => rfl
  | cons c rest ih =>
    rw [List.map_cons, wordChar_eq_self (h c List.mem_cons_self),
      ih fun d hd => h d (List.mem_cons_of_mem c hd)]

/-- What has been made an identifier is proper. -/
theorem isProper_identifierChars (cs : List Char) : IsProper (identifierChars cs) := by
  unfold identifierChars
  have hword : ∀ c ∈ cs.map wordChar, isWordChar c = true := by
    intro c hc
    obtain ⟨d, -, rfl⟩ := List.mem_map.mp hc
    exact isWordChar_wordChar d
  dsimp only
  split
  · constructor
    · rfl
    · intro c hc
      rcases List.mem_cons.mp hc with rfl | hc
      · rfl
      · exact hword c hc
  · rename_i hlead
    exact ⟨Bool.eq_false_iff.mpr hlead, hword⟩

/-- A proper text is an identifier already. -/
theorem identifierChars_of_isProper {cs : List Char} (h : IsProper cs) :
    identifierChars cs = cs := by
  simp only [identifierChars, map_wordChar h.word, h.lead, Bool.false_eq_true, if_false]

theorem IsProper.append {cs ds : List Char} (h : IsProper cs)
    (hd : ∀ c ∈ ds, isWordChar c = true) : IsProper (cs ++ ds) := by
  constructor
  · cases cs with
    | nil => cases h.lead
    | cons c rest => exact h.lead
  · intro c hc
    rcases List.mem_append.mp hc with hc | hc
    · exact h.word c hc
    · exact hd c hc

/-- What stands behind the first character is never put off by what becomes of it. -/
theorem identifierChars_append {cs : List Char} (hc : cs ≠ []) (ds : List Char) :
    identifierChars (cs ++ ds) = identifierChars cs ++ ds.map wordChar := by
  cases cs with
  | nil => exact absurd rfl hc
  | cons c rest =>
    simp only [identifierChars, List.map_append, List.map_cons, List.cons_append, needsLead]
    split <;> rfl

/-- A text that stays as it is when it is made an identifier. -/
def IsIdentifier (s : String) : Prop := identifier s = s

instance (s : String) : Decidable (IsIdentifier s) := inferInstanceAs (Decidable (identifier s = s))

/-- The identifiers are the proper texts. -/
theorem isIdentifier_iff {s : String} : IsIdentifier s ↔ IsProper s.toList := by
  rw [IsIdentifier, ← String.toList_inj, toList_identifier]
  constructor
  · intro h
    exact h ▸ isProper_identifierChars s.toList
  · exact identifierChars_of_isProper

theorem isIdentifier_identifier (s : String) : IsIdentifier (identifier s) := by
  rw [isIdentifier_iff, toList_identifier]
  exact isProper_identifierChars s.toList

/-- What is added at the end only has to be made of word characters. -/
theorem IsIdentifier.append {s t : String} (hs : IsIdentifier s)
    (ht : ∀ c ∈ t.toList, isWordChar c = true) : IsIdentifier (s ++ t) := by
  rw [isIdentifier_iff] at hs ⊢
  rw [String.toList_append]
  exact hs.append ht

theorem IsIdentifier.numbered {s : String} (hs : IsIdentifier s) (n : Nat) :
    IsIdentifier (s ++ toString n) :=
  hs.append fun c hc => isWordChar_of_isAlphanum ((isPlain_toString n).alphanum c hc)

/-- What stands behind the last dot of a text: all of it when there is no dot. -/
def afterLastDot (s : String) : String := String.ofList (s.toList.rtakeWhile (· != '.'))

/-- The split of a type name and the reading from its end agree. -/
theorem afterLastDot_full (n : TypeName) : afterLastDot n.full = n.simple := by
  unfold afterLastDot TypeName.simple splitLast
  cases hsplit : splitAtLast '.' n.full.toList with
  | none =>
    have hall : ∀ c ∈ n.full.toList, (c != '.') = true := fun c hc =>
      bne_iff_ne.mpr fun heq => splitAtLast_eq_none_iff.mp hsplit (heq ▸ hc)
    rw [List.rtakeWhile_eq_self_iff.mpr hall, String.ofList_toList]
    rfl
  | some parts =>
    obtain ⟨before, after⟩ := parts
    obtain ⟨hfull, hafter⟩ := splitAtLast_eq_some hsplit
    have hall : ∀ c ∈ after.reverse, (c != '.') = true := fun c hc =>
      bne_iff_ne.mpr fun heq => hafter (heq ▸ List.mem_reverse.mp hc)
    have htake : (before ++ '.' :: after).rtakeWhile (· != '.') = after := by
      rw [List.rtakeWhile, List.reverse_append, List.reverse_cons, List.append_assoc,
        List.takeWhile_append_of_pos hall]
      simp
    rw [hfull, htake]
    rfl

/-- Making an identifier drops no character. -/
theorem length_le_identifierChars (cs : List Char) : cs.length ≤ (identifierChars cs).length := by
  unfold identifierChars
  dsimp only
  split <;> simp

end Text

/-- A type is referred to by the text behind the last dot of its name. -/
theorem TypeRef.ofName_eq (n : TypeName) : ofName n = .named (Text.afterLastDot n.full) := by
  rw [ofName, Text.afterLastDot_full]

namespace Options

open Text

/-- What the names of all locals inside a value begin with. -/
def stem (base : String) : List Char := identifierChars (base.toList ++ ['_'])

variable {o : Options} {base member other x : String}

/-- The stem is longer than the base name it comes from. -/
theorem length_stem (base : String) : base.toList.length < (stem base).length := by
  have h := length_le_identifierChars (base.toList ++ ['_'])
  simp only [List.length_append, List.length_singleton] at h
  unfold stem
  omega

theorem word_of_isPlain (hm : IsPlain member) : ∀ c ∈ member.toList, isWordChar c = true :=
  fun c hc => isWordChar_of_isAlphanum (hm.alphanum c hc)

/-- A plain member stands behind the stem as it is. -/
theorem toList_nestedName (ho : o.separator = "_") (hm : IsPlain member) :
    (o.nestedName base member).toList = stem base ++ member.toList := by
  have hsep : ("_" : String).toList = ['_'] := rfl
  rw [nestedName, toList_identifier, ho, String.toList_append, String.toList_append, hsep,
    identifierChars_append (by simp), map_wordChar (word_of_isPlain hm), stem]

/-- Going on from there, the stem has the member and an underscore at its end. -/
theorem stem_nestedName (ho : o.separator = "_") (hm : IsPlain member) :
    stem (o.nestedName base member) = stem base ++ member.toList ++ ['_'] := by
  have hproper : IsProper (stem base ++ member.toList ++ ['_']) := by
    refine ((isProper_identifierChars _).append (word_of_isPlain hm)).append fun c hc => ?_
    rw [List.mem_singleton.mp hc]
    rfl
  unfold stem
  rw [toList_nestedName ho hm]
  exact identifierChars_of_isProper hproper

/-- The names that the locals of a value may have when its own is the base name. -/
def Inside (base x : String) : Prop := x = base ∨ ∃ rest, rest ≠ [] ∧ x.toList = stem base ++ rest

theorem inside_base (base : String) : Inside base base := .inl rfl

/-- A local inside a member is named after the member. -/
theorem inside_nestedName (ho : o.separator = "_") (hm : IsPlain member)
    (h : Inside (o.nestedName base member) x) :
    ∃ rest, x.toList = stem base ++ (member.toList ++ rest) ∧ ∀ c ∈ rest.head?, c = '_' := by
  obtain rfl | ⟨rest, -, hx⟩ := h
  · exact ⟨[], by rw [toList_nestedName ho hm, List.append_nil], by simp⟩
  · refine ⟨'_' :: rest, ?_, by simp⟩
    rw [hx, stem_nestedName ho hm]
    simp

/-- What is inside a member is inside the value. -/
theorem Inside.of_nestedName (ho : o.separator = "_") (hm : IsPlain member)
    (h : Inside (o.nestedName base member) x) : Inside base x := by
  obtain ⟨rest, hx, -⟩ := inside_nestedName ho hm h
  exact .inr ⟨_, by simp [hm.nonempty], hx⟩

/-- The value's own local is not inside a member. -/
theorem not_inside_nestedName (ho : o.separator = "_") (hm : IsPlain member) :
    ¬ Inside (o.nestedName base member) base := by
  intro h
  obtain ⟨rest, hx, -⟩ := inside_nestedName ho hm h
  have hlength := congrArg List.length hx
  have hstem := length_stem base
  simp only [List.length_append] at hlength
  omega

/-- A plain member can be read off: it ends at the next underscore. -/
theorem takeWhile_plain (hm : IsPlain member) {rest : List Char} (hr : ∀ c ∈ rest.head?, c = '_') :
    (member.toList ++ rest).takeWhile (· != '_') = member.toList := by
  have hall : ∀ c ∈ member.toList, (c != '_') = true := fun c hc =>
    bne_iff_ne.mpr (ne_underscore_of_isAlphanum (hm.alphanum c hc))
  rw [List.takeWhile_append_of_pos hall]
  cases rest with
  | nil => simp
  | cons c rest =>
    obtain rfl := hr c rfl
    simp

/-- No local is inside two members. -/
theorem eq_of_inside (ho : o.separator = "_") (hm : IsPlain member) (hm' : IsPlain other)
    (h : Inside (o.nestedName base member) x) (h' : Inside (o.nestedName base other) x) :
    member = other := by
  obtain ⟨rest, hx, hrest⟩ := inside_nestedName ho hm h
  obtain ⟨rest', hx', hrest'⟩ := inside_nestedName ho hm' h'
  have htail := List.append_cancel_left (hx.symm.trans hx')
  have hlist := congrArg (List.takeWhile (· != '_')) htail
  rw [takeWhile_plain hm hrest, takeWhile_plain hm' hrest'] at hlist
  exact String.toList_injective hlist

end Options

namespace Options

open Text

variable {o : Options} {base member x : String}

/-- Going on from a name that has been made an identifier is going on from the text it was made from. -/
theorem nestedName_identifier (hx : x ≠ "") :
    o.nestedName (identifier x) member = o.nestedName x member := by
  have hchars : x.toList ≠ [] := by simpa using hx
  have hproper := isProper_identifierChars x.toList
  have hnonempty : identifierChars x.toList ≠ [] := by
    intro hnil
    rw [hnil] at hproper
    cases hproper.lead
  have hjoin (s : String) : (o.nestedName s member).toList =
      identifierChars (s.toList ++ (o.separator ++ member).toList) := by
    rw [nestedName, toList_identifier, String.append_assoc, String.toList_append]
  rw [← String.toList_inj, hjoin, hjoin, toList_identifier, identifierChars_append hnonempty,
    identifierChars_append hchars, identifierChars_of_isProper hproper]

/-- Once there is a character, the name only depends on what the rest of the path is joined to. -/
theorem foldl_identifier (hx : x ≠ "") (members : List String) :
    members.foldl o.nestedName (identifier x) =
      identifier (o.separator.intercalate (x :: members)) := by
  induction members generalizing x with
  | nil => rfl
  | cons member rest ih =>
    have hstep : x ++ o.separator ++ member ≠ "" := by simp [hx]
    have hjoined : o.separator.intercalate (x :: member :: rest) =
        o.separator.intercalate ((x ++ o.separator ++ member) :: rest) := rfl
    rw [List.foldl_cons, nestedName_identifier hx, hjoined]
    exact ih hstep

/-- Going through a path step by step gives the identifier for the path as a whole, unless nothing at all stands in
front of the second member. -/
theorem foldl_nestedName (h : ¬ (base = "" ∧ o.separator = "" ∧ member = ""))
    (members : List String) :
    (member :: members).foldl o.nestedName base =
      identifier (o.separator.intercalate (base :: member :: members)) := by
  have hfirst : base ++ o.separator ++ member ≠ "" := by simpa [and_assoc] using h
  exact foldl_identifier hfirst members

theorem foldl_nestedName_digits :
    ¬ ("" = "" ∧ ({ separator := "" } : Options).separator = "" ∧ "9" = "") ∧
      ["9", "", "x.y"].foldl ({ separator := "" } : Options).nestedName "" =
        identifier ("".intercalate ["", "9", "", "x.y"]) ∧
      identifier ("".intercalate ["", "9", "", "x.y"]) = "_9x_y" :=
  ⟨by decide, foldl_nestedName (by decide) _, by decide +kernel⟩

/-- With nothing in front the first step makes an underscore, which the path as a whole does not have. -/
example : ["", "x"].foldl ({ separator := "" } : Options).nestedName "" = "_x" ∧
    identifier ("".intercalate ["", "", "x"]) = "x" := by
  decide +kernel

end Options

namespace Text

/-- The code points of the general categories `Nd` and `No`, as closed ranges. -/
def numericRanges : List (Nat × Nat) := [
  (0x30, 0x39), (0xB2, 0xB3), (0xB9, 0xB9), (0xBC, 0xBE), (0x660, 0x669), (0x6F0, 0x6F9),
  (0x7C0, 0x7C9), (0x966, 0x96F), (0x9E6, 0x9EF), (0x9F4, 0x9F9), (0xA66, 0xA6F), (0xAE6, 0xAEF),
  (0xB66, 0xB6F), (0xB72, 0xB77), (0xBE6, 0xBF2), (0xC66, 0xC6F), (0xC78, 0xC7E), (0xCE6, 0xCEF),
  (0xD58, 0xD5E), (0xD66, 0xD78), (0xDE6, 0xDEF), (0xE50, 0xE59), (0xED0, 0xED9), (0xF20, 0xF33),
  (0x1040, 0x1049), (0x1090, 0x1099), (0x1369, 0x137C), (0x17E0, 0x17E9), (0x17F0, 0x17F9),
  (0x1810, 0x1819), (0x1946, 0x194F), (0x19D0, 0x19DA), (0x1A80, 0x1A89), (0x1A90, 0x1A99),
  (0x1B50, 0x1B59), (0x1BB0, 0x1BB9), (0x1C40, 0x1C49), (0x1C50, 0x1C59), (0x2070, 0x2070),
  (0x2074, 0x2079), (0x2080, 0x2089), (0x2150, 0x215F), (0x2189, 0x2189), (0x2460, 0x249B),
  (0x24EA, 0x24FF), (0x2776, 0x2793), (0x2CFD, 0x2CFD), (0x3192, 0x3195), (0x3220, 0x3229),
  (0x3248, 0x324F), (0x3251, 0x325F), (0x3280, 0x3289), (0x32B1, 0x32BF), (0xA620, 0xA629),
  (0xA830, 0xA835), (0xA8D0, 0xA8D9), (0xA900, 0xA909), (0xA9D0, 0xA9D9), (0xA9F0, 0xA9F9),
  (0xAA50, 0xAA59), (0xABF0, 0xABF9), (0xFF10, 0xFF19), (0x10107, 0x10133), (0x10175, 0x10178),
  (0x1018A, 0x1018B), (0x102E1, 0x102FB), (0x10320, 0x10323), (0x104A0, 0x104A9),
  (0x10858, 0x1085F), (0x10879, 0x1087F), (0x108A7, 0x108AF), (0x108FB, 0x108FF),
  (0x10916, 0x1091B), (0x109BC, 0x109BD), (0x109C0, 0x109CF), (0x109D2, 0x109FF),
  (0x10A40, 0x10A48), (0x10A7D, 0x10A7E), (0x10A9D, 0x10A9F), (0x10AEB, 0x10AEF),
  (0x10B58, 0x10B5F), (0x10B78, 0x10B7F), (0x10BA9, 0x10BAF), (0x10CFA, 0x10CFF),
  (0x10D30, 0x10D39), (0x10D40, 0x10D49), (0x10E60, 0x10E7E), (0x10F1D, 0x10F26),
  (0x10F51, 0x10F54), (0x10FC5, 0x10FCB), (0x11052, 0x1106F), (0x110F0, 0x110F9),
  (0x11136, 0x1113F), (0x111D0, 0x111D9), (0x111E1, 0x111F4), (0x112F0, 0x112F9),
  (0x11450, 0x11459), (0x114D0, 0x114D9), (0x11650, 0x11659), (0x116C0, 0x116C9),
  (0x116D0, 0x116E3), (0x11730, 0x1173B), (0x118E0, 0x118F2), (0x11950, 0x11959),
  (0x11BF0, 0x11BF9), (0x11C50, 0x11C6C), (0x11D50, 0x11D59), (0x11DA0, 0x11DA9),
  (0x11DE0, 0x11DE9), (0x11F50, 0x11F59), (0x11FC0, 0x11FD4), (0x16130, 0x16139),
  (0x16A60, 0x16A69), (0x16AC0, 0x16AC9), (0x16B50, 0x16B59), (0x16B5B, 0x16B61),
  (0x16D70, 0x16D79), (0x16E80, 0x16E96), (0x1CCF0, 0x1CCF9), (0x1D2C0, 0x1D2D3),
  (0x1D2E0, 0x1D2F3), (0x1D360, 0x1D378), (0x1D7CE, 0x1D7FF), (0x1E140, 0x1E149),
  (0x1E2F0, 0x1E2F9), (0x1E4F0, 0x1E4F9), (0x1E5F1, 0x1E5FA), (0x1E8C7, 0x1E8CF),
  (0x1E950, 0x1E959), (0x1EC71, 0x1ECAB), (0x1ECAD, 0x1ECAF), (0x1ECB1, 0x1ECB4),
  (0x1ED01, 0x1ED2D), (0x1ED2F, 0x1ED3D), (0x1F100, 0x1F10C), (0x1FBF0, 0x1FBF9)]

def isNumeric (c : Char) : Bool :=
  numericRanges.any fun range => range.1 ≤ c.toNat && c.toNat ≤ range.2

/-- A character is numeric exactly when it lies in one of the ranges. -/
theorem isNumeric_iff {c : Char} :
    isNumeric c = true ↔ ∃ range ∈ numericRanges, range.1 ≤ c.toNat ∧ c.toNat ≤ range.2 := by
  simp [isNumeric]

/-- Whether a range of code points goes at least as far as another one on either side. -/
def covers (wider range : Nat × Nat) : Bool := Nat.ble wider.1 range.1 && Nat.ble range.2 wider.2

/-- In ascending order, ranges are covered by others when none is left after each of these has taken away the first ones
that it covers. -/
theorem exists_covers_of_foldl {widers ranges : List (Nat × Nat)}
    (h : widers.foldl (fun rest wider => rest.dropWhile (covers wider)) ranges = []) :
    ∀ range ∈ ranges, ∃ wider ∈ widers, covers wider range = true := by
  induction widers generalizing ranges with
  | nil =>
    obtain rfl : ranges = [] := h
    exact nofun
  | cons wider rest ih =>
    intro range hrange
    rw [← List.takeWhile_append_dropWhile (p := covers wider) (l := ranges), List.mem_append] at hrange
    rcases hrange with htaken | hleft
    · exact ⟨wider, List.mem_cons_self, List.mem_takeWhile_imp htaken⟩
    · obtain ⟨later, hlater, hcovers⟩ := ih h range hleft
      exact ⟨later, List.mem_cons_of_mem wider hlater, hcovers⟩

/-- Behind the ASCII digits every range of numeric characters lies inside one of alphanumeric characters. -/
theorem exists_covers_numericRanges :
    ∀ range ∈ numericRanges.tail, ∃ wider ∈ alphanumericRanges, covers wider range = true :=
  exists_covers_of_foldl (by decide +kernel)

theorem le_of_mem_tail_numericRanges : ∀ range ∈ numericRanges.tail, 0x80 ≤ range.1 := by
  decide +kernel

theorem isDigit_iff {c : Char} : c.isDigit = true ↔ 0x30 ≤ c.toNat ∧ c.toNat ≤ 0x39 := by
  simp only [Char.isDigit, Bool.and_eq_true, decide_eq_true_eq, ge_iff_le, UInt32.le_iff_toNat_le]
  rfl

/-- A numeric character is an ASCII digit or a character beyond ASCII that is alphanumeric. -/
theorem isNumeric_cases {c : Char} (h : isNumeric c = true) :
    c.isDigit = true ∨ isAlphanumeric c = true := by
  obtain ⟨range, hrange, hlow, hhigh⟩ := isNumeric_iff.mp h
  rcases List.mem_cons.mp hrange with rfl | htail
  · exact .inl (isDigit_iff.mpr ⟨hlow, hhigh⟩)
  · have hascii := le_of_mem_tail_numericRanges range htail
    obtain ⟨wider, hwider, hcovers⟩ := exists_covers_numericRanges range htail
    simp only [covers, Bool.and_eq_true, Nat.ble_eq] at hcovers
    have hnot : ¬ c.toNat < 0x80 := by omega
    right
    simp only [isAlphanumeric, if_neg hnot, List.any_eq_true, Bool.and_eq_true, decide_eq_true_eq]
    exact ⟨wider, hwider, by omega, by omega⟩

/-- Numeric characters belong to words, in every script. -/
theorem isWordChar_of_isNumeric {c : Char} (h : isNumeric c = true) : isWordChar c = true := by
  rcases isNumeric_cases h with hdigit | halphanumeric
  · exact isWordChar_of_isAlphanum (by simp [Char.isAlphanum, hdigit])
  · simp [isWordChar, halphanumeric]

/-- The first character is the first one of the text, made a word character, unless an underscore is put in front. -/
theorem head?_identifierChars (cs : List Char) :
    (identifierChars cs).head? =
      if needsLead (cs.map wordChar) then some '_' else cs.head?.map wordChar := by
  unfold identifierChars
  dsimp only
  split
  · rfl
  · cases cs <;> rfl

theorem not_isNumeric_underscore : isNumeric '_' = false := by decide +kernel

/-- An identifier has a character, and it has word characters only. It begins with a numeric character exactly when the
text that it is made from begins with one that is not an ASCII digit. -/
theorem identifier_begins (s : String) :
    identifier s ≠ "" ∧ (∀ c ∈ (identifier s).toList, c = '_' ∨ isAlphanumeric c = true) ∧
      ((∃ c ∈ (identifier s).toList.head?, isNumeric c = true) ↔
        ∃ c ∈ s.toList.head?, isNumeric c = true ∧ c.isDigit = false) := by
  have hproper := isProper_identifierChars s.toList
  refine ⟨fun hempty => ?_, fun c hc => ?_, ?_⟩
  · have hnil : identifierChars s.toList = [] := by rw [← toList_identifier, hempty]; rfl
    rw [hnil] at hproper
    cases hproper.lead
  · rw [toList_identifier] at hc
    have hword := hproper.word c hc
    simpa [isWordChar, or_comm] using hword
  · rw [toList_identifier, head?_identifierChars]
    cases s.toList with
    | nil => simp [needsLead, not_isNumeric_underscore]
    | cons c rest =>
      by_cases hword : isWordChar c = true
      · cases hdigit : c.isDigit <;>
          simp [needsLead, wordChar, hword, hdigit, not_isNumeric_underscore]
      · have hnumeric : isNumeric c = false :=
          Bool.eq_false_iff.mpr fun h => hword (isWordChar_of_isNumeric h)
        have hunderscore : ('_' : Char).isDigit = false := rfl
        simp [needsLead, wordChar, hword, hnumeric, hunderscore, not_isNumeric_underscore]

/-- A text that begins with the Arabic digit three is an identifier as it stands. -/
theorem identifier_begins_numeric :
    ¬ ∀ s : String, ∀ c ∈ (identifier s).toList.head?, isNumeric c = false := by
  intro hall
  have hkept : (identifier "\u0663D").toList.head? = some '\u0663' := by decide +kernel
  have hnumeric : isNumeric '\u0663' = true := by decide +kernel
  exact absurd (hall "\u0663D" _ hkept) (by simp [hnumeric])

end Text

end ResourceCode
