import ResourceCode.Proofs.Options.Naming
import Mathlib.Data.List.Infix
import Mathlib.Data.String.Basic

/-!
Loading options, whatever decodes the documents. A separator is accepted when identifiers may be made of its
characters, and then names are joined by it as it stands. Where a separator is refused, the place that is shown is the
first occurrence of the key, so a comment in front of the document moves it along unless the comment mentions the key
itself.
-/

namespace ResourceCode

namespace Text

open String (utf8Len)

variable {phrase cs line : List Char}

theorem utf8Len_toList (s : String) : utf8Len s.toList = s.utf8ByteSize := by
  rw [← String.utf8ByteSize_ofList, String.ofList_toList]

/-- A phrase has no offset in a text exactly when it does not occur. -/
theorem byteOffset?_eq_none_iff : byteOffset? phrase cs = none ↔ ¬ phrase <:+: cs := by
  induction cs with
  | nil => simp [byteOffset?]
  | cons c rest ih =>
    rw [byteOffset?, List.infix_cons_iff, not_or, ← ih, ← List.isPrefixOf_iff_prefix]
    cases phrase.isPrefixOf (c :: rest) <;> simp

/-- The occurrence is inside the text. -/
theorem byteOffset?_lt (hphrase : phrase ≠ []) {offset : Nat} (h : byteOffset? phrase cs = some offset) :
    offset < utf8Len cs := by
  induction cs generalizing offset with
  | nil => simp [byteOffset?, hphrase] at h
  | cons c rest ih =>
    have hpos := c.utf8Size_pos
    rw [byteOffset?] at h
    rw [String.utf8Len_cons]
    split at h
    · cases h
      omega
    · obtain ⟨later, hlater, rfl⟩ := Option.map_eq_some_iff.mp h
      have hlt := ih hlater
      omega

/-- A phrase on one line that begins a text of several lines begins the first of them. -/
theorem prefix_line_iff (hphrase : '\n' ∉ phrase) : phrase <+: line ++ '\n' :: cs ↔ phrase <+: line := by
  constructor
  · intro h
    refine List.prefix_of_prefix_length_le h (List.prefix_append line _) ?_
    by_contra hlength
    have hended : line ++ ['\n'] <+: line ++ '\n' :: cs := ⟨cs, by simp⟩
    have hline : line ++ ['\n'] <+: phrase := by
      refine List.prefix_of_prefix_length_le hended h ?_
      rw [List.length_append, List.length_singleton]
      omega
    exact hphrase (hline.subset (by simp))
  · exact fun h => h.trans (List.prefix_append line _)

/-- A phrase without line feeds does not look past the end of a line. -/
theorem isPrefixOf_line (hphrase : '\n' ∉ phrase) (line cs : List Char) :
    phrase.isPrefixOf (line ++ '\n' :: cs) = phrase.isPrefixOf (line ++ ['\n']) := by
  rw [Bool.eq_iff_iff, List.isPrefixOf_iff_prefix, List.isPrefixOf_iff_prefix, prefix_line_iff hphrase,
    prefix_line_iff hphrase]

/-- The first line is searched before the others. -/
theorem byteOffset?_line (hphrase : '\n' ∉ phrase) (line cs : List Char) :
    byteOffset? phrase (line ++ '\n' :: cs) =
      (byteOffset? phrase (line ++ ['\n'])).or
        ((byteOffset? phrase cs).map (· + utf8Len (line ++ ['\n']))) := by
  induction line with
  | nil =>
    have hprefix := isPrefixOf_line hphrase [] cs
    simp only [List.nil_append] at hprefix ⊢
    rw [byteOffset?, byteOffset?, hprefix]
    cases phrase with
    | nil => rfl
    | cons c rest => split <;> rfl
  | cons c rest ih =>
    have hprefix := isPrefixOf_line hphrase (c :: rest) cs
    simp only [List.cons_append] at hprefix ⊢
    rw [byteOffset?, byteOffset?, hprefix, ih]
    split
    · rfl
    · cases byteOffset? phrase (rest ++ ['\n']) with
      | some offset => rfl
      | none => simp

end Text

namespace Options

open Text
open String (utf8Len)

variable {decode : Decoder} {source separator : String} {settings : Settings} {o : Options}

/-- ASCII letters, ASCII digits and the underscore. -/
def IsSeparatorChar (c : Char) : Prop :=
  ('A' ≤ c ∧ c ≤ 'Z') ∨ ('a' ≤ c ∧ c ≤ 'z') ∨ ('0' ≤ c ∧ c ≤ '9') ∨ c = '_'

instance (c : Char) : Decidable (IsSeparatorChar c) := inferInstanceAs (Decidable (_ ∨ _))

theorem isSeparatorChar_iff {c : Char} : IsSeparatorChar c ↔ (c.isAlphanum || c == '_') = true := by
  delta Char.isAlphanum Char.isAlpha Char.isUpper Char.isLower Char.isDigit
  simp [IsSeparatorChar, Char.le_def, or_assoc]

theorem isPlainSeparator_iff :
    isPlainSeparator separator = true ↔ ∀ c ∈ separator.toList, IsSeparatorChar c := by
  simp only [isPlainSeparator, List.all_eq_true, isSeparatorChar_iff]

theorem isPlainSeparator_eq_false_iff :
    isPlainSeparator separator = false ↔ ∃ c ∈ separator.toList, ¬ IsSeparatorChar c := by
  rw [← Bool.not_eq_true, isPlainSeparator_iff]
  simp only [not_forall, exists_prop]

/-- What a separator may be made of is kept in identifiers. -/
theorem isWordChar_of_isSeparatorChar {c : Char} (h : IsSeparatorChar c) : isWordChar c = true := by
  rcases Bool.or_eq_true_iff.mp (isSeparatorChar_iff.mp h) with halphanum | hunderscore
  · exact isWordChar_of_isAlphanum halphanum
  · rw [beq_iff_eq.mp hunderscore, isWordChar_underscore]

/-- Settings are loaded when they can be decoded and their separator is plain. -/
theorem load_eq_ok_iff : load decode source = .ok o ↔
    ∃ settings, decode source = some settings ∧ ofSettings settings = o ∧
      isPlainSeparator o.separator = true := by
  rw [load]
  cases decode source with
  | none => simp
  | some settings =>
    simp only [Option.some.injEq, exists_eq_left']
    cases hplain : isPlainSeparator (ofSettings settings).separator with
    | true =>
      rw [if_pos rfl, Except.ok.injEq]
      refine ⟨fun h => ⟨h, ?_⟩, And.left⟩
      rw [← h, hplain]
    | false =>
      rw [if_neg Bool.false_ne_true]
      refine ⟨nofun, fun ⟨h, hother⟩ => ?_⟩
      rw [← h, hplain] at hother
      cases hother

/-- A separator is refused when the settings can be decoded and it is not plain; the offset is that of the
key. -/
theorem load_eq_invalidSeparator_iff {offset : Option Nat} :
    load decode source = .error (.invalidSeparator separator offset) ↔
      ∃ settings, decode source = some settings ∧ isPlainSeparator separator = false ∧
        (ofSettings settings).separator = separator ∧
        byteOffset? separatorKey.toList source.toList = offset := by
  rw [load]
  cases decode source with
  | none => simp
  | some settings =>
    simp only [Option.some.injEq, exists_eq_left']
    cases hplain : isPlainSeparator (ofSettings settings).separator with
    | true =>
      rw [if_pos rfl]
      refine ⟨nofun, fun ⟨hother, h, _⟩ => ?_⟩
      rw [← h, hplain] at hother
      cases hother
    | false =>
      rw [if_neg Bool.false_ne_true, Except.error.injEq, OptionsError.invalidSeparator.injEq]
      refine ⟨fun ⟨h, hoffset⟩ => ⟨?_, h, hoffset⟩, And.right⟩
      rw [← h, hplain]

/-- Settings that have been decoded are refused for nothing but their separator. -/
theorem exists_load_eq_invalidSeparator_iff (h : decode source = some settings) :
    (∃ place, load decode source =
      .error (.invalidSeparator (ofSettings settings).separator place)) ↔
        isPlainSeparator (ofSettings settings).separator = false := by
  constructor
  · rintro ⟨place, hload⟩
    obtain ⟨_, -, hplain, -⟩ := load_eq_invalidSeparator_iff.mp hload
    exact hplain
  · intro hplain
    exact ⟨_, load_eq_invalidSeparator_iff.mpr ⟨settings, h, hplain, rfl, rfl⟩⟩

/-- A separator of characters that identifiers may be made of joins names as it stands. -/
theorem nestedName_eq {base member : String} (hseparator : ∀ c ∈ o.separator.toList, IsSeparatorChar c)
    (hbase : IsIdentifier base) (hmember : ∀ c ∈ member.toList, isWordChar c = true) :
    o.nestedName base member = base ++ o.separator ++ member :=
  (hbase.append fun c hc => isWordChar_of_isSeparatorChar (hseparator c hc)).append hmember

/-- With loaded options the name of a nested local is put together from its parts, none of which is changed. The
separator is the one that the document sets, or else an underscore, and a document that can be decoded is refused
exactly when that separator has another character than ASCII letters, ASCII digits and the underscore. -/
theorem separator_verbatim (decode : Decoder) (source : String) :
    (∀ o, load decode source = .ok o →
      (∃ settings, decode source = some settings ∧ o.separator = settings.separator.getD "_") ∧
        ∀ base member : String, IsIdentifier base →
          (∀ c ∈ member.toList, c = '_' ∨ isAlphanumeric c = true) →
            o.nestedName base member = base ++ o.separator ++ member) ∧
      ∀ settings, decode source = some settings →
        ((∃ place, load decode source =
            .error (.invalidSeparator (settings.separator.getD "_") place)) ↔
          ∃ c ∈ (settings.separator.getD "_").toList, ¬ IsSeparatorChar c) ∧
        ((∃ o, load decode source = .ok o) ↔
          ∀ c ∈ (settings.separator.getD "_").toList, IsSeparatorChar c) := by
  refine ⟨fun o hload => ?_, fun settings hdecode => ⟨?_, ?_⟩⟩
  · obtain ⟨settings, hdecode, rfl, hplain⟩ := load_eq_ok_iff.mp hload
    refine ⟨⟨settings, hdecode, rfl⟩, fun base member hbase hmember => ?_⟩
    refine nestedName_eq (isPlainSeparator_iff.mp hplain) hbase fun c hc => ?_
    simpa [isWordChar, or_comm] using hmember c hc
  · have hrefused := exists_load_eq_invalidSeparator_iff hdecode
    rw [isPlainSeparator_eq_false_iff] at hrefused
    exact hrefused
  · constructor
    · rintro ⟨o, hload⟩
      obtain ⟨decoded, hdecoded, rfl, hplain⟩ := load_eq_ok_iff.mp hload
      obtain rfl := Option.some.inj (hdecode.symm.trans hdecoded)
      exact isPlainSeparator_iff.mp hplain
    · intro hchars
      exact ⟨_, load_eq_ok_iff.mpr ⟨settings, hdecode, rfl, isPlainSeparator_iff.mpr hchars⟩⟩

/-- The separator is an underscore, written as an escape, and a digit. -/
def escapedSource : String := "[generator]\nname_separator = \"\\u005f9\"\n"

/-- The separator is a letter, but not one of ASCII. -/
def accentedSource : String := "[generator]\nname_separator = \"é\"\n"

/-- Knows these two documents. -/
def separatorDecoder : Decoder := fun source =>
  [(escapedSource, { separator := some "_9" }), (accentedSource, { separator := some "é" })].lookup source

theorem separator_verbatim_escapedSource :
    load separatorDecoder escapedSource = .ok { separator := "_9" } ∧
      IsIdentifier "größe" ∧
      ({ separator := "_9" } : Options).nestedName "größe" "3_x" = "größe" ++ "_9" ++ "3_x" ∧
      separatorDecoder accentedSource = some { separator := some "é" } ∧
      ∃ place, load separatorDecoder accentedSource = .error (.invalidSeparator "é" place) := by
  have hescaped : separatorDecoder escapedSource = some { separator := some "_9" } := by decide +kernel
  have hload : load separatorDecoder escapedSource = .ok { separator := "_9" } :=
    load_eq_ok_iff.mpr ⟨_, hescaped, rfl, by decide +kernel⟩
  have hdecode : separatorDecoder accentedSource = some { separator := some "é" } := by decide +kernel
  have hbase : IsIdentifier "größe" := by decide +kernel
  have hword : "3_x".toList.all isWordChar = true := by decide +kernel
  have hmember : ∀ c ∈ "3_x".toList, c = '_' ∨ isAlphanumeric c = true := fun c hc => by
    simpa [isWordChar, or_comm] using List.all_eq_true.mp hword c hc
  have hname := ((separator_verbatim separatorDecoder escapedSource).1 _ hload).2 "größe" "3_x" hbase hmember
  have hrefused := (((separator_verbatim separatorDecoder accentedSource).2 _ hdecode).1).mpr
    ⟨'é', by decide +kernel, by decide⟩
  exact ⟨hload, hbase, hname, hdecode, hrefused⟩

/-- A document is refused for its separator, with a place of `length` bytes from `offset` on. -/
def IsRefusedAt (decode : Decoder) (source separator : String) (offset length : Nat) : Prop :=
  ∃ place, load decode source = .error (.invalidSeparator separator place) ∧
    (OptionsError.invalidSeparator separator place).span? = some (offset, length)

/-- What may stand in a comment: every character but the controls, of which only the tab. -/
def IsCommentChar (c : Char) : Prop := c = '\t' ∨ (0x20 ≤ c.toNat ∧ c.toNat ≠ 0x7F)

instance (c : Char) : Decidable (IsCommentChar c) := inferInstanceAs (Decidable (_ ∨ _))

/-- A text that is checked character by character may stand in a comment. -/
theorem isCommentChar_of_all {text : List Char} (h : text.all (fun c => decide (IsCommentChar c)) = true) :
    ∀ c ∈ text, IsCommentChar c := by
  simpa using h

/-- A number sign, text, and the end of the line. -/
inductive IsCommentLine : List Char → Prop where
  | feed {text : List Char} (htext : ∀ c ∈ text, IsCommentChar c) : IsCommentLine ('#' :: text ++ ['\n'])
  | returnFeed {text : List Char} (htext : ∀ c ∈ text, IsCommentChar c) :
    IsCommentLine ('#' :: text ++ ['\r', '\n'])

/-- A document is decoded as it is when there is a comment line in front of it. -/
def IgnoresComments (decode : Decoder) (source : String) : Prop :=
  ∀ comment : String, IsCommentLine comment.toList → decode (comment ++ source) = decode source

variable {comment : String} {offset length : Nat}

/-- A comment line ends at its line feed. -/
theorem IsCommentLine.exists_line {cs : List Char} (h : IsCommentLine cs) : ∃ line, cs = line ++ ['\n'] := by
  cases h with
  | feed => exact ⟨_, rfl⟩
  | @returnFeed text => exact ⟨'#' :: text ++ ['\r'], by simp⟩

theorem isRefusedAt_iff : IsRefusedAt decode source separator offset length ↔
    load decode source = .error (.invalidSeparator separator (some offset)) ∧
      length = separatorKey.utf8ByteSize := by
  constructor
  · rintro ⟨_ | place, hload, hspan⟩
    · cases hspan
    · cases hspan
      exact ⟨hload, rfl⟩
  · rintro ⟨hload, rfl⟩
    exact ⟨_, hload, rfl⟩

/-- The key is looked for in the comment first. -/
theorem byteOffset?_comment (hcomment : IsCommentLine comment.toList)
    (h : byteOffset? separatorKey.toList source.toList = some offset) :
    byteOffset? separatorKey.toList (comment ++ source).toList =
      some ((byteOffset? separatorKey.toList comment.toList).getD (offset + comment.utf8ByteSize)) := by
  obtain ⟨line, hline⟩ := hcomment.exists_line
  have hkey : '\n' ∉ separatorKey.toList := by decide
  rw [String.toList_append, ← utf8Len_toList, hline, List.append_assoc, List.singleton_append,
    byteOffset?_line hkey, h]
  cases byteOffset? separatorKey.toList (line ++ ['\n']) with
  | none => rfl
  | some place => rfl

/-- Behind a comment line a document is refused for the same separator, at the first place that mentions the key. -/
theorem load_comment (hignored : IgnoresComments decode source) (hcomment : IsCommentLine comment.toList)
    (h : load decode source = .error (.invalidSeparator separator (some offset))) :
    load decode (comment ++ source) = .error (.invalidSeparator separator
      (some ((byteOffset? separatorKey.toList comment.toList).getD (offset + comment.utf8ByteSize)))) := by
  obtain ⟨settings, hdecode, hplain, hseparator, hoffset⟩ := load_eq_invalidSeparator_iff.mp h
  rw [← hignored comment hcomment] at hdecode
  exact load_eq_invalidSeparator_iff.mpr
    ⟨settings, hdecode, hplain, hseparator, byteOffset?_comment hcomment hoffset⟩

/-- Behind a comment line the place moves along with the document exactly when the comment does not mention the key. -/
theorem isRefusedAt_comment_iff (hignored : IgnoresComments decode source)
    (hcomment : IsCommentLine comment.toList) (h : IsRefusedAt decode source separator offset length) :
    IsRefusedAt decode (comment ++ source) separator (offset + comment.utf8ByteSize) length ↔
      ¬ "name_separator".toList <:+: comment.toList := by
  obtain ⟨hload, hlength⟩ := isRefusedAt_iff.mp h
  rw [isRefusedAt_iff, and_iff_left hlength, load_comment hignored hcomment hload,
    ← byteOffset?_eq_none_iff]
  change _ ↔ byteOffset? separatorKey.toList comment.toList = none
  cases hplace : byteOffset? separatorKey.toList comment.toList with
  | none => simp
  | some place =>
    have hlt := byteOffset?_lt (by decide) hplace
    rw [utf8Len_toList] at hlt
    suffices place ≠ offset + comment.utf8ByteSize by simpa
    omega

/-- The key stands after a table header. -/
def dashedSource : String := "[generator]\nname_separator = \"-\"\n"

/-- Knows this document, whatever stands in front of it. -/
def dashedDecoder : Decoder := fun source =>
  if dashedSource.toList <:+ source.toList then some { separator := some "-" } else none

theorem dashedDecoder_eq (front : String) :
    dashedDecoder (front ++ dashedSource) = some { separator := some "-" } := by
  refine if_pos ?_
  rw [String.toList_append]
  exact List.suffix_append _ _

theorem ignoresComments_dashedDecoder : IgnoresComments dashedDecoder dashedSource := by
  intro comment _
  have hbare := dashedDecoder_eq ""
  rw [String.empty_append] at hbare
  rw [dashedDecoder_eq, hbare]

theorem isRefusedAt_dashedSource : IsRefusedAt dashedDecoder dashedSource "-" 12 14 := by
  refine isRefusedAt_iff.mpr ⟨load_eq_invalidSeparator_iff.mpr ⟨{ separator := some "-" }, ?_, ?_, rfl, ?_⟩, ?_⟩ <;>
    decide +kernel

theorem isRefusedAt_comment_iff_dashedSource :
    IgnoresComments dashedDecoder dashedSource ∧
      IsCommentLine "# Größe\r\n".toList ∧
      IsRefusedAt dashedDecoder dashedSource "-" 12 14 ∧
      ¬ "name_separator".toList <:+: "# Größe\r\n".toList ∧
      IsRefusedAt dashedDecoder ("# Größe\r\n" ++ dashedSource) "-" (12 + "# Größe\r\n".utf8ByteSize) 14 ∧
      "# Größe\r\n".utf8ByteSize = 11 := by
  have hp : IsCommentLine "# Größe\r\n".toList :=
    @IsCommentLine.returnFeed " Größe".toList (isCommentChar_of_all (by decide +kernel))
  have hkey : ¬ "name_separator".toList <:+: "# Größe\r\n".toList := by decide +kernel
  have hmoved := (isRefusedAt_comment_iff ignoresComments_dashedDecoder hp isRefusedAt_dashedSource).mpr hkey
  exact ⟨ignoresComments_dashedDecoder, hp, isRefusedAt_dashedSource, hkey, hmoved, by decide +kernel⟩

/-- A comment that mentions the key draws the place to itself. -/
theorem isRefusedAt_comment_drawn :
    ¬ ∀ (decode : Decoder) (comment source separator : String) (offset length : Nat),
      IgnoresComments decode source → IsCommentLine comment.toList →
        IsRefusedAt decode source separator offset length →
          IsRefusedAt decode (comment ++ source) separator (offset + comment.utf8ByteSize) length := by
  intro hall
  have hp : IsCommentLine "# name_separator\n".toList :=
    @IsCommentLine.feed " name_separator".toList (isCommentChar_of_all (by decide +kernel))
  have hmoved := hall _ _ _ _ _ _ ignoresComments_dashedDecoder hp isRefusedAt_dashedSource
  obtain ⟨_, -, -, -, hplace⟩ := load_eq_invalidSeparator_iff.mp (isRefusedAt_iff.mp hmoved).1
  have hdrawn : byteOffset? separatorKey.toList ("# name_separator\n" ++ dashedSource).toList = some 2 := by
    decide +kernel
  rw [hdrawn] at hplace
  cases hplace

end Options

end ResourceCode
