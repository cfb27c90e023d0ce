import ResourceCode.Proofs.Emission.Opening
import ResourceCode.Proofs.Source.Literal

/-!
Quoted literals as the lexer of C# reads them. A literal stands for UTF-16 code units, and a reader that knows nothing
of the way in which text is escaped gets them back: those of the whole text from a string literal, whatever stands
behind it, and from a character literal the one code unit that there is, unless the character needs two.
-/

namespace ResourceCode.Source

/-- One code unit, or a surrogate pair above U+FFFF. -/
def codeUnits (c : Char) : List UInt16 :=
  if c.toNat < 0x10000 then [.ofNat c.toNat]
  else [.ofNat (0xD800 + (c.toNat - 0x10000) / 0x400), .ofNat (0xDC00 + (c.toNat - 0x10000) % 0x400)]

/-- The code units of a text. -/
def utf16 (s : String) : List UInt16 := s.toList.flatMap codeUnits

theorem codeUnits_of_lt {c : Char} (h : c.toNat < 0x10000) : codeUnits c = [.ofNat c.toNat] :=
  if_pos h

theorem codeUnits_ne_nil (c : Char) : codeUnits c ≠ [] := by
  unfold codeUnits
  split <;> simp

/-- A surrogate is no character, so that a pair is not taken for anything else. -/
theorem toNat_valid (c : Char) : c.toNat < 0xD800 ∨ 0xDFFF < c.toNat ∧ c.toNat < 0x110000 := c.valid

theorem ofNat_inj {m n : Nat} (hm : m < 0x10000) (hn : n < 0x10000)
    (h : UInt16.ofNat m = UInt16.ofNat n) : m = n := by
  have hnat := congrArg UInt16.toNat h
  rw [UInt16.toNat_ofNat', UInt16.toNat_ofNat'] at hnat
  omega

/-- A character can be read off its code units, whatever stands behind them. -/
theorem codeUnits_append_inj {c d : Char} {r s : List UInt16}
    (h : codeUnits c ++ r = codeUnits d ++ s) : c = d ∧ r = s := by
  have hc := toNat_valid c
  have hd := toNat_valid d
  unfold codeUnits at h
  by_cases hcs : c.toNat < 0x10000 <;> by_cases hds : d.toNat < 0x10000
  · simp only [if_pos hcs, if_pos hds, List.cons_append, List.nil_append, List.cons.injEq] at h
    exact ⟨Char.toNat_inj.mp (ofNat_inj hcs hds h.1), h.2⟩
  -- one code unit against a pair: it would have to be the surrogate that the pair begins with
  · simp only [if_pos hcs, if_neg hds, List.cons_append, List.nil_append, List.cons.injEq] at h
    have hunit := ofNat_inj hcs (by omega) h.1
    omega
  · simp only [if_neg hcs, if_pos hds, List.cons_append, List.nil_append, List.cons.injEq] at h
    have hunit := ofNat_inj (by omega) hds h.1
    omega
  · simp only [if_neg hcs, if_neg hds, List.cons_append, List.nil_append, List.cons.injEq] at h
    have hhigh := ofNat_inj (by omega) (by omega) h.1
    have hlow := ofNat_inj (by omega) (by omega) h.2.1
    exact ⟨Char.toNat_inj.mp (by omega), h.2.2⟩

theorem flatMap_codeUnits_inj {cs ds : List Char} (h : cs.flatMap codeUnits = ds.flatMap codeUnits) :
    cs = ds := by
  induction cs generalizing ds with
  | nil =>
    cases ds with
    | nil => rfl
    | cons d ds => simp [codeUnits_ne_nil] at h
  | cons c cs ih =>
    cases ds with
    | nil => simp [codeUnits_ne_nil] at h
    | cons d ds =>
      obtain ⟨rfl, htail⟩ := codeUnits_append_inj h
      rw [ih htail]

/-- A text is told by its code units. -/
theorem utf16_injective : Function.Injective utf16 :=
  fun _ _ h => String.toList_inj.mp (flatMap_codeUnits_inj h)

/-- The characters that end a line of source text. -/
def isLineEnd (c : Char) : Bool :=
  c == '\n' || c == '\r' || c.toNat == 0x85 || c.toNat == 0x2028 || c.toNat == 0x2029

/-- The value of a hexadecimal digit, in either case. -/
def hexDigit? (c : Char) : Option Nat :=
  if '0' ≤ c ∧ c ≤ '9' then some (c.toNat - 48)
  else if 'A' ≤ c ∧ c ≤ 'F' then some (c.toNat - 55)
  else if 'a' ≤ c ∧ c ≤ 'f' then some (c.toNat - 87)
  else none

/-- The code unit that four hexadecimal digits stand for. -/
def unicodeEscape? (i j k l : Char) : Option UInt16 := do
  let a ← hexDigit? i
  let b ← hexDigit? j
  let c ← hexDigit? k
  let d ← hexDigit? l
  return .ofNat (((a * 16 + b) * 16 + c) * 16 + d)

/-- The code unit that a backslash and one more character stand for. -/
def simpleEscape? : Char → Option UInt16
  | '\\' => some 0x5C
  | '"' => some 0x22
  | '\'' => some 0x27
  | '0' => some 0
  | 'n' => some 0x0A
  | 'r' => some 0x0D
  | 't' => some 0x09
  | _ => none

/-- With some code units in front of what has been read. -/
def prepend (units : List UInt16) : Option (List UInt16 × List Char) → Option (List UInt16 × List Char) :=
  Option.map fun (more, rest) => (units ++ more, rest)

/-- Reads up to the first quote that is not escaped, and gives the code units before it and the text behind it. -/
def readBody (quote : Char) : List Char → Option (List UInt16 × List Char)
  | '\\' :: 'u' :: i :: j :: k :: l :: rest =>
    (unicodeEscape? i j k l).bind fun unit => prepend [unit] (readBody quote rest)
  -- a `u` with less than four characters behind it comes here, and is refused
  | '\\' :: c :: rest => (simpleEscape? c).bind fun unit => prepend [unit] (readBody quote rest)
  | c :: rest =>
    if c = quote then some ([], rest)
    else if c = '\\' ∨ isLineEnd c then none
    else prepend (codeUnits c) (readBody quote rest)
  | [] => none

/-- Reads a regular string literal. -/
def readString : List Char → Option (List UInt16 × List Char)
  | '"' :: rest => readBody '"' rest
  | _ => none

/-- Reads a character literal: one code unit between quotes. -/
def readChar : List Char → Option (UInt16 × List Char)
  | '\'' :: rest =>
    match readBody '\'' rest with
    | some ([unit], rest) => some (unit, rest)
    | _ => none
  | _ => none

theorem hexDigit?_hexDigit (n : Nat) : hexDigit? (hexDigit (n % 16)) = some (n % 16) := by
  have h : ∀ i : Fin 16, hexDigit? (hexDigit i) = some i.val := by decide
  exact h ⟨n % 16, Nat.mod_lt n (by decide)⟩

/-- Four digits are enough for one code unit. -/
theorem unicodeEscape?_hexDigits {n : Nat} (hn : n < 0x10000) (rest : List Char) :
    ∃ i j k l, hexDigits 4 n ++ rest = i :: j :: k :: l :: rest ∧
      unicodeEscape? i j k l = some (.ofNat n) := by
  have hnumber : ((n / 16 / 16 / 16 % 16 * 16 + n / 16 / 16 % 16) * 16 + n / 16 % 16) * 16 + n % 16 =
      n := by omega
  refine ⟨_, _, _, _, rfl, ?_⟩
  simp only [unicodeEscape?, hexDigit?_hexDigit, Option.bind_eq_bind, Option.bind_some, hnumber]
  rfl

/-- A character that is no escape is read as itself, ends the literal, or breaks it. -/
theorem readBody_cons {quote c : Char} (hc : c ≠ '\\') (rest : List Char) :
    readBody quote (c :: rest) =
      if c = quote then some ([], rest)
      else if isLineEnd c then none
      else prepend (codeUnits c) (readBody quote rest) := by
  rw [readBody] <;> simp [hc]

/-- No character that is written as it is ends a line. -/
theorem isLineEnd_eq_false {c : Char} (hn : c ≠ '\n') (hr : c ≠ '\r') (hu : ¬ isUnprintable c = true) :
    isLineEnd c = false := by
  simp only [isUnprintable, Bool.or_eq_true, Bool.and_eq_true, decide_eq_true_eq, not_or] at hu
  simp only [isLineEnd, Bool.or_eq_false_iff, beq_eq_false_iff_ne]
  exact ⟨⟨⟨⟨hn, hr⟩, by omega⟩, by omega⟩, by omega⟩

/-- Whatever comes after an escaped character, it is read as that character. -/
theorem readBody_escape {quote : Char} (hq : IsQuote quote) (c : Char) (rest : List Char) :
    readBody quote (escape quote c ++ rest) = prepend (codeUnits c) (readBody quote rest) := by
  unfold escape
  split_ifs with hbackslash hn hr ht hzero hquote hunprintable
  · subst hbackslash
    rfl
  · subst hn
    rfl
  · subst hr
    rfl
  · subst ht
    rfl
  · subst hzero
    rfl
  · subst hquote
    obtain rfl | rfl := hq <;> rfl
  · have hlt := toNat_lt_of_isUnprintable hunprintable
    obtain ⟨i, j, k, l, hdigits, hunit⟩ := unicodeEscape?_hexDigits hlt rest
    rw [List.cons_append, List.cons_append, hdigits, readBody, hunit, codeUnits_of_lt hlt]
    rfl
  · rw [List.singleton_append, readBody_cons hbackslash, if_neg hquote,
      isLineEnd_eq_false hn hr hunprintable]
    rfl

/-- Quoted text is read as it was before it was escaped. -/
theorem readBody_quoted {quote : Char} (hq : IsQuote quote) (cs rest : List Char) :
    readBody quote (cs.flatMap (escape quote) ++ quote :: rest) =
      some (cs.flatMap codeUnits, rest) := by
  induction cs with
  | nil =>
    have hquote : quote ≠ '\\' := by obtain rfl | rfl := hq <;> decide
    exact (readBody_cons hquote rest).trans (if_pos rfl)
  | cons c cs ih =>
    rw [List.flatMap_cons, List.append_assoc, readBody_escape hq, ih]
    rfl

/-- A string literal is read as the code units of its text, up to its end and no further, and no other text has them. -/
theorem readString_literal (s : String) (rest : List Char) :
    readString ((literal (.string s)).toList ++ rest) = some (utf16 s, rest) ∧
      ∀ t, utf16 t = utf16 s ↔ t = s := by
  refine ⟨?_, fun t => utf16_injective.eq_iff⟩
  simp only [literal, toList_quoted, List.cons_append, List.append_assoc, List.nil_append]
  exact readBody_quoted (.inl rfl) s.toList rest

/-- Escapes end where they should, though digits and a quote stand behind them. -/
example : readString ((literal (.string "\x001\x01F\\\"n")).toList ++ ['"', '1']) =
    some ([0, 0x31, 1, 0x46, 0x5C, 0x22, 0x6E], ['"', '1']) := by
  decide +kernel

/-- A character literal is read when its character has one code unit. -/
theorem readChar_literal (c : Char) (rest : List Char) :
    readChar ((literal (.char c)).toList ++ rest) =
      if c.toNat < 0x10000 then some (.ofNat c.toNat, rest) else none := by
  have hbody := readBody_quoted (.inr rfl) [c] rest
  simp only [List.flatMap_singleton, codeUnits] at hbody
  simp only [literal, toList_quoted, List.cons_append, List.append_assoc, List.nil_append, readChar,
    List.flatMap_singleton, hbody]
  by_cases hc : c.toNat < 0x10000
  · rw [if_pos hc, if_pos hc]
  · rw [if_neg hc, if_neg hc]

end ResourceCode.Source

namespace ResourceCode.Generator

variable {w : Workshop} {more : List (TypeName × Emitter)}

/-- A literal is emitted as it is. -/
theorem emitWithin_literal (hw : w.generator.registry.entries = Registry.builtin.entries ++ more)
    (depth : Nat) (scope : Scope) (l : Literal) (base : String) :
    emitWithin (depth + 1) scope (.literal l) base w = some (.ok (.literal l), w) := by
  unfold emitWithin
  rw [emitVia_eq]
  cases hp : l.primitive? with
  | none =>
    cases l <;> cases hp
    rfl
  | some p =>
    have htype : (Value.literal l).typeName? = some p.typeName := congrArg (Option.map _) hp
    have hfind : w.generator.registry.find? p.typeName = some (.builtin (.primitive p)) :=
      Registry.find?_isSome_of_append hw (Registry.find?_builtin (.primitive p))
    rw [opening_registered rfl htype hfind]
    have hrecipe : Recipe.primitive p (.literal l) = .done (.literal l) := by
      simp [Recipe.primitive, Value.literal?, hp]
    simp [Opening.follow, runWithin, Emitter.recipe, Builtin.recipe, hrecipe, Recipe.follow, entered,
      Workshop.withGenerator, Workshop.left]

theorem depthBound_pos (heap : Heap) (v : Value) : 0 < depthBound heap v :=
  Nat.mul_pos (by decide) (Nat.pow_pos (Nat.succ_pos _))

theorem emit_literal (hw : w.generator.registry.entries = Registry.builtin.entries ++ more)
    (scope : Scope) (l : Literal) (base : String) :
    emit scope (.literal l) base w = some (.ok (.literal l), w) := by
  obtain ⟨depth, hdepth⟩ := Nat.exists_eq_succ_of_ne_zero (depthBound_pos scope.heap (.literal l)).ne'
  rw [emit, hdepth]
  exact emitWithin_literal hw depth scope l base

/-- A character is always emitted, and C# reads what is written for it as that character if it has one code unit. If it
has two, what is written is no literal. -/
theorem emit_char (hw : w.generator.registry.entries = Registry.builtin.entries ++ more)
    (scope : Scope) (c : Char) (base : String) :
    ∃ e, emit scope (.literal (.char c)) base w = some (.ok e, w) ∧
      ((∃ unit, Source.readChar (Source.expr e).toList = some (unit, []) ∧
        Source.codeUnits c = [unit]) ↔ c.toNat < 0x10000) := by
  refine ⟨.literal (.char c), emit_literal hw scope (.char c) base, ?_⟩
  have hread := Source.readChar_literal c []
  rw [List.append_nil] at hread
  rw [Source.expr, hread]
  constructor
  · rintro ⟨unit, hunit, -⟩
    by_contra hc
    rw [if_neg hc] at hunit
    cases hunit
  · intro hc
    rw [if_pos hc]
    exact ⟨_, rfl, Source.codeUnits_of_lt hc⟩

def charWorkshop : Workshop where
  current := { name := "InitializeResources" }
  target := { name := "Dictionary1" }

/-- The line separator is written as an escape. -/
theorem emit_char_lineSeparator :
    ∃ e, emit {} (.literal (.char '\u2028')) "separator" charWorkshop = some (.ok e, charWorkshop) ∧
      ∃ unit, Source.readChar (Source.expr e).toList = some (unit, []) ∧
        Source.codeUnits '\u2028' = [unit] := by
  have hregistry : charWorkshop.generator.registry.entries = Registry.builtin.entries ++ [] :=
    (List.append_nil _).symm
  obtain ⟨e, he, hread⟩ := emit_char hregistry {} '\u2028' "separator"
  exact ⟨e, he, hread.mpr (by decide)⟩

/-- An emoji is written between single quotes as it is, although it has two code units. -/
theorem emit_char_emoji :
    ¬ ∀ (scope : Scope) (c : Char) (base : String) (w w' : Workshop) (e : Expr),
      emit scope (.literal (.char c)) base w = some (.ok e, w') →
      ∃ unit, Source.readChar (Source.expr e).toList = some (unit, []) ∧
        Source.codeUnits c = [unit] := by
  intro hall
  have hregistry : charWorkshop.generator.registry.entries = Registry.builtin.entries ++ [] :=
    (List.append_nil _).symm
  have hemit := emit_literal hregistry {} (.char '😀') "emoji"
  obtain ⟨unit, hunit, -⟩ := hall {} '😀' "emoji" charWorkshop charWorkshop _ hemit
  have hread : Source.readChar (Source.expr (.literal (.char '😀'))).toList = none := by
    decide +kernel
  cases hread.symm.trans hunit

end ResourceCode.Generator
