import ResourceCode.Text.Characters

/-!
Texts. The lines of a text: a line ends at a line feed, a carriage return right before the line feed belongs
to the ending, and text after the last line feed is a line of its own only when there is some. Texts as they
are listed for inspection, between double quotes. The search for a mark. And identifiers out of arbitrary
text: characters that are neither alphanumeric nor an underscore become underscores, and text that is empty or
begins with an ASCII digit gets an underscore in front.
-/

namespace ResourceCode

namespace Text

/-- Without the carriage return that a line, read backwards, begins with. -/
def dropReturn : List Char → List Char
  | '\r' :: rest => rest
  | line => line

/-- The lines of `rest` when `line` has been read since the last ending, backwards. -/
def linesAfter (line : List Char) : List Char → List (List Char)
  | [] => if line.isEmpty then [] else [line.reverse]
  | '\n' :: rest => (dropReturn line).reverse :: linesAfter [] rest
  | c :: rest => linesAfter (c :: line) rest

def lines (s : String) : List String := (linesAfter [] s.toList).map String.ofList

def quotedChar (c : Char) : List Char :=
  if c = '"' ∨ c = '\\' then ['\\', c]
  else if c = '\n' then ['\\', 'n']
  else if c = '\r' then ['\\', 'r']
  else if c = '\t' then ['\\', 't']
  else if c = Char.ofNat 0 then ['\\', '0']
  else if isHidden c then
    '\\' :: 'u' :: Char.ofNat 0x7B :: (Nat.toDigits 16 c.toNat ++ [Char.ofNat 0x7D])
  else [c]

def quoted (s : String) : String :=
  String.ofList ('"' :: (s.toList.flatMap quotedChar ++ ['"']))

/-- What stands before and after the last `mark`. -/
def splitAtLast (mark : Char) : List Char → Option (List Char × List Char)
  | [] => none
  | c :: rest =>
    match splitAtLast mark rest with
    | some (before, after) => some (c :: before, after)
    | none => if c = mark then some ([], rest) else none

def splitLast (mark : Char) (s : String) : Option (String × String) :=
  (splitAtLast mark s.toList).map fun (before, after) => (String.ofList before, String.ofList after)

/-- The number of UTF-8 bytes before the first occurrence of `phrase`. -/
def byteOffset? (phrase : List Char) : List Char → Option Nat
  | [] => if phrase.isEmpty then some 0 else none
  | c :: rest =>
    if phrase.isPrefixOf (c :: rest) then some 0
    else (byteOffset? phrase rest).map (· + c.utf8Size)

/-- There is nothing to split at exactly when the mark does not occur. -/
theorem splitAtLast_eq_none_iff {mark : Char} {cs : List Char} :
    splitAtLast mark cs = none ↔ mark ∉ cs := by
  induction cs with
  | nil => simp [splitAtLast]
  | cons c rest ih =>
    rw [splitAtLast, List.mem_cons, not_or, ← ih]
    cases splitAtLast mark rest with
    | some parts => simp
    | none =>
      by_cases h : c = mark
      · simp [h]
      · simp [h, Ne.symm h]

/-- A split is one at the last mark: none is left in what stands behind it. -/
theorem splitAtLast_eq_some {mark : Char} {cs before after : List Char}
    (h : splitAtLast mark cs = some (before, after)) :
    cs = before ++ mark :: after ∧ mark ∉ after := by
  induction cs generalizing before with
  | nil => simp [splitAtLast] at h
  | cons c rest ih =>
    rw [splitAtLast] at h
    cases hrest : splitAtLast mark rest with
    | some parts =>
      simp only [hrest, Option.some.injEq, Prod.mk.injEq] at h
      obtain ⟨rfl, rfl⟩ := h
      obtain ⟨happend, hmem⟩ := @ih parts.1 hrest
      exact ⟨by rw [happend]; rfl, hmem⟩
    | none =>
      by_cases hc : c = mark
      · simp only [hrest, hc, if_pos, Option.some.injEq, Prod.mk.injEq] at h
        obtain ⟨rfl, rfl⟩ := h
        exact ⟨by rw [hc]; rfl, splitAtLast_eq_none_iff.1 hrest⟩
      · simp [hrest, hc] at h

def isWordChar (c : Char) : Bool := isAlphanumeric c || c == '_'

def wordChar (c : Char) : Char := if isWordChar c then c else '_'

/-- Empty text and text that begins with an ASCII digit cannot begin an identifier. -/
def needsLead : List Char → Bool
  | [] => true
  | c :: _ => c.isDigit

def identifierChars (cs : List Char) : List Char :=
  let kept := cs.map wordChar
  if needsLead kept then '_' :: kept else kept

def identifier (s : String) : String := String.ofList (identifierChars s.toList)

@[simp] theorem isWordChar_underscore : isWordChar '_' = true := rfl

/-- What becomes of a character belongs to a word. -/
@[simp] theorem isWordChar_wordChar (c : Char) : isWordChar (wordChar c) = true := by
  by_cases h : isWordChar c <;> simp [wordChar, h]

/-- Characters that belong to a word stay as they are. -/
theorem wordChar_eq_self {c : Char} (h : isWordChar c = true) : wordChar c = c := by
  simp [wordChar, h]

@[simp] theorem toList_identifier (s : String) :
    (identifier s).toList = identifierChars s.toList := by
  simp [identifier]

end Text

end ResourceCode
