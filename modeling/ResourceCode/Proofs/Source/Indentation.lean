import ResourceCode.Proofs.Page.Shifting
import ResourceCode.Proofs.Source.LineEnds

/-!
The indentation of classes. A class is laid out by a balanced program, and no line of it that is not left blank is empty.
A class in a namespace is thus its own text one level deeper, between the braces of the namespace.
-/

namespace ResourceCode.Source

open Text Layout

/-- The layout of a method ends at the level it begins at. -/
theorem balanced_methodLayout (m : Method) : Balanced (methodLayout m) := by
  have hdoc : Balanced (m.doc.map documentation).toList := by
    cases m.doc <;> rfl
  exact hdoc.append ((balanced_lines statement m.body).block (methodHeader m))

theorem balanced_methodLayouts (ms : List Method) : Balanced (methodLayouts ms) := by
  fun_induction methodLayouts ms with
  | case1 => rfl
  | case2 m => exact balanced_methodLayout m
  | case3 m rest hne ih => exact (balanced_methodLayout m).append ih

theorem lineTextsAll_methodLayout (m : Method) :
    lineTextsAll (methodLayout m) = methodHeader m :: m.body.map statement := by
  have hdoc : lineTextsAll (m.doc.map documentation).toList = [] := by
    cases m.doc <;> rfl
  simp [methodLayout, lineTextsAll_append, hdoc, lineTextsAll, lineTexts, lineTextsAll_lines]

theorem lineTextsAll_methodLayouts (ms : List Method) :
    lineTextsAll (methodLayouts ms) = ms.flatMap fun m => methodHeader m :: m.body.map statement := by
  fun_induction methodLayouts ms with
  | case1 => rfl
  | case2 m => simp [lineTextsAll_methodLayout]
  | case3 m rest hne ih => simp [lineTextsAll_append, lineTextsAll, lineTexts, lineTextsAll_methodLayout, ih]

/-- A text without line feeds in its names fills one line. -/
theorem LineEndsFrom.fillsLine {names : List String} {s : String} (h : LineEndsFrom names s) (hs : s ≠ "")
    (hnames : ∀ name ∈ names, '\n' ∉ name.toList) : FillsLine s := by
  refine ⟨hs, fun hmem => ?_⟩
  obtain ⟨name, hname, hin⟩ := h '\n' hmem rfl
  exact hnames name hname hin

theorem statement_ne_empty (s : Statement) : statement s ≠ "" := by
  cases s with
  | declare name t value => cases value <;> simp [statement]
  | assign target value => simp [statement]
  | expr e => simp [statement]
  | ret value => cases value <;> simp [statement]

theorem methodHeader_ne_empty (m : Method) : methodHeader m ≠ "" := by
  simp [methodHeader]

theorem fillsLine_classHeader {c : Class} (hc : ∀ name ∈ c.vocabulary, '\n' ∉ name.toList) :
    FillsLine (classHeader c) := by
  have hpartial : LineEndsFrom c.vocabulary (if c.isPartial then "partial " else "") := by
    split <;> exact lineEndsFrom_fixed _
  have hname : LineEndsFrom c.vocabulary c.name := lineEndsFrom_name List.mem_cons_self
  have hheader : LineEndsFrom c.vocabulary (classHeader c) := by
    unfold classHeader
    simp only [lineEndsFrom_append, and_assoc]
    refine ⟨lineEndsFrom_of_oneLine (oneLine_visibility _), lineEndsFrom_fixed _, hpartial,
      lineEndsFrom_fixed _, hname, ?_⟩
    cases hbase : c.base with
    | none => exact lineEndsFrom_fixed _
    | some base =>
      have hmem : base ∈ c.vocabulary := by simp [Class.vocabulary, hbase]
      exact lineEndsFrom_append.mpr ⟨lineEndsFrom_fixed _, lineEndsFrom_name hmem⟩
  exact hheader.fillsLine (by simp [classHeader]) hc

/-- Every line of a class has a text, and no line feed in it. -/
theorem fillsLine_bareClassLayout {c : Class} (hc : ∀ name ∈ c.vocabulary, '\n' ∉ name.toList) :
    ∀ s ∈ lineTextsAll [bareClassLayout c], FillsLine s := by
  have hmethod : ∀ m ∈ c.methods, ∀ name ∈ m.vocabulary, '\n' ∉ name.toList := fun m hm name hname =>
    hc name (List.mem_append_right _ (List.mem_flatMap.mpr ⟨m, hm, hname⟩))
  intro s hs
  simp only [bareClassLayout, lineTextsAll, lineTexts, List.append_nil, lineTextsAll_methodLayouts,
    List.mem_cons, List.mem_flatMap, List.mem_map] at hs
  obtain rfl | ⟨m, hm, rfl | ⟨t, ht, rfl⟩⟩ := hs
  · exact fillsLine_classHeader hc
  · exact (lineEndsFrom_methodHeader m).fillsLine (methodHeader_ne_empty m) fun name hname =>
      hmethod m hm name (List.mem_append_left _ hname)
  · exact (lineEndsFrom_statement t).fillsLine (statement_ne_empty t) fun name hname =>
      hmethod m hm name (List.mem_append_right _ (List.mem_flatMap.mpr ⟨t, ht, hname⟩))

/-- The lines in front of the class in a namespace. -/
def namespaceLines (c : Class) (name : String) : List String :=
  c.usings.map (fun used => "using " ++ used ++ ";") ++ (if c.usings.isEmpty then [] else [""]) ++
    ["namespace " ++ name, "\x7b"]

/-- The using lines stand in front, with a blank line behind them if there are any. -/
theorem writeAll_usings (c : Class) (p : Page) : writeAll
    (c.usings.map (fun used => .line ("using " ++ used ++ ";")) ++ [.onlyIf (!c.usings.isEmpty) [.blank]]) p =
      p.write (c.usings.map (fun used => spaces (4 * p.level) ++ ("using " ++ used ++ ";")) ++
        if c.usings.isEmpty then [] else [""]) := by
  rw [writeAll_append, Page.writeAll_lines (fun used => "using " ++ used ++ ";")]
  cases c.usings.isEmpty <;> simp [writeAll, Layout.write, Page.blank_eq_write]

/-- On a deeper level a class has the text that it has on the outermost one, shifted. -/
theorem writeAll_bareClassLayout {c : Class} (hc : ∀ word ∈ c.vocabulary, '\n' ∉ word.toList) (n : Nat) (t : String) :
    writeAll [bareClassLayout c] ⟨n, t⟩ = ⟨n, t ++ shiftFilled n (writeAll [bareClassLayout c] {}).text⟩ := by
  have hfills := fillsLine_bareClassLayout hc
  have hbalanced : Balanced [bareClassLayout c] := (balanced_methodLayouts c.methods).block (classHeader c)
  have hshifts := hbalanced.shifts 0
  rw [hshifts.eq_shift (fun s hs => (hfills s hs).2), hshifts.shift_eq_shiftFilled hfills]

/-- A class in a namespace is the class without it, one level deeper. -/
theorem classText_namespace {c : Class} {name : String} (hname : c.namespaceName = some name)
    (hc : ∀ word ∈ c.vocabulary, '\n' ∉ word.toList) :
    classText c = unlines (namespaceLines c name) ++
      shiftFilled 1 (classText { c with usings := [], namespaceName := none }) ++ unlines ["\x7d"] := by
  have hlayout : classLayout c = c.usings.map (fun used => .line ("using " ++ used ++ ";")) ++
      [.onlyIf (!c.usings.isEmpty) [.blank]] ++ [.braced ("namespace " ++ name) [bareClassLayout c]] := by
    simp [classLayout, hname]
  have hbare : classText { c with usings := [], namespaceName := none } =
      (writeAll [bareClassLayout c] {}).text := rfl
  have hblock (p : Page) := Page.braced_eq_write (writeAll_bareClassLayout hc (p.level + 1)
    ((p.line ("namespace " ++ name)).line "\x7b").text)
  rw [classText, hlayout, writeAll_append, writeAll_usings, writeAll, writeAll, Layout.write, hblock, hbare]
  simp only [namespaceLines, shiftFilled, unlines_append, Page.level_write, Page.text_write, Nat.mul_zero, spaces_zero,
    String.empty_append, String.append_assoc, Nat.zero_add]

/-- What a balanced program writes on a level is what it writes on an empty page, moved to the right by that level, the
blank lines apart. It leaves the level as it was, and its blocks close under their headers. So a class in a namespace is
the class alone, a level deeper, between the lines that open and close the namespace. -/
theorem writeAll_eq_shift :
    (∀ steps : List Layout, Balanced steps → (∀ s ∈ lineTextsAll steps, '\n' ∉ s.toList) →
      (∀ (n : Nat) (text : String),
        writeAll steps { level := n, text } =
          { level := n, text := text ++ shift n (blanksAll steps) (writeAll steps {}).text }) ∧
      (feedLines (writeAll steps {}).text).length = (blanksAll steps).length ∧
      ∀ (header : String) (body : List Layout), Occurs (.braced header body) steps → ∀ p : Page, ∃ ls,
        (Layout.braced header body).write p =
          p.write ([spaces (4 * p.level) ++ header, spaces (4 * p.level) ++ "\x7b"] ++ ls ++ [spaces (4 * p.level) ++ "\x7d"])) ∧
    ∀ (c : Class) (name : String), c.namespaceName = some name → (∀ word ∈ c.vocabulary, '\n' ∉ word.toList) →
      classText c = unlines (namespaceLines c name) ++
        shiftFilled 1 (classText { c with usings := [], namespaceName := none }) ++ unlines ["\x7d"] := by
  constructor
  · intro steps hbalanced htexts
    have hshifts := hbalanced.shifts 0
    refine ⟨hshifts.eq_shift htexts, hshifts.length_feedLines htexts, ?_⟩
    intro header body hblock p
    exact (hbalanced.of_occurs hblock).exists_write_braced header p
  · intro c name hname hc
    exact classText_namespace hname hc

def dictionaryBody : List Layout :=
  [.comment "//" "Keys", .each [[.line "Accent", .indent, .line "brush", .dedent], [.blank]],
    .onlyIf true [.blank, .line "return;"]]

/-- Steps of every kind, with blocks and blank lines inside one another. -/
def dictionarySteps : List Layout :=
  [.line "using Microsoft.UI.Xaml;", .blank,
    .braced "namespace Demo" [.documentation "The resources\nof the page.", .braced "class Dictionary1" dictionaryBody]]

def dictionaryClass : Class :=
  { name := "Dictionary1", namespaceName := some "Demo", usings := ["Microsoft.UI.Xaml"]
    base := some "ResourceDictionary"
    methods := [captionMethod, { captionMethod with name := "Connect", doc := some "Connects\nthe resources." }] }

theorem writeAll_eq_shift_dictionary :
    (Balanced dictionarySteps ∧ (∀ s ∈ lineTextsAll dictionarySteps, '\n' ∉ s.toList) ∧
      writeAll dictionarySteps { level := 2, text := "// Generated\n" } =
        { level := 2, text := "// Generated\n" ++
          shift 2 (blanksAll dictionarySteps) (writeAll dictionarySteps {}).text } ∧
      Occurs (.braced "class Dictionary1" dictionaryBody) dictionarySteps ∧
      ∃ ls, (Layout.braced "class Dictionary1" dictionaryBody).write { level := 3 } =
        Page.write { level := 3 }
          ([spaces 12 ++ "class Dictionary1", spaces 12 ++ "\x7b"] ++ ls ++ [spaces 12 ++ "\x7d"])) ∧
    dictionaryClass.namespaceName = some "Demo" ∧ (∀ word ∈ dictionaryClass.vocabulary, '\n' ∉ word.toList) ∧
      classText dictionaryClass = unlines (namespaceLines dictionaryClass "Demo") ++
        shiftFilled 1 (classText { dictionaryClass with usings := [], namespaceName := none }) ++ unlines ["\x7d"] := by
  obtain ⟨hsteps, hclass⟩ := writeAll_eq_shift
  have hbalanced : Balanced dictionarySteps := by decide
  have htexts : ∀ s ∈ lineTextsAll dictionarySteps, '\n' ∉ s.toList := by decide
  have hblock : Occurs (.braced "class Dictionary1" dictionaryBody) dictionarySteps :=
    .braced (.tail _ (.tail _ (.head _))) (.here (.tail _ (.head _)))
  have hwords : ∀ word ∈ dictionaryClass.vocabulary, '\n' ∉ word.toList := by decide
  obtain ⟨hshift, -, hblocks⟩ := hsteps dictionarySteps hbalanced htexts
  exact ⟨⟨hbalanced, htexts, hshift 2 _, hblock, hblocks _ _ hblock _⟩, rfl, hwords,
    hclass dictionaryClass "Demo" rfl hwords⟩

end ResourceCode.Source
