import ResourceCode.Proofs.Page.Lines

/-!
Writing steps on deeper levels. A program whose steps to the right and back pair up in every body ends on the level
where it began, and what it writes there is what it writes on an empty page, with the spaces (4 * of) that level in front of
each line that is not left blank.
-/

namespace ResourceCode

open Text

namespace Layout

open Page

mutual

/-- The level on which a step ends, counted from the one on which its body began; there is none below that. -/
def levelAfter : Layout → Nat → Option Nat
  | indent, d => some (d + 1)
  | dedent, 0 => none
  | dedent, d + 1 => some d
  | braced _ body, d => if levelAfterAll body 0 = some 0 then some d else none
  | onlyIf _ body, d => if levelAfterAll body 0 = some 0 then some d else none
  | each bodies, d => if levelsAfterEach bodies then some d else none
  | _, d => some d

def levelAfterAll : List Layout → Nat → Option Nat
  | [], d => some d
  | step :: rest, d => (step.levelAfter d).bind (levelAfterAll rest)

/-- Whether each body ends on the level on which it began. -/
def levelsAfterEach : List (List Layout) → Bool
  | [] => true
  | body :: rest => decide (levelAfterAll body 0 = some 0) && levelsAfterEach rest

end

/-- In the program and in each body in it the steps to the right and back pair up, and none goes back further than to
the level on which the body began. -/
def Balanced (steps : List Layout) : Prop := levelAfterAll steps 0 = some 0

instance (steps : List Layout) : Decidable (Balanced steps) :=
  inferInstanceAs (Decidable (_ = _))

mutual

/-- Which of the lines that a step writes are left blank. -/
def blanks : Layout → List Bool
  | line _ => [false]
  | blank => [true]
  | indent => []
  | dedent => []
  | comment _ _ => [false]
  | documentation s => List.replicate ((Text.lines s).length + 2) false
  | braced _ body => [false, false] ++ blanksAll body ++ [false]
  | onlyIf condition body => if condition then blanksAll body else []
  | each bodies => blanksEach bodies

def blanksAll : List Layout → List Bool
  | [] => []
  | step :: rest => step.blanks ++ blanksAll rest

def blanksEach : List (List Layout) → List Bool
  | [] => []
  | body :: rest => blanksAll body ++ blanksEach rest

end

mutual

/-- The texts of the lines that a step writes, those of documentation apart. -/
def lineTexts : Layout → List String
  | line s => [s]
  | comment mark s => [mark ++ " " ++ s]
  | braced header body => header :: lineTextsAll body
  | onlyIf _ body => lineTextsAll body
  | each bodies => lineTextsEach bodies
  | _ => []

def lineTextsAll : List Layout → List String
  | [] => []
  | step :: rest => step.lineTexts ++ lineTextsAll rest

def lineTextsEach : List (List Layout) → List String
  | [] => []
  | body :: rest => lineTextsAll body ++ lineTextsEach rest

end

/-- The steps of a program, with those of the bodies in it. -/
inductive Occurs (step : Layout) : List Layout → Prop
  | here {steps} : step ∈ steps → Occurs step steps
  | braced {steps header body} : .braced header body ∈ steps → Occurs step body → Occurs step steps
  | onlyIf {steps condition body} : .onlyIf condition body ∈ steps → Occurs step body → Occurs step steps
  | each {steps bodies body} : .each bodies ∈ steps → body ∈ bodies → Occurs step body → Occurs step steps

/-- Every line of a text with the spaces (4 * of) a level in front, but for those that are marked as blank. -/
def shift (n : Nat) (blanks : List Bool) (text : String) : String :=
  unlines (List.zipWith (fun blank l => if blank then l else spaces (4 * n) ++ l) blanks (feedLines text))

section

variable {as bs body : List Layout}

/-- Programs behind one another change the level one after the other. -/
theorem levelAfterAll_append (as bs : List Layout) (d : Nat) :
    levelAfterAll (as ++ bs) d = (levelAfterAll as d).bind (levelAfterAll bs) := by
  induction as generalizing d with
  | nil => rfl
  | cons step rest ih =>
    rw [List.cons_append, levelAfterAll, levelAfterAll, Option.bind_assoc]
    congr 1
    funext e
    exact ih e

/-- Balanced programs can be put behind one another. -/
theorem Balanced.append (ha : Balanced as) (hb : Balanced bs) : Balanced (as ++ bs) := by
  rw [Balanced, levelAfterAll_append, ha]
  exact hb

/-- Writing lines is balanced. -/
theorem balanced_lines {α : Type} (f : α → String) (items : List α) :
    Balanced (items.map fun a => .line (f a)) := by
  induction items with
  | nil => rfl
  | cons a rest ih => exact ih

/-- So is a block around a balanced program. -/
theorem Balanced.block (h : Balanced body) (header : String) : Balanced [braced header body] :=
  congrArg (Option.bind · (levelAfterAll [])) (if_pos h)

theorem lineTextsAll_append (as bs : List Layout) :
    lineTextsAll (as ++ bs) = lineTextsAll as ++ lineTextsAll bs := by
  induction as with
  | nil => rfl
  | cons step rest ih => rw [List.cons_append, lineTextsAll, lineTextsAll, ih, List.append_assoc]

theorem lineTextsAll_lines {α : Type} (f : α → String) (items : List α) :
    lineTextsAll (items.map fun a => .line (f a)) = items.map f := by
  induction items with
  | nil => rfl
  | cons a rest ih => rw [List.map_cons, lineTextsAll, ih, lineTexts, List.singleton_append, List.map_cons]

/-- Programs behind one another write one after the other. -/
theorem writeAll_append (as bs : List Layout) (p : Page) : writeAll (as ++ bs) p = writeAll bs (writeAll as p) := by
  induction as generalizing p with
  | nil => rfl
  | cons step rest ih => exact ih (step.write p)

end

variable {f g : Page → Page} {k k' k'' : Nat} {blanks blanks' : List Bool} {texts texts' : List String}

/-- A text on one line, and not an empty one. -/
def FillsLine (s : String) : Prop := s ≠ "" ∧ '\n' ∉ s.toList

instance (s : String) : Decidable (FillsLine s) := inferInstanceAs (Decidable (_ ∧ _))

/-- A line that is left blank, or one with the spaces (4 * of) a level in front. -/
def shiftRow (n : Nat) (row : Option String) : String := (row.map (spaces (4 * n) ++ ·)).getD ""

/-- On every page from one level on, and to another, the same lines are added, shifted by the levels in between. -/
def Shifts (f : Page → Page) (k k' : Nat) (blanks : List Bool) (texts : List String) : Prop :=
  ∃ rows : List (Option String), rows.map Option.isNone = blanks ∧
    (∀ l, some l ∈ rows → ∃ j s, l = spaces (4 * j) ++ s ∧ (s ∈ texts ∨ FillsLine s)) ∧
    ∀ n t, f ⟨n + k, t⟩ = (Page.mk (n + k') t).write (rows.map (shiftRow n))

theorem shifts_skip (h : ∀ n t, f ⟨n + k, t⟩ = ⟨n + k', t⟩) : Shifts f k k' [] texts := by
  refine ⟨[], rfl, nofun, ?_⟩
  intro n t
  rw [h, List.map_nil, write_nil]

theorem shifts_lines {ls : List String} (h : ∀ s ∈ ls, s ∈ texts ∨ FillsLine s)
    (hf : ∀ p, f p = p.write (ls.map (spaces (4 * p.level) ++ ·))) :
    Shifts f k k (List.replicate ls.length false) texts := by
  refine ⟨ls.map fun s => some (spaces (4 * k) ++ s), ?_, ?_, ?_⟩
  · simp [Function.comp_def]
  · intro l hl
    obtain ⟨s, hs, heq⟩ := List.mem_map.mp hl
    exact ⟨k, s, (Option.some.inj heq).symm, h s hs⟩
  · intro n t
    simp [hf, shiftRow, Nat.mul_add, spaces_add, String.append_assoc, Function.comp_def]

/-- A line is shifted when its text fills one line, or is among the admitted ones. -/
theorem shifts_line {s : String} (hs : s ∈ texts ∨ FillsLine s) (hf : ∀ p, f p = p.line s) :
    Shifts f k k [false] texts :=
  shifts_lines (List.forall_mem_singleton.mpr hs) fun p => (hf p).trans (line_eq_write s)

/-- A blank line is shifted without anything in it. -/
theorem shifts_blank : Shifts Page.blank k k [true] texts :=
  ⟨[none], rfl, by simp, fun _ _ => blank_eq_write⟩

theorem Shifts.mono (h : Shifts f k k' blanks texts) (ht : ∀ s ∈ texts, s ∈ texts') :
    Shifts f k k' blanks texts' := by
  obtain ⟨rows, hblanks, hrows, hf⟩ := h
  refine ⟨rows, hblanks, ?_, hf⟩
  intro l hl
  obtain ⟨j, s, heq, hs⟩ := hrows l hl
  exact ⟨j, s, heq, hs.imp_left (ht s)⟩

/-- Programs behind one another are shifted together. -/
theorem Shifts.comp (hf : Shifts f k k' blanks texts) (hg : Shifts g k' k'' blanks' texts) :
    Shifts (fun p => g (f p)) k k'' (blanks ++ blanks') texts := by
  obtain ⟨rows, hblanks, hrows, hf⟩ := hf
  obtain ⟨rows', hblanks', hrows', hg⟩ := hg
  refine ⟨rows ++ rows', by rw [List.map_append, hblanks, hblanks'], ?_, ?_⟩
  · intro l hl
    exact (List.mem_append.mp hl).elim (hrows l) (hrows' l)
  · intro n t
    have hsecond := hg n (t ++ unlines (rows.map (shiftRow n)))
    dsimp only
    rw [hf, Page.write, hsecond, List.map_append, ← write_write]
    rfl

/-- Documentation is shifted line by line. -/
theorem shifts_documentation (s : String) :
    Shifts (·.documentation s) k k (documentation s).blanks texts := by
  have hmark (l : String) (hl : '\n' ∉ l.toList) : FillsLine ("/// " ++ l) := by
    simp [FillsLine, hl]
  have hlines : ∀ l ∈ summaryLines s, '\n' ∉ l.toList := by
    intro l hl
    simp only [summaryLines, List.cons_append, List.mem_cons, List.mem_append, List.not_mem_nil,
      or_false] at hl
    obtain rfl | hl | rfl := hl
    · decide
    · exact newline_not_mem_lines s l hl
    · decide
  have h : Shifts (·.documentation s) k k
      (List.replicate ((summaryLines s).map ("/// " ++ ·)).length false) texts := by
    refine shifts_lines ?_ fun p => ?_
    · intro l hl
      obtain ⟨m, hm, rfl⟩ := List.mem_map.mp hl
      exact .inr (hmark m (hlines m hm))
    · simp [documentation_eq_write, commentMark, String.append_assoc, Function.comp_def]
  simpa [summaryLines, blanks] using h

/-- A block is shifted when its body is, one level further in. -/
theorem shifts_braced {f : Page → Page} (header : String)
    (hf : Shifts f (k + 1) (k + 1) blanks texts) :
    Shifts (·.braced header f) k k ([false, false] ++ blanks ++ [false]) (header :: texts) := by
  have hheader : Shifts (·.line header) k k [false] (header :: texts) :=
    shifts_line (.inl List.mem_cons_self) fun _ => rfl
  have hopening : Shifts (·.line "\x7b") k k [false] (header :: texts) :=
    shifts_line (.inr (by decide)) fun _ => rfl
  have hindent : Shifts Page.indent k (k + 1) [] (header :: texts) := shifts_skip fun _ _ => rfl
  have hbody := hf.mono fun s hs => List.mem_cons_of_mem header hs
  have hdedent : Shifts Page.dedent (k + 1) k [] (header :: texts) := shifts_skip fun _ _ => rfl
  have hclosing : Shifts (·.line "\x7d") k k [false] (header :: texts) :=
    shifts_line (.inr (by decide)) fun _ => rfl
  exact (hheader.comp hopening).comp hindent |>.comp hbody |>.comp (hdedent.comp hclosing)

variable {d d' : Nat} {steps body : List Layout} {step : Layout}

theorem some_of_ite {p : Prop} [Decidable p] (h : (if p then some d else none) = some d') : p ∧ d' = d := by
  split at h
  · exact ⟨‹p›, (Option.some.inj h).symm⟩
  · cases h

mutual

/-- Each step is shifted, by induction on the steps inside it. -/
theorem shifts_write : ∀ (step : Layout) {k d e : Nat}, step.levelAfter d = some e →
    Shifts step.write (k + d) (k + e) step.blanks step.lineTexts
  | line s, k, d, e, h => by
    cases h
    exact shifts_line (.inl List.mem_cons_self) fun _ => rfl
  | blank, k, d, e, h => by
    cases h
    exact shifts_blank
  | indent, k, d, e, h => by
    cases h
    exact shifts_skip fun _ _ => rfl
  | dedent, k, d + 1, e, h => by
    cases h
    exact shifts_skip fun _ _ => rfl
  | comment mark s, k, d, e, h => by
    cases h
    exact shifts_line (.inl List.mem_cons_self) fun _ => rfl
  | documentation s, k, d, e, h => by
    cases h
    exact shifts_documentation s
  | braced header body, k, d, e, h => by
    obtain ⟨hbody, rfl⟩ := some_of_ite h
    -- the steps of the body are counted from the level on which it begins
    exact shifts_braced header (shifts_writeAll (k := k + e + 1) (d := 0) (e := 0) body hbody)
  | onlyIf condition body, k, d, e, h => by
    obtain ⟨hbody, rfl⟩ := some_of_ite h
    cases condition with
    | true => exact shifts_writeAll (k := k + e) (d := 0) (e := 0) body hbody
    | false => exact shifts_skip fun _ _ => rfl
  | each bodies, k, d, e, h => by
    obtain ⟨hbodies, rfl⟩ := some_of_ite h
    exact shifts_writeEach (k := k + e) bodies hbodies

/-- So is a program, from the level it begins at to the level it ends at. -/
theorem shifts_writeAll : ∀ (steps : List Layout) {k d e : Nat}, levelAfterAll steps d = some e →
    Shifts (writeAll steps) (k + d) (k + e) (blanksAll steps) (lineTextsAll steps)
  | [], k, d, e, h => by
    cases h
    exact shifts_skip fun _ _ => rfl
  | step :: rest, k, d, e, h => by
    obtain ⟨l, hstep, hrest⟩ := Option.bind_eq_some_iff.mp h
    have hfirst := (shifts_write (k := k) step hstep).mono fun s hs => List.mem_append_left (lineTextsAll rest) hs
    have hmore := (shifts_writeAll (k := k) rest hrest).mono fun s hs => List.mem_append_right step.lineTexts hs
    exact hfirst.comp hmore

theorem shifts_writeEach : ∀ (bodies : List (List Layout)) {k : Nat}, levelsAfterEach bodies = true →
    Shifts (writeEach bodies) k k (blanksEach bodies) (lineTextsEach bodies)
  | [], k, _ => shifts_skip fun _ _ => rfl
  | body :: rest, k, h => by
    obtain ⟨hbody, hrest⟩ := Bool.and_eq_true_iff.mp h
    have hfirst := (shifts_writeAll (k := k) (d := 0) (e := 0) body (of_decide_eq_true hbody)).mono fun s hs =>
      List.mem_append_left (lineTextsEach rest) hs
    have hmore := (shifts_writeEach (k := k) rest hrest).mono fun s hs =>
      List.mem_append_right (lineTextsAll body) hs
    exact hfirst.comp hmore

end

theorem Balanced.shifts (h : Balanced steps) (k : Nat) :
    Shifts (writeAll steps) k k (blanksAll steps) (lineTextsAll steps) :=
  shifts_writeAll (k := k) (d := 0) steps h

/-- Every line that is not empty with the spaces (4 * of) a level in front. -/
def shiftFilled (n : Nat) (text : String) : String :=
  unlines ((feedLines text).map fun l => if l = "" then l else spaces (4 * n) ++ l)

/-- The lines of the text that is written on an empty page are the rows. -/
theorem Shifts.exists_rows (h : Shifts f 0 0 blanks texts) (ht : ∀ s ∈ texts, '\n' ∉ s.toList) :
    ∃ rows : List (Option String), rows.map Option.isNone = blanks ∧
      (∀ l, some l ∈ rows → ∃ j s, l = spaces (4 * j) ++ s ∧ (s ∈ texts ∨ FillsLine s)) ∧
      feedLines (f {}).text = rows.map (·.getD "") ∧
      ∀ n t, f ⟨n, t⟩ = (Page.mk n t).write (rows.map (shiftRow n)) := by
  obtain ⟨rows, hblanks, hrows, hf⟩ := h
  refine ⟨rows, hblanks, hrows, ?_, hf⟩
  have hzero : rows.map (shiftRow 0) = rows.map (·.getD "") := by
    apply List.map_congr_left
    intro row _
    cases row <;> simp [shiftRow]
  have hpage : f {} = (Page.mk 0 "").write (rows.map (shiftRow 0)) := hf 0 ""
  rw [hpage, text_write, String.empty_append, hzero]
  apply feedLines_unlines
  intro l hl
  obtain ⟨row, hrow, rfl⟩ := List.mem_map.mp hl
  cases row with
  | none => exact List.not_mem_nil
  | some l =>
    obtain ⟨j, s, rfl, hs⟩ := hrows l hrow
    have hs : '\n' ∉ s.toList := hs.elim (ht s) And.right
    simp [toList_spaces, hs]

/-- What is written on a level is what is written on an empty page, shifted. -/
theorem Shifts.eq_shift (h : Shifts f 0 0 blanks texts) (ht : ∀ s ∈ texts, '\n' ∉ s.toList) (n : Nat)
    (t : String) : f ⟨n, t⟩ = ⟨n, t ++ shift n blanks (f {}).text⟩ := by
  obtain ⟨rows, rfl, -, hlines, hf⟩ := h.exists_rows ht
  rw [hf, shift, hlines, List.zipWith_map, List.zipWith_self, Page.write]
  congr 3
  apply List.map_congr_left
  intro row _
  cases row <;> simp [shiftRow]

example : shift 1 [false, true, false] "a\n\nb\n" = "    a\n\n    b\n" := by decide +kernel

theorem Shifts.length_feedLines (h : Shifts f 0 0 blanks texts) (ht : ∀ s ∈ texts, '\n' ∉ s.toList) :
    (feedLines (f {}).text).length = blanks.length := by
  obtain ⟨rows, rfl, -, hlines, -⟩ := h.exists_rows ht
  rw [hlines, List.length_map, List.length_map]

/-- Where no text is empty, the lines that are left blank are the empty ones. -/
theorem Shifts.shift_eq_shiftFilled (h : Shifts f 0 0 blanks texts)
    (ht : ∀ s ∈ texts, FillsLine s) (n : Nat) :
    shift n blanks (f {}).text = shiftFilled n (f {}).text := by
  obtain ⟨rows, rfl, hrows, hlines, -⟩ := h.exists_rows fun s hs => (ht s hs).2
  rw [shift, shiftFilled, hlines, List.zipWith_map, List.zipWith_self, List.map_map]
  congr 1
  apply List.map_congr_left
  intro row hrow
  cases row with
  | none => simp
  | some l =>
    obtain ⟨j, s, rfl, hs⟩ := hrows l hrow
    have hs : s ≠ "" := hs.elim (fun hmem => (ht s hmem).1) And.left
    simp [hs]

/-- The level on which a balanced body ends, and with it the spaces (4 * behind) it, are those in front of it. -/
theorem Balanced.exists_write (h : Balanced steps) (p : Page) : ∃ ls, writeAll steps p = p.write ls := by
  obtain ⟨rows, -, -, hwrite⟩ := h.shifts p.level
  have hp := hwrite 0 p.text
  simp only [Nat.zero_add] at hp
  exact ⟨_, hp⟩

theorem exists_levelAfter {steps : List Layout} {d d' : Nat} (h : levelAfterAll steps d = some d')
    {step : Layout} (hmem : step ∈ steps) : ∃ e e', step.levelAfter e = some e' := by
  induction steps generalizing d with
  | nil => cases hmem
  | cons first rest ih =>
    obtain ⟨e, hfirst, hrest⟩ := Option.bind_eq_some_iff.mp h
    obtain rfl | hmem := List.mem_cons.mp hmem
    · exact ⟨d, e, hfirst⟩
    · exact ih hrest hmem

theorem balanced_of_levelsAfterEach {bodies : List (List Layout)} (h : levelsAfterEach bodies = true)
    (hmem : body ∈ bodies) : Balanced body := by
  induction bodies with
  | nil => cases hmem
  | cons first rest ih =>
    obtain ⟨hfirst, hrest⟩ := Bool.and_eq_true_iff.mp h
    obtain rfl | hmem := List.mem_cons.mp hmem
    · exact of_decide_eq_true hfirst
    · exact ih hrest hmem

/-- The bodies of a balanced program are balanced, however deep they stand. -/
theorem Balanced.of_occurs {header : String} (h : Balanced steps) (hblock : Occurs (.braced header body) steps) :
    Balanced body := by
  induction hblock with
  | here hmem =>
    obtain ⟨e, e', hlevel⟩ := exists_levelAfter h hmem
    exact (some_of_ite hlevel).1
  | braced hmem _ ih | onlyIf hmem _ ih =>
    obtain ⟨e, e', hlevel⟩ := exists_levelAfter h hmem
    exact ih (some_of_ite hlevel).1
  | each hmem hbody _ ih =>
    obtain ⟨e, e', hlevel⟩ := exists_levelAfter h hmem
    exact ih (balanced_of_levelsAfterEach (some_of_ite hlevel).1 hbody)

/-- The closing brace stands below the header. -/
theorem Balanced.exists_write_braced (h : Balanced body) (header : String) (p : Page) :
    ∃ ls, (braced header body).write p =
      p.write ([spaces (4 * p.level) ++ header, spaces (4 * p.level) ++ "\x7b"] ++ ls ++ [spaces (4 * p.level) ++ "\x7d"]) := by
  obtain ⟨ls, hls⟩ := h.exists_write ((p.line header).line "\x7b").indent
  exact ⟨ls, braced_eq_write hls⟩

end Layout

end ResourceCode
