import ResourceCode.Source
import Mathlib.Data.List.Basic
import Mathlib.Data.List.Induction

/-!
The lines of a text. Characters of some kind end a line, and lines that are written one after the other are the lines
of the text, as long as none of those characters stands inside a line. A page that writes lines adds them behind the
text that it has.
-/

namespace ResourceCode.Text

/-- The lines, each with a line feed behind it. -/
def unlines : List String → String
  | [] => ""
  | l :: rest => l ++ "\n" ++ unlines rest

@[simp] theorem unlines_nil : unlines [] = "" := rfl

theorem unlines_cons (l : String) (rest : List String) :
    unlines (l :: rest) = l ++ "\n" ++ unlines rest := rfl

/-- The lines of two texts are written one after the other. -/
@[simp] theorem unlines_append (ls ms : List String) : unlines (ls ++ ms) = unlines ls ++ unlines ms := by
  induction ls with
  | nil => simp
  | cons l rest ih => simp [unlines_cons, ih, String.append_assoc]

/-- Without an empty line at the end. -/
def dropEmptyEnd (ls : List (List Char)) : List (List Char) :=
  if ls.getLast? = some [] then ls.dropLast else ls

theorem dropEmptyEnd_append (ls : List (List Char)) {ms : List (List Char)} (h : ms ≠ []) :
    dropEmptyEnd (ls ++ ms) = ls ++ dropEmptyEnd ms := by
  unfold dropEmptyEnd
  rw [List.getLast?_append_of_ne_nil ls h, List.dropLast_append_of_ne_nil h]
  split <;> rfl

/-- The lines of a text in which such characters end a line. What stands behind the last of them is a line if it is
not empty. -/
def pieces (ends : Char → Bool) (cs : List Char) : List (List Char) := dropEmptyEnd (cs.splitOnP ends)

variable {ends : Char → Bool} {e : Char} {xs ys : List Char}

@[simp] theorem pieces_nil : pieces ends [] = [] := by
  simp [pieces, dropEmptyEnd, List.splitOnP_nil]

/-- A text is split at its first line end, and the rest once more. -/
theorem pieces_append_cons (he : ends e = true) :
    pieces ends (xs ++ e :: ys) = xs.splitOnP ends ++ pieces ends ys := by
  rw [pieces, List.splitOnP_append_cons xs ys he, dropEmptyEnd_append _ (List.splitOnP_ne_nil ends ys)]
  rfl

/-- Behind the end of a line the lines of a text are those of the rest. -/
theorem pieces_append (h : ∀ c ∈ xs.getLast?, ends c = true) :
    pieces ends (xs ++ ys) = pieces ends xs ++ pieces ends ys := by
  cases xs using List.reverseRecOn with
  | nil => simp
  | append_singleton xs e =>
    have he : ends e = true := h e (by simp)
    have hxs : pieces ends (xs ++ [e]) = xs.splitOnP ends := by simp [pieces_append_cons he]
    rw [hxs, List.append_assoc, List.singleton_append, pieces_append_cons he]

/-- What has no end of a line in it and stands in front of a text belongs to its first line. -/
theorem splitOnP_append (hxs : ∀ c ∈ xs, ends c = false) :
    (xs ++ ys).splitOnP ends = (ys.splitOnP ends).modifyHead (xs ++ ·) := by
  induction xs with
  | nil => cases h : ys.splitOnP ends <;> simp [h]
  | cons x xs ih =>
    have hrest := ih fun c hc => hxs c (List.mem_cons_of_mem x hc)
    rw [List.cons_append, List.splitOnP_cons_eq_if_modifyHead, hxs x List.mem_cons_self, hrest]
    cases h : ys.splitOnP ends <;> simp

/-- Lines without such characters are read as they have been written. -/
theorem pieces_unlines {ls : List String} (hn : ends '\n' = true)
    (h : ∀ l ∈ ls, ∀ c ∈ l.toList, ends c = false) :
    pieces ends (unlines ls).toList = ls.map String.toList := by
  induction ls with
  | nil => simp
  | cons l rest ih =>
    have hl := List.splitOnP_eq_singleton (h l List.mem_cons_self)
    have hrest := ih fun m hm => h m (List.mem_cons_of_mem l hm)
    have htext : (unlines (l :: rest)).toList = l.toList ++ '\n' :: (unlines rest).toList := by
      simp [unlines_cons]
    rw [htext, pieces_append_cons hn, hl, hrest, List.map_cons, List.singleton_append]

/-- The lines between line feeds. -/
def feedLines (s : String) : List String := (pieces (· == '\n') s.toList).map String.ofList

/-- Lines without line feeds can be read back from the text they make. -/
theorem feedLines_unlines {ls : List String} (h : ∀ l ∈ ls, '\n' ∉ l.toList) :
    feedLines (unlines ls) = ls := by
  have hends : ∀ l ∈ ls, ∀ c ∈ l.toList, (c == '\n') = false := by
    intro l hl c hc
    apply beq_false_of_ne
    rintro rfl
    exact h l hl hc
  rw [feedLines, pieces_unlines rfl hends, List.map_map]
  simp

/-- What is read as a line has no line feed in it. -/
theorem newline_not_mem_linesAfter {line : List Char} (hline : '\n' ∉ line) (cs : List Char) :
    ∀ l ∈ linesAfter line cs, '\n' ∉ l := by
  fun_induction linesAfter line cs with
  | case1 line hempty => simp
  | case2 line hempty => simpa using hline
  | case3 line rest ih =>
    have hdrop : '\n' ∉ dropReturn line := by
      unfold dropReturn
      split
      · exact fun hmem => hline (List.mem_cons_of_mem _ hmem)
      · exact hline
    simpa [hdrop] using ih
  | case4 line c rest hc ih => exact ih (by simpa [hline] using fun heq => hc heq.symm)

/-- Documentation is cut at all its line feeds. -/
theorem newline_not_mem_lines (s : String) : ∀ l ∈ lines s, '\n' ∉ l.toList := by
  intro l hl
  obtain ⟨cs, hcs, rfl⟩ := List.mem_map.mp hl
  rw [String.toList_ofList]
  exact newline_not_mem_linesAfter List.not_mem_nil s.toList cs hcs

/-- That many spaces. -/
def spaces (n : Nat) : String := String.ofList (List.replicate n ' ')

theorem toList_spaces (n : Nat) : (spaces n).toList = List.replicate n ' ' := String.toList_ofList

@[simp] theorem spaces_zero : spaces 0 = "" := rfl

theorem spaces_add (n k : Nat) : spaces (n + k) = spaces n ++ spaces k := by
  rw [spaces, spaces, spaces, ← String.ofList_append, List.replicate_append_replicate]

end ResourceCode.Text

namespace ResourceCode.Page

open Text

variable {p : Page}

/-- The page with lines added behind its text. -/
def write (p : Page) (ls : List String) : Page := { p with text := p.text ++ unlines ls }

@[simp] theorem level_write (ls : List String) : (p.write ls).level = p.level := rfl
@[simp] theorem text_write (ls : List String) : (p.write ls).text = p.text ++ unlines ls := rfl

@[simp] theorem write_nil : p.write [] = p := by simp [write]

/-- Lines are written one after the other. -/
@[simp] theorem write_write (ls ms : List String) : (p.write ls).write ms = p.write (ls ++ ms) := by
  simp [write, String.append_assoc]

/-- A line stands four spaces further to the right on every level. -/
theorem line_eq_write (s : String) : p.line s = p.write [spaces (4 * p.level) ++ s] := by
  simp [line, margin, spaces, write, unlines_cons, String.append_assoc]

theorem blank_eq_write : p.blank = p.write [""] := rfl

/-- What a line of documentation begins with. -/
def commentMark (level : Nat) : String := spaces (4 * level) ++ "/// "

/-- The lines that documentation is cut into, and the lines around them. -/
def summaryLines (s : String) : List String := "<summary>" :: Text.lines s ++ ["</summary>"]

/-- Documentation is written as lines, each behind the comment mark. -/
theorem documentation_eq_write (p : Page) (s : String) :
    p.documentation s = p.write ((summaryLines s).map (commentMark p.level ++ ·)) := by
  have hcomments (ls : List String) (p : Page) :
      ls.foldl (fun p l => p.comment "///" l) p = p.write (ls.map (commentMark p.level ++ ·)) := by
    induction ls generalizing p with
    | nil => simp
    | cons l rest ih =>
      rw [List.foldl_cons, ih, comment, line_eq_write, level_write, write_write]
      simp [commentMark, String.append_assoc]
  exact hcomments _ p

/-- A block whose body adds lines on the level of the body. -/
theorem braced_eq_write {f : Page → Page} {header : String} {ls : List String}
    (h : f ((p.line header).line "\x7b").indent = ((p.line header).line "\x7b").indent.write ls) :
    p.braced header f =
      p.write ([spaces (4 * p.level) ++ header, spaces (4 * p.level) ++ "\x7b"] ++ ls ++ [spaces (4 * p.level) ++ "\x7d"]) := by
  rw [braced, h]
  simp [line_eq_write, indent, dedent, write, unlines_cons, String.append_assoc]

/-- A line for each item. -/
theorem writeAll_lines {α : Type} (f : α → String) (items : List α) (p : Page) :
    Layout.writeAll (items.map fun a => .line (f a)) p = p.write (items.map fun a => spaces (4 * p.level) ++ f a) := by
  induction items generalizing p with
  | nil => simp [Layout.writeAll]
  | cons a rest ih =>
    rw [List.map_cons, Layout.writeAll, Layout.write, ih, line_eq_write, level_write, write_write]
    rfl

end ResourceCode.Page
