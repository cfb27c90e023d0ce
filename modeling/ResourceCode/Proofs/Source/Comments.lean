import ResourceCode.Proofs.Source.LineEnds

/-!
Documentation in source text. Each line that the text of a documentation comment is cut into gets a comment mark, but
the text is cut at line feeds only. What stands behind another end of a line is a line of source text of its own, and
belongs to the comment only if it begins with a comment mark itself.
-/

namespace ResourceCode.Source

open Text Page

variable {cs ds : List Char}

/-- No carriage return at the end of one text is joined with a line feed at the beginning of the next. -/
theorem joinReturns_append (h : ds.head? ≠ some '\n') :
    joinReturns (cs ++ ds) = joinReturns cs ++ joinReturns ds := by
  fun_induction joinReturns cs with
  | case1 rest ih => simp [joinReturns, ih]
  | case2 c rest hc ih =>
    rw [List.cons_append, joinReturns, ih, List.cons_append]
    intro more hreturn hfeed
    cases rest with
    | nil => exact h (congrArg List.head? hfeed)
    | cons d rest => exact hc rest hreturn (congrArg (· :: rest) (List.cons.inj hfeed).1)
  | case3 => rfl

theorem joinReturns_append_of_not_mem (h : '\r' ∉ cs) : joinReturns (cs ++ ds) = cs ++ joinReturns ds := by
  induction cs with
  | nil => rfl
  | cons c cs ih =>
    have hne : c ≠ '\r' := fun heq => h (heq ▸ List.mem_cons_self)
    have hrest := ih fun hmem => h (List.mem_cons_of_mem c hmem)
    rw [List.cons_append, joinReturns, hrest, List.cons_append]
    exact fun _ heq _ => hne heq

theorem getLast?_joinReturns (cs : List Char) : (joinReturns cs).getLast? = cs.getLast? := by
  fun_induction joinReturns cs with
  | case1 rest ih => simp [List.getLast?_cons, ih]
  | case2 c rest hc ih => rw [List.getLast?_cons, List.getLast?_cons, ih]
  | case3 => rfl

/-- Empty, or with the end of a line at its end. -/
def AtLineStart (s : String) : Prop := ∀ c ∈ s.toList.getLast?, isLineEnd c = true

/-- The lines of a text that is continued at the start of a line are those of its two pieces. -/
theorem sourceLines_append {s t : String} (hs : AtLineStart s) (ht : t.toList.head? ≠ some '\n') :
    sourceLines (s ++ t) = sourceLines s ++ sourceLines t := by
  have hend : ∀ c ∈ (joinReturns s.toList).getLast?, isLineEnd c = true := by
    rw [getLast?_joinReturns]
    exact hs
  rw [sourceLines, String.toList_append, joinReturns_append ht, pieces_append hend, List.map_append]
  rfl

/-- What stands in front of a line, and has no end of a line in it, belongs to that line. -/
theorem sourceLines_mark {mark : String} (hmark : OneLine mark.toList) (l : String) :
    sourceLines (mark ++ l ++ "\n") = (sourceLines (l ++ "\n")).modifyHead (mark ++ ·) := by
  have hreturn : '\r' ∉ mark.toList := fun hmem => nomatch hmark _ hmem
  have hlast : (joinReturns (l ++ "\n").toList).getLast? = some '\n' := by
    rw [getLast?_joinReturns]
    simp
  -- the last line ends with its line feed, so that nothing is left over behind it with the mark or without
  obtain ⟨body, hbody⟩ := List.getLast?_eq_some_iff.mp hlast
  have hpieces (xs : List Char) : pieces isLineEnd (xs ++ ['\n']) = xs.splitOnP isLineEnd := by
    rw [pieces_append_cons rfl, pieces_nil, List.append_nil]
  rw [sourceLines, sourceLines, String.append_assoc, String.toList_append,
    joinReturns_append_of_not_mem hreturn, hbody, ← List.append_assoc, hpieces, hpieces,
    splitOnP_append hmark]
  cases body.splitOnP isLineEnd <;> simp

/-- Not empty, and beginning with something else than a line feed. -/
def Begun (s : String) : Prop := ∃ c ∈ s.toList.head?, c ≠ '\n'

theorem Begun.append {s : String} (hs : Begun s) (t : String) : Begun (s ++ t) := by
  obtain ⟨c, hc, hne⟩ := hs
  exact ⟨c, by rw [String.toList_append, List.head?_append, hc]; rfl, hne⟩

theorem Begun.spaces {s : String} (hs : Begun s) (n : Nat) : Begun (spaces n ++ s) := by
  cases n with
  | zero => simpa using hs
  | succ n => exact ⟨' ', by simp [toList_spaces, List.replicate_succ], by decide⟩

theorem Begun.head_ne {s : String} (hs : Begun s) : s.toList.head? ≠ some '\n' := by
  obtain ⟨c, hc, hne⟩ := hs
  rw [hc]
  simpa using hne

theorem atLineStart_write (p : Page) {ls : List String} (h : ls ≠ []) : AtLineStart (p.write ls).text := by
  obtain rfl | ⟨init, l, rfl⟩ := List.eq_nil_or_concat ls
  · exact (h rfl).elim
  · intro e he
    obtain rfl : e = '\n' := by simpa [unlines_cons] using he.symm
    rfl

/-- Lines that are written behind the end of a line are read behind it. -/
theorem sourceLines_write {p : Page} (hp : AtLineStart p.text) {ls : List String} (h : ∀ l ∈ ls, Begun l) :
    sourceLines (p.write ls).text = sourceLines p.text ++ ls.flatMap fun l => sourceLines (l ++ "\n") := by
  induction ls generalizing p with
  | nil => simp
  | cons l rest ih =>
    have hfirst : sourceLines (p.write [l]).text = sourceLines p.text ++ sourceLines (l ++ "\n") := by
      have hbegun := (h l List.mem_cons_self).append "\n"
      rw [text_write, unlines_cons, unlines_nil, String.append_empty, sourceLines_append hp hbegun.head_ne]
    have hrest := ih (atLineStart_write p (List.cons_ne_nil l [])) fun m hm => h m (List.mem_cons_of_mem l hm)
    rw [write_write, hfirst] at hrest
    rw [List.flatMap_cons, ← List.append_assoc, ← hrest]
    rfl

/-- Behind blanks the line begins with a comment mark. -/
def Commented (l : String) : Prop := ['/', '/', '/'] <+: l.toList.dropWhile (· == ' ')

instance (l : String) : Decidable (Commented l) := inferInstanceAs (Decidable (_ <+: _))

/-- What stands in documentation behind the end of a line at which it is not cut. -/
def strayLines (s : String) : List String :=
  (Text.lines s).flatMap fun l => (sourceLines (l ++ "\n")).tail

/-- The lines of source text that documentation adds to a page. -/
def commentLines (level : Nat) (s : String) : List String :=
  (summaryLines s).flatMap fun l => (sourceLines (l ++ "\n")).modifyHead (commentMark level ++ ·)

theorem oneLine_commentMark (level : Nat) : OneLine (commentMark level).toList := by
  have hmark : OneLine "/// ".toList := by decide
  rw [commentMark, String.toList_append, oneLine_append]
  exact ⟨oneLine_spaces _, hmark⟩

theorem commented_commentMark (level : Nat) (l : String) : Commented (commentMark level ++ l) := by
  have hdrop : (commentMark level ++ l).toList.dropWhile (· == ' ') = "/// ".toList ++ l.toList := by
    simp [commentMark, toList_spaces]
  rw [Commented, hdrop]
  exact ⟨' ' :: l.toList, rfl⟩

theorem begun_commentMark (level : Nat) (l : String) : Begun (commentMark level ++ l) := by
  have hmark : Begun "/// " := ⟨'/', rfl, by decide⟩
  exact (hmark.spaces _).append l

/-- Documentation adds its comment lines behind the lines that are there already. -/
theorem sourceLines_documentation {p : Page} (hp : AtLineStart p.text) (s : String) :
    sourceLines (p.documentation s).text = sourceLines p.text ++ commentLines p.level s := by
  rw [documentation_eq_write, sourceLines_write hp, List.flatMap_map]
  · simp only [sourceLines_mark (oneLine_commentMark p.level)]
    rfl
  · intro l hl
    obtain ⟨m, -, rfl⟩ := List.mem_map.mp hl
    exact begun_commentMark p.level m

/-- Only the first line has the mark in front of it, so the others are comments by themselves or not at all.
-/
theorem commented_modifyHead {mark : String} (hmark : ∀ l, Commented (mark ++ l)) (ls : List String) :
    (∀ l ∈ ls.modifyHead (mark ++ ·), Commented l) ↔ ∀ l ∈ ls.tail, Commented l := by
  cases ls with
  | nil => simp
  | cons l rest => simp [hmark]

/-- The comment holds all of its text exactly when the stray lines are comments themselves. -/
theorem commented_commentLines_iff (level : Nat) (s : String) :
    (∀ l ∈ commentLines level s, Commented l) ↔ ∀ l ∈ strayLines s, Commented l := by
  have hends : (sourceLines ("<summary>" ++ "\n")).tail = [] ∧
      (sourceLines ("</summary>" ++ "\n")).tail = [] := by decide +kernel
  have hmark := commented_commentMark level
  simp only [commentLines, summaryLines, strayLines, List.flatMap_append, List.flatMap_cons, List.flatMap_nil,
    List.forall_mem_append, List.append_nil, List.forall_mem_flatMap, commented_modifyHead hmark, hends]
  simp

/-- Documentation that is cut wherever it ends a line has no stray lines. -/
theorem strayLines_eq_nil {s : String} (h : ∀ l ∈ Text.lines s, OneLine l.toList) : strayLines s = [] := by
  rw [strayLines, List.flatMap_eq_nil_iff]
  intro l hl
  have hline : sourceLines (unlines [l]) = [l] :=
    sourceLines_unlines fun m hm => List.mem_singleton.mp hm ▸ h l hl
  rw [unlines_cons, unlines_nil, String.append_empty] at hline
  rw [hline, List.tail_cons]

theorem begun_methodHeader (m : Method) : Begun (methodHeader m) := by
  have hvisibility : Begun (visibility m.visibility) := by
    cases m.visibility with
    | «public» | «private» | «protected» => exact ⟨'p', rfl, by decide⟩
    | internal => exact ⟨'i', rfl, by decide⟩
  simp only [methodHeader, String.append_assoc]
  exact hvisibility.append _

/-- The lines of a method begin with something that is no line feed. -/
theorem begun_methodLines (level : Nat) (m : Method) : Begun (unlines (methodLines level m)) := by
  have hheader := (begun_methodHeader m).spaces (4 * level)
  simp only [methodLines, List.cons_append, List.nil_append, unlines_cons (spaces (4 * level) ++ _)]
  exact (hheader.append _).append _

/-- The lines of source text that documentation adds to a page, alone or in front of a method, all belong to the comment
exactly when its stray lines do. It has none when it is cut wherever it ends a line. -/
theorem documentation_commented_iff (p : Page) (s : String) (hp : AtLineStart p.text) :
    ∃ ls, sourceLines (p.documentation s).text = sourceLines p.text ++ ls ∧
      (∀ m : Method, m.doc = some s →
        sourceLines (Layout.writeAll (methodLayout m) p).text =
          sourceLines p.text ++ ls ++ sourceLines (methodTextAt p.level { m with doc := none })) ∧
      ((∀ l ∈ ls, Commented l) ↔ ∀ l ∈ strayLines s, Commented l) ∧
      ((∀ l ∈ Text.lines s, OneLine l.toList) → strayLines s = []) := by
  refine ⟨commentLines p.level s, sourceLines_documentation hp s, ?_, commented_commentLines_iff p.level s,
    strayLines_eq_nil⟩
  intro m hdoc
  have hstart : AtLineStart (p.documentation s).text := by
    rw [documentation_eq_write]
    exact atLineStart_write p (by simp [summaryLines])
  have hbegun := (begun_methodLines p.level m).head_ne
  rw [writeAll_methodLayout, hdoc, documented, text_write, sourceLines_append hstart hbegun,
    sourceLines_documentation hp, methodTextAt, writeAll_methodLayout, documented, text_write,
    String.empty_append]
  rfl

def documentedMethod : Method :=
  { name := "Build", doc := some "Builds the root.\r\nReturns it.", body := [.ret none] }

theorem documentation_commented_iff_twoLines :
    AtLineStart "class Dictionary1\n\x7b\n" ∧ documentedMethod.doc = some "Builds the root.\r\nReturns it." ∧
      (∀ l ∈ Text.lines "Builds the root.\r\nReturns it.", OneLine l.toList) ∧
      ∃ ls, sourceLines (Page.documentation { level := 1, text := "class Dictionary1\n\x7b\n" }
          "Builds the root.\r\nReturns it.").text = sourceLines "class Dictionary1\n\x7b\n" ++ ls ∧
        sourceLines (Layout.writeAll (methodLayout documentedMethod)
            { level := 1, text := "class Dictionary1\n\x7b\n" }).text =
          sourceLines "class Dictionary1\n\x7b\n" ++ ls ++
            sourceLines (methodTextAt 1 { documentedMethod with doc := none }) ∧
        ∀ l ∈ ls, Commented l := by
  have hstart : AtLineStart "class Dictionary1\n\x7b\n" := by
    intro c hc
    obtain rfl : '\n' = c := Option.some.inj hc
    rfl
  have hlines : ∀ l ∈ Text.lines "Builds the root.\r\nReturns it.", OneLine l.toList := by decide +kernel
  obtain ⟨ls, halone, hmethod, hiff, hstray⟩ := documentation_commented_iff
    { level := 1, text := "class Dictionary1\n\x7b\n" } "Builds the root.\r\nReturns it." hstart
  refine ⟨hstart, rfl, hlines, ls, halone, hmethod documentedMethod rfl, hiff.mpr ?_⟩
  rw [hstray hlines]
  exact nofun

/-- Documentation is not cut at a line separator, which ends the comment. -/
theorem documentation_outside_comment :
    ¬ ∀ (p : Page) (s : String), AtLineStart p.text → ∀ ls,
      sourceLines (p.documentation s).text = sourceLines p.text ++ ls → ∀ l ∈ ls, Commented l := by
  intro hall
  have hlines : sourceLines (Page.documentation {} "Builds\u2028the root.").text =
      sourceLines "" ++ ["/// <summary>", "/// Builds", "the root.", "/// </summary>"] := by decide +kernel
  have hcommented := hall {} "Builds\u2028the root." nofun _ hlines "the root." (by decide)
  revert hcommented
  decide

end ResourceCode.Source
