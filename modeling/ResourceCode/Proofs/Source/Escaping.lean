import ResourceCode.Proofs.Source.LineEnds

/-!
Reserved words among the names of generated code. What is written around a gap does not depend on the name in it.
Variables, declared locals and parameters are written as identifiers in every gap, however deep it is; members, called
methods, method groups and the method itself are written as they are, so that they are right exactly when they are not
reserved.
-/

namespace ResourceCode

/-- A local is written as an identifier, and any other name as it is. -/
def NameRole.spelling (role : NameRole) (name : String) : String :=
  if role.isLocal then Source.identifier name else name

namespace Source

open Text Page

def isSeparator (c : Char) : Bool := [' ', '\n', '.', ',', ';', '(', ')'].contains c

/-- A word may begin behind the text. -/
def Opens (s : String) : Prop := ∀ c ∈ s.toList.getLast?, isSeparator c = true

/-- A word has ended in front of the text. -/
def Closes (s : String) : Prop := ∀ c ∈ s.toList.head?, isSeparator c = true

variable {s t : String} {render spelling : String → String}

theorem opens_empty : Opens "" := nofun

theorem closes_empty : Closes "" := nofun

theorem Opens.append (hs : Opens s) (ht : Opens t) : Opens (s ++ t) := by
  intro c hc
  rw [String.toList_append, List.getLast?_append] at hc
  cases h : t.toList.getLast? with
  | none => exact hs c (by simpa [h] using hc)
  | some d => exact ht c (by simpa [h] using hc)

theorem Closes.append (hs : Closes s) (ht : Closes t) : Closes (s ++ t) := by
  intro c hc
  rw [String.toList_append, List.head?_append] at hc
  cases h : s.toList.head? with
  | none => exact ht c (by simpa [h] using hc)
  | some d => exact hs c (by simpa [h] using hc)

theorem opens_append {c : Char} (s : String) (hc : t.toList.getLast? = some c) (hsep : isSeparator c = true) :
    Opens (s ++ t) := by
  intro d hd
  obtain rfl : c = d := by simpa [List.getLast?_append, hc] using hd
  exact hsep

theorem closes_append {c : Char} (t : String) (hc : s.toList.head? = some c) (hsep : isSeparator c = true) :
    Closes (s ++ t) := by
  intro d hd
  obtain rfl : c = d := by simpa [List.head?_append, hc] using hd
  exact hsep

/-- The text is the name, spelled in some way, between two texts that do not depend on the name. -/
def WritesName (render spelling : String → String) : Prop :=
  ∃ before after, Opens before ∧ Closes after ∧ ∀ name, render name = before ++ spelling name ++ after

/-- Where the text has other names as they are, it has this name with an at sign in front if the name is reserved. -/
def EscapesName (render : String → String) (name : String) : Prop :=
  ∃ before after, Opens before ∧ Closes after ∧
    (∀ other, isReserved other = false → render other = before ++ other ++ after) ∧
    render name = before ++ (if isReserved name then "@" ++ name else name) ++ after

/-- A name between separators is written as it is written alone. -/
theorem WritesName.wrap (h : WritesName render spelling) (hs : Opens s) (ht : Closes t) :
    WritesName (fun n => s ++ render n ++ t) spelling := by
  obtain ⟨before, after, hbefore, hafter, hrender⟩ := h
  refine ⟨s ++ before, after ++ t, hs.append hbefore, hafter.append ht, ?_⟩
  intro name
  simp [hrender, String.append_assoc]

theorem writesName_bare (role : NameRole) (h : role.isLocal = false) :
    WritesName (fun n => n) role.spelling :=
  ⟨"", "", opens_empty, closes_empty, fun name => by simp [NameRole.spelling, h]⟩

theorem writesName_identifier (role : NameRole) (h : role.isLocal = true) :
    WritesName identifier role.spelling :=
  ⟨"", "", opens_empty, closes_empty, fun name => by simp [NameRole.spelling, h]⟩

/-- An item of a list stands between commas. -/
theorem exists_commas (as bs : List String) :
    ∃ before after, Opens before ∧ Closes after ∧ ∀ s, commas (as ++ s :: bs) = before ++ s ++ after := by
  have hafter : ∃ after, Closes after ∧ ∀ s, commas (s :: bs) = s ++ after := by
    cases bs with
    | nil => exact ⟨"", closes_empty, fun s => by simp [commas]⟩
    | cons b rest =>
      refine ⟨", " ++ commas (b :: rest), closes_append _ rfl rfl, fun s => ?_⟩
      rw [commas, String.intercalate_cons_cons, String.append_assoc, commas]
  obtain ⟨after, hcloses, hbehind⟩ := hafter
  cases as with
  | nil => exact ⟨"", after, opens_empty, hcloses, fun s => by simp [hbehind]⟩
  | cons a rest =>
    refine ⟨commas (a :: rest) ++ ", ", after, opens_append _ rfl rfl, hcloses, fun s => ?_⟩
    have hcons : commas (a :: rest ++ s :: bs) = commas (a :: rest) ++ ", " ++ commas (s :: bs) :=
      String.intercalate_append_of_ne_nil (List.cons_ne_nil a rest) (List.cons_ne_nil s bs)
    rw [hcons, hbehind, String.append_assoc]
    simp [String.append_assoc]

/-- A name among the items of a list is written between separators. -/
theorem WritesName.commas (h : WritesName render spelling) (as bs : List String) :
    WritesName (fun n => commas (as ++ render n :: bs)) spelling := by
  obtain ⟨before, after, hbefore, hafter, hcommas⟩ := exists_commas as bs
  simp only [hcommas]
  exact h.wrap hbefore hafter

/-- In every gap of an expression a name is written as its role has it. -/
theorem writesName_expr (g : Expr.Gap) : WritesName (fun n => expr (g.fill n)) g.role.spelling := by
  induction g with
  | var => exact writesName_identifier .var rfl
  | member target =>
    have h := (writesName_bare .member rfl).wrap
      (opens_append (t := ".") (expr target) rfl rfl) closes_empty
    simpa [Expr.Gap.fill, Expr.Gap.role, expr] using h
  | called target args =>
    have h := (writesName_bare .called rfl).wrap
      (opens_append (t := ".") (expr target) rfl rfl)
      (closes_append (s := "(") (commas (exprs args) ++ ")") rfl rfl)
    simpa [Expr.Gap.fill, Expr.Gap.role, expr, String.append_assoc] using h
  | invoked args =>
    have h := (writesName_bare .called rfl).wrap opens_empty
      (closes_append (s := "(") (commas (exprs args) ++ ")") rfl rfl)
    simpa [Expr.Gap.fill, Expr.Gap.role, expr, String.append_assoc] using h
  | group => exact writesName_bare .group rfl
  | inField target name ih =>
    have h := ih.wrap opens_empty (closes_append (s := ".") name rfl rfl)
    simpa [Expr.Gap.fill, Expr.Gap.role, expr, String.append_assoc] using h
  | inNew t before arg after ih =>
    have h := (ih.commas (exprs before) (exprs after)).wrap
      (opens_append (t := "(") ("new " ++ type t) rfl rfl) (closes_append (s := ")") "" rfl rfl)
    simpa [Expr.Gap.fill, Expr.Gap.role, expr, exprs_eq_map, String.append_assoc] using h
  | inTarget target method args ih =>
    have h := ih.wrap opens_empty
      (closes_append (s := ".") (method ++ "(" ++ commas (exprs args) ++ ")") rfl rfl)
    simpa [Expr.Gap.fill, Expr.Gap.role, expr, String.append_assoc] using h
  | inCall target method before arg after ih =>
    have h := (ih.commas (exprs before) (exprs after)).wrap
      (opens_append (t := "(") (expr target ++ "." ++ method) rfl rfl) (closes_append (s := ")") "" rfl rfl)
    simpa [Expr.Gap.fill, Expr.Gap.role, expr, exprs_eq_map, String.append_assoc] using h
  | inInvoke method before arg after ih =>
    have h := (ih.commas (exprs before) (exprs after)).wrap
      (opens_append (t := "(") method rfl rfl) (closes_append (s := ")") "" rfl rfl)
    simpa [Expr.Gap.fill, Expr.Gap.role, expr, exprs_eq_map, String.append_assoc] using h

/-- In every gap of a statement as well. -/
theorem writesName_statement (g : Statement.Gap) :
    WritesName (fun n => statement (g.fill n)) g.role.spelling := by
  have hend : Closes ";" := closes_append (s := ";") "" rfl rfl
  cases g with
  | declared t value =>
    have hdeclared := writesName_identifier .declared rfl
    have htype : Opens (type t ++ " ") := opens_append (t := " ") (type t) rfl rfl
    cases value with
    | none => exact hdeclared.wrap htype hend
    | some value =>
      have h := hdeclared.wrap htype (closes_append (s := " = ") (expr value ++ ";") rfl rfl)
      simpa [Statement.Gap.fill, Statement.Gap.role, statement, String.append_assoc] using h
  | inDeclared name t value =>
    have h := (writesName_expr value).wrap
      (opens_append (t := " = ") (type t ++ " " ++ identifier name) rfl rfl) hend
    simpa [Statement.Gap.fill, Statement.Gap.role, statement, String.append_assoc] using h
  | inTarget target value =>
    have h := (writesName_expr target).wrap opens_empty
      (closes_append (s := " = ") (expr value ++ ";") rfl rfl)
    simpa [Statement.Gap.fill, Statement.Gap.role, statement, String.append_assoc] using h
  | inValue target value =>
    exact (writesName_expr value).wrap (opens_append (t := " = ") (expr target) rfl rfl) hend
  | inExpr e =>
    have h := (writesName_expr e).wrap opens_empty hend
    simpa [Statement.Gap.fill, Statement.Gap.role, statement] using h
  | inReturn value =>
    exact (writesName_expr value).wrap (opens_append (t := "return ") "" rfl rfl) hend

/-- The name and the parameters of a method stand in its header, and what is around them does not depend on them. -/
theorem exists_methodTextAt (level : Nat) (m : Method) :
    ∃ start rest, Closes rest ∧
      (∀ name, methodTextAt level { m with name } =
        start ++ " " ++ name ++ ("(" ++ (commas (m.parameters.map parameter) ++ rest))) ∧
      ∀ ps, methodTextAt level { m with parameters := ps } =
        start ++ " " ++ m.name ++ ("(" ++ (commas (ps.map parameter) ++ rest)) := by
  refine ⟨(documented { level } m.doc).text ++ spaces (4 * level) ++ visibility m.visibility ++ " " ++
    (if m.isStatic then "static " else "") ++ type m.returns,
    ")\n" ++ unlines (methodLines level m).tail, closes_append _ rfl rfl, fun name => ?_, fun ps => ?_⟩
  all_goals
    simp [methodTextAt, writeAll_methodLayout, methodLines, methodHeader, unlines_cons, String.append_assoc]

theorem opens_spaces (level : Nat) (s : String) : Opens (s ++ spaces (4 * (level + 1))) := by
  have hlast : (spaces (4 * (level + 1))).toList.getLast? = some ' ' := by
    simp [toList_spaces, List.getLast?_replicate]
  exact opens_append s hlast rfl

/-- In every gap of a method as well, the header and the statements alike. -/
theorem writesName_method (level : Nat) (g : Method.Gap) :
    WritesName (fun n => methodTextAt level (g.fill n)) g.role.spelling := by
  cases g with
  | method m =>
    obtain ⟨start, rest, -, htext, -⟩ := exists_methodTextAt level m
    have h := (writesName_bare .method rfl).wrap (opens_append (t := " ") start rfl rfl)
      (closes_append (s := "(") (commas (m.parameters.map parameter) ++ rest) rfl rfl)
    simpa [Method.Gap.fill, Method.Gap.role, htext] using h
  | parameter m before t after =>
    obtain ⟨start, rest, hrest, -, htext⟩ := exists_methodTextAt level m
    have hparameter := (writesName_identifier .parameter rfl).wrap
      (opens_append (t := " ") (type t) rfl rfl) closes_empty
    have h := (hparameter.commas (before.map parameter) (after.map parameter)).wrap
      (opens_append (t := "(") (start ++ " " ++ m.name) rfl rfl) hrest
    simpa [Method.Gap.fill, Method.Gap.role, htext, parameter, String.append_assoc] using h
  | inBody m before s after =>
    have hlines (ls : List String) : Closes ("\n" ++ unlines ls) := closes_append _ rfl rfl
    have h := (writesName_statement s).wrap
      (opens_spaces level ((documented { level } m.doc).text ++
        unlines ([spaces (4 * level) ++ methodHeader m, spaces (4 * level) ++ "\x7b"] ++
          before.map fun s => spaces (4 * (level + 1)) ++ statement s)))
      (hlines ((after.map fun s => spaces (4 * (level + 1)) ++ statement s) ++ [spaces (4 * level) ++ "\x7d"]))
    simpa [Method.Gap.fill, Method.Gap.role, methodTextAt, writeAll_methodLayout, methodLines, methodHeader,
      unlines_cons, String.append_assoc] using h

/-- A name that is spelled as it stands is escaped if it need not be. -/
theorem escapesName_iff {role : NameRole} (h : WritesName render role.spelling) (name : String) :
    EscapesName render name ↔ role.isLocal = true ∨ isReserved name = false := by
  obtain ⟨before, after, hbefore, hafter, hrender⟩ := h
  have hbare (n : String) (hn : isReserved n = false) : role.spelling n = n := by
    simp [NameRole.spelling, identifier, hn]
  constructor
  · rintro ⟨before', after', -, -, hothers, hname⟩
    by_contra! hnot
    have hreserved : isReserved name = true := by simpa using hnot.2
    -- another name tells how much text there is around the gap, and the reserved one has too little of it
    have hempty := congrArg String.length ((hothers "" rfl).symm.trans (hrender ""))
    have hspelled : role.spelling name = name := by simp [NameRole.spelling, hnot.1]
    rw [if_pos hreserved] at hname
    have hlength := congrArg String.length (hname.symm.trans (hrender name))
    simp only [hbare "" rfl, hspelled, String.length_append] at hempty hlength
    have hat : "@".length = 1 := rfl
    omega
  · intro h
    refine ⟨before, after, hbefore, hafter, fun other hother => by rw [hrender, hbare other hother], ?_⟩
    rw [hrender]
    cases hreserved : isReserved name with
    | false => simp [hbare name hreserved]
    | true =>
      have hlocal : role.isLocal = true := h.resolve_right (by simp [hreserved])
      simp [NameRole.spelling, identifier, hlocal, hreserved]

/-- Every name other than that of a type stands in a gap. In every gap a reserved word is written with an at sign if it is
the name of a variable, of a declared local or of a parameter, and without one if it is the name of anything else. -/
theorem names_escaped_iff (level : Nat) (role : NameRole) (name : String) :
    ((∀ e : Expr, (role, name) ∈ e.names ↔ ∃ g : Expr.Gap, g.role = role ∧ g.fill name = e) ∧
      (∀ s : Statement, (role, name) ∈ s.names ↔ ∃ g : Statement.Gap, g.role = role ∧ g.fill name = s) ∧
      ∀ m : Method, (role, name) ∈ m.names ↔ ∃ g : Method.Gap, g.role = role ∧ g.fill name = m) ∧
    (∀ g : Expr.Gap,
      EscapesName (fun n => expr (g.fill n)) name ↔ g.role.isLocal = true ∨ isReserved name = false) ∧
    (∀ g : Statement.Gap,
      EscapesName (fun n => statement (g.fill n)) name ↔ g.role.isLocal = true ∨ isReserved name = false) ∧
    ∀ g : Method.Gap,
      EscapesName (fun n => methodTextAt level (g.fill n)) name ↔ g.role.isLocal = true ∨ isReserved name = false := by
  refine ⟨⟨?_, ?_, ?_⟩, ?_, ?_, ?_⟩
  · exact fun _ => Expr.mem_names_iff
  · exact fun _ => Statement.mem_names_iff
  · exact fun _ => Method.mem_names_iff
  · exact fun g => escapesName_iff (writesName_expr g) name
  · exact fun g => escapesName_iff (writesName_statement g) name
  · exact fun g => escapesName_iff (writesName_method level g) name

/-- The member of an assignment is written as it is, although the word `event` is reserved. -/
theorem member_unescaped :
    ¬ ∀ (g : Statement.Gap) (name : String), (∀ entry ∈ (g.fill name).names, isWord entry.2 = true) →
      EscapesName (fun n => statement (g.fill n)) name := by
  intro hall
  have hescaped := hall (.inTarget (.member (.var "item")) (.literal (.int32 1))) "event" (by decide)
  rw [escapesName_iff (writesName_statement _)] at hescaped
  revert hescaped
  decide

end Source

end ResourceCode
