import ResourceCode.Proofs.Code.Gaps
import ResourceCode.Proofs.Page.Lines
import ResourceCode.Proofs.Source.Quotation

/-!
The characters that end a line of source text. There is none of them in the text of a literal, whatever it stands for,
so that in an expression, a statement or the header of a method each one comes from a name. A method without
documentation is therefore written with one line for each of its statements, unless there is the end of a line in one of
its names.
-/

namespace ResourceCode

namespace Source

open Number (Decimal)

theorem isLineEnd_iff {c : Char} :
    isLineEnd c = true ↔ c.toNat = 10 ∨ c.toNat = 13 ∨ c.toNat = 0x85 ∨ c.toNat = 0x2028 ∨ c.toNat = 0x2029 := by
  have hfeed : c = '\n' ↔ c.toNat = 10 := (Char.toNat_inj (d := '\n')).symm
  have hreturn : c = '\r' ↔ c.toNat = 13 := (Char.toNat_inj (d := '\r')).symm
  simp only [isLineEnd, Bool.or_eq_true, beq_iff_eq, hfeed, hreturn, or_assoc]

/-- There is no end of a line in the text. -/
def OneLine (cs : List Char) : Prop := ∀ c ∈ cs, isLineEnd c = false

instance (cs : List Char) : Decidable (OneLine cs) := List.decidableBAll (isLineEnd · = false) cs

@[simp] theorem oneLine_nil : OneLine [] := nofun

@[simp] theorem oneLine_cons {c : Char} {cs : List Char} :
    OneLine (c :: cs) ↔ isLineEnd c = false ∧ OneLine cs := List.forall_mem_cons

@[simp] theorem oneLine_append {cs ds : List Char} : OneLine (cs ++ ds) ↔ OneLine cs ∧ OneLine ds :=
  List.forall_mem_append

theorem oneLine_of_isDigit {cs : List Char} (h : ∀ c ∈ cs, c.isDigit = true) : OneLine cs := by
  intro c hc
  have hdigit := h c hc
  simp only [Char.isDigit, Bool.and_eq_true, decide_eq_true_eq, ge_iff_le, UInt32.le_iff_toNat_le] at hdigit
  have hcode : c.val.toNat = c.toNat := rfl
  have hbounds : ('0' : Char).val.toNat = 48 ∧ ('9' : Char).val.toNat = 57 := ⟨rfl, rfl⟩
  rw [Bool.eq_false_iff, ne_eq, isLineEnd_iff]
  omega

theorem oneLine_decimal {d : Decimal} (hd : d.IsProper) : OneLine d.chars := by
  have hsign : OneLine d.sign := by
    unfold Decimal.sign
    split <;> decide
  have htail : OneLine d.tail := by
    unfold Decimal.tail
    split
    · exact oneLine_nil
    · exact oneLine_cons.mpr ⟨rfl, oneLine_of_isDigit hd.fraction⟩
  rw [Decimal.chars, oneLine_append, oneLine_append]
  exact ⟨⟨hsign, oneLine_of_isDigit hd.whole⟩, htail⟩

/-- The keyword of a primitive type stands on one line. -/
theorem oneLine_primitive (p : Primitive) : OneLine (primitive p).toList := by
  cases p <;> decide

theorem oneLine_numeral {n : Numeral} (hn : n.IsProper) : OneLine n.chars := by
  have hcast : OneLine n.castChars := by
    unfold Numeral.castChars
    cases n.cast with
    | none => exact oneLine_nil
    | some p =>
      have hparens : OneLine ['('] ∧ OneLine [')'] := by decide
      simpa [oneLine_primitive] using hparens
  have hsuffix : OneLine n.suffix := by
    intro c hc
    obtain rfl | rfl | rfl := hn.suffix c hc <;> rfl
  rw [Numeral.chars, oneLine_append, oneLine_append]
  exact ⟨hcast, oneLine_decimal hn.decimal, hsuffix⟩

/-- Hexadecimal digits end no line. -/
theorem oneLine_hexDigits (count n : Nat) : OneLine (hexDigits count n) := by
  have hdigit : ∀ i : Fin 16, isLineEnd (hexDigit i) = false := by decide
  induction count generalizing n with
  | zero => exact oneLine_nil
  | succ count ih =>
    rw [hexDigits, oneLine_append]
    exact ⟨ih (n / 16), by simpa using hdigit ⟨n % 16, Nat.mod_lt n (by decide)⟩⟩

/-- What ends a line is escaped. -/
theorem oneLine_escape {quote : Char} (hq : IsQuote quote) (c : Char) : OneLine (escape quote c) := by
  unfold escape
  split_ifs with hbackslash hn hr ht hzero hquote hunprintable
  · decide
  · decide
  · decide
  · decide
  · decide
  · subst hquote
    obtain rfl | rfl := hq <;> decide
  · simpa using ⟨rfl, rfl, oneLine_hexDigits 4 c.toNat⟩
  · simpa using isLineEnd_eq_false hn hr hunprintable

/-- Quoted text stands on one line, whatever is quoted. -/
theorem oneLine_quoted {quote : Char} (hq : IsQuote quote) (cs : List Char) :
    OneLine (quoted quote cs).toList := by
  have hquote : isLineEnd quote = false := by obtain rfl | rfl := hq <;> rfl
  have hbody : OneLine (cs.flatMap (escape quote)) := by
    intro c hc
    obtain ⟨d, -, hd⟩ := List.mem_flatMap.mp hc
    exact oneLine_escape hq d c hd
  simp [toList_quoted, hquote, hbody]

theorem oneLine_isSpelled {l : Literal} (h : IsSpelled l) : OneLine (literal l).toList := by
  cases h with
  | number hn =>
    rw [hn.toList_literal]
    exact oneLine_numeral hn.isProper
  | char c => exact oneLine_quoted (.inr rfl) [c]
  | string s => exact oneLine_quoted (.inl rfl) s.toList

open Number (Datum) in
/-- A real number is written as a constant of its type or by its digits, and either stands on one line. -/
theorem oneLine_real {keyword text : String} {d : Datum} (hk : OneLine keyword.toList)
    (ht : ∀ negative m e, d = .finite negative m e → OneLine text.toList) :
    OneLine ((special? keyword d).getD text).toList := by
  have hconstants : OneLine ".NaN".toList ∧ OneLine ".NegativeInfinity".toList ∧
      OneLine ".PositiveInfinity".toList := by decide
  cases d with
  | undefined => simpa [special?, hk] using hconstants.1
  | infinite negative =>
    cases negative with
    | true => simpa [special?, hk] using hconstants.2.1
    | false => simpa [special?, hk] using hconstants.2.2
  | finite negative m e => exact ht negative m e rfl

/-- A literal stands on one line, whatever text it stands for. -/
theorem oneLine_literal (l : Literal) : OneLine (literal l).toList := by
  cases l with
  | null => decide
  | bool v => cases v <;> decide
  | single v =>
    refine oneLine_real (by decide) fun negative m e hdatum => ?_
    have hspelled := oneLine_isSpelled (.number (.single hdatum))
    rwa [literal, hdatum] at hspelled
  | double v =>
    refine oneLine_real (by decide) fun negative m e hdatum => ?_
    have hspelled := oneLine_isSpelled (.number (.double hdatum))
    rwa [literal, hdatum] at hspelled
  | char c => exact oneLine_isSpelled (.char c)
  | string s => exact oneLine_isSpelled (.string s)
  | _ => exact oneLine_isSpelled (.number (.integer rfl rfl))

/-- Every end of a line in the text comes from one of the names. -/
def LineEndsFrom (names : List String) (s : String) : Prop :=
  ∀ c ∈ s.toList, isLineEnd c = true → ∃ name ∈ names, c ∈ name.toList

section

variable {names more : List String} {s t : String}

theorem lineEndsFrom_of_oneLine (h : OneLine s.toList) : LineEndsFrom names s := by
  intro c hc hend
  rw [h c hc] at hend
  cases hend

theorem lineEndsFrom_name {name : String} (h : name ∈ names) : LineEndsFrom names name :=
  fun _ hc _ => ⟨name, h, hc⟩

theorem LineEndsFrom.mono (h : LineEndsFrom names s) (hnames : ∀ name ∈ names, name ∈ more) :
    LineEndsFrom more s := by
  intro c hc hend
  obtain ⟨name, hname, hmem⟩ := h c hc hend
  exact ⟨name, hnames name hname, hmem⟩

/-- Line ends of a text are those of its pieces. -/
theorem lineEndsFrom_append :
    LineEndsFrom names (s ++ t) ↔ LineEndsFrom names s ∧ LineEndsFrom names t := by
  simp only [LineEndsFrom, String.toList_append, List.forall_mem_append]

theorem lineEndsFrom_identifier {name : String} (h : name ∈ names) :
    LineEndsFrom names (identifier name) := by
  unfold identifier
  split
  · exact lineEndsFrom_append.mpr ⟨lineEndsFrom_of_oneLine (by decide), lineEndsFrom_name h⟩
  · exact lineEndsFrom_name h

theorem lineEndsFrom_commas {items : List String} (h : ∀ item ∈ items, LineEndsFrom names item) :
    LineEndsFrom names (commas items) := by
  induction items with
  | nil => exact lineEndsFrom_of_oneLine oneLine_nil
  | cons item rest ih =>
    have hitem := h item List.mem_cons_self
    have hrest := ih fun other hmem => h other (List.mem_cons_of_mem item hmem)
    cases rest with
    | nil => simpa [commas] using hitem
    | cons next rest =>
      have hcomma : LineEndsFrom names ", " := lineEndsFrom_of_oneLine (by decide)
      rw [commas, String.intercalate_cons_cons, lineEndsFrom_append, lineEndsFrom_append]
      exact ⟨⟨hitem, hcomma⟩, hrest⟩

theorem LineEndsFrom.append_left (h : LineEndsFrom names s) (more : List String) :
    LineEndsFrom (names ++ more) s :=
  h.mono fun _ => List.mem_append_left more

theorem LineEndsFrom.append_right (h : LineEndsFrom more s) (names : List String) :
    LineEndsFrom (names ++ more) s :=
  h.mono fun _ => List.mem_append_right names

theorem LineEndsFrom.cons (h : LineEndsFrom names s) (name : String) : LineEndsFrom (name :: names) s :=
  h.append_right [name]

end

/-- Punctuation and words of the language. -/
theorem lineEndsFrom_fixed {names : List String} (s : String) (h : OneLine s.toList := by decide) :
    LineEndsFrom names s :=
  lineEndsFrom_of_oneLine h

mutual

theorem lineEndsFrom_type : ∀ (t : TypeRef), LineEndsFrom t.vocabulary (type t)
  | .primitive p => lineEndsFrom_of_oneLine (oneLine_primitive p)
  | .object => lineEndsFrom_fixed _
  | .void => lineEndsFrom_fixed _
  | .named name => lineEndsFrom_name List.mem_cons_self
  | .generic name [] => lineEndsFrom_name List.mem_cons_self
  | .generic name (t :: args) => by
    have hargs := lineEndsFrom_commas (lineEndsFrom_types (t :: args))
    simp only [type, lineEndsFrom_append, and_assoc]
    exact ⟨lineEndsFrom_name List.mem_cons_self, lineEndsFrom_fixed _, hargs.cons name,
      lineEndsFrom_fixed _⟩
  | .array element => by
    rw [type, lineEndsFrom_append]
    exact ⟨lineEndsFrom_type element, lineEndsFrom_fixed _⟩

theorem lineEndsFrom_types : ∀ (ts : List TypeRef), ∀ s ∈ types ts,
    LineEndsFrom (TypeRef.vocabularyAll ts) s
  | [], s, h => nomatch h
  | t :: rest, s, h => by
    obtain rfl | h := List.mem_cons.mp h
    · exact (lineEndsFrom_type t).append_left _
    · exact (lineEndsFrom_types rest s h).append_right _

end

mutual

/-- The line ends of an expression come from its names, by induction on the expression. -/
theorem lineEndsFrom_expr : ∀ (e : Expr), LineEndsFrom e.vocabulary (expr e)
  | .literal l => lineEndsFrom_of_oneLine (oneLine_literal l)
  | .var name => lineEndsFrom_identifier List.mem_cons_self
  | .this => lineEndsFrom_fixed _
  | .type t => lineEndsFrom_type t
  | .field target name => by
    simp only [expr, lineEndsFrom_append, and_assoc]
    exact ⟨(lineEndsFrom_expr target).append_left _, lineEndsFrom_fixed _,
      lineEndsFrom_name List.mem_concat_self⟩
  | .new t args => by
    have hargs := lineEndsFrom_commas (lineEndsFrom_exprs args)
    simp only [expr, lineEndsFrom_append, and_assoc]
    exact ⟨lineEndsFrom_fixed _, (lineEndsFrom_type t).append_left _, lineEndsFrom_fixed _,
      hargs.append_right _, lineEndsFrom_fixed _⟩
  | .call target method args => by
    have htarget := ((lineEndsFrom_expr target).append_left [method]).append_left (Expr.vocabularyAll args)
    have hmethod : LineEndsFrom (target.vocabulary ++ [method] ++ Expr.vocabularyAll args) method :=
      lineEndsFrom_name (List.mem_append_left _ List.mem_concat_self)
    have hargs := lineEndsFrom_commas (lineEndsFrom_exprs args)
    simp only [expr, lineEndsFrom_append, and_assoc]
    exact ⟨htarget, lineEndsFrom_fixed _, hmethod, lineEndsFrom_fixed _, hargs.append_right _,
      lineEndsFrom_fixed _⟩
  | .invoke method args => by
    have hargs := lineEndsFrom_commas (lineEndsFrom_exprs args)
    simp only [expr, lineEndsFrom_append, and_assoc]
    exact ⟨lineEndsFrom_name List.mem_cons_self, lineEndsFrom_fixed _, hargs.cons method,
      lineEndsFrom_fixed _⟩
  | .typeOf t => by
    simp only [expr, lineEndsFrom_append, and_assoc]
    exact ⟨lineEndsFrom_fixed _, lineEndsFrom_type t, lineEndsFrom_fixed _⟩
  | .methodGroup name => lineEndsFrom_name List.mem_cons_self

theorem lineEndsFrom_exprs : ∀ (es : List Expr), ∀ s ∈ exprs es,
    LineEndsFrom (Expr.vocabularyAll es) s
  | [], s, h => nomatch h
  | e :: rest, s, h => by
    obtain rfl | h := List.mem_cons.mp h
    · exact (lineEndsFrom_expr e).append_left _
    · exact (lineEndsFrom_exprs rest s h).append_right _

end

/-- The line ends of a statement come from its names. -/
theorem lineEndsFrom_statement (s : Statement) : LineEndsFrom s.vocabulary (statement s) := by
  have hlocal (t : TypeRef) (name : String) : LineEndsFrom (t.vocabulary ++ [name]) (identifier name) :=
    lineEndsFrom_identifier List.mem_concat_self
  cases s with
  | declare name t value =>
    have htype := (lineEndsFrom_type t).append_left [name]
    cases value with
    | none =>
      simp only [statement, lineEndsFrom_append, and_assoc]
      exact ⟨htype, lineEndsFrom_fixed _, hlocal t name, lineEndsFrom_fixed _⟩
    | some value =>
      simp only [statement, lineEndsFrom_append, and_assoc]
      exact ⟨htype.append_left _, lineEndsFrom_fixed _, (hlocal t name).append_left _,
        lineEndsFrom_fixed _, (lineEndsFrom_expr value).append_right _, lineEndsFrom_fixed _⟩
  | assign target value =>
    simp only [statement, lineEndsFrom_append, and_assoc]
    exact ⟨(lineEndsFrom_expr target).append_left _, lineEndsFrom_fixed _,
      (lineEndsFrom_expr value).append_right _, lineEndsFrom_fixed _⟩
  | expr e => exact lineEndsFrom_append.mpr ⟨lineEndsFrom_expr e, lineEndsFrom_fixed _⟩
  | ret value =>
    cases value with
    | none => exact lineEndsFrom_fixed _
    | some value =>
      simp only [statement, lineEndsFrom_append, and_assoc]
      exact ⟨lineEndsFrom_fixed _, lineEndsFrom_expr value, lineEndsFrom_fixed _⟩

theorem oneLine_visibility (v : Visibility) : OneLine (visibility v).toList := by
  cases v <;> decide

theorem lineEndsFrom_methodHeader (m : Method) : LineEndsFrom m.headerVocabulary (methodHeader m) := by
  have hmodifier : LineEndsFrom m.headerVocabulary (if m.isStatic then "static " else "") := by
    split <;> exact lineEndsFrom_fixed _
  have hreturns : LineEndsFrom m.headerVocabulary (type m.returns) :=
    ((lineEndsFrom_type m.returns).append_left _).append_left _
  have hname : LineEndsFrom m.headerVocabulary m.name :=
    lineEndsFrom_name (List.mem_append_left _ List.mem_concat_self)
  have hparameters : LineEndsFrom m.headerVocabulary (commas (m.parameters.map parameter)) := by
    apply lineEndsFrom_commas
    intro s hs
    obtain ⟨p, hp, rfl⟩ := List.mem_map.mp hs
    have hparameter : LineEndsFrom p.vocabulary (parameter p) := by
      simp only [parameter, lineEndsFrom_append, and_assoc]
      exact ⟨(lineEndsFrom_type p.type).append_left _, lineEndsFrom_fixed _,
        lineEndsFrom_identifier List.mem_concat_self⟩
    exact hparameter.mono fun name hname =>
      List.mem_append_right _ (List.mem_flatMap.mpr ⟨p, hp, hname⟩)
  simp only [methodHeader, lineEndsFrom_append, and_assoc]
  exact ⟨lineEndsFrom_of_oneLine (oneLine_visibility _), lineEndsFrom_fixed _, hmodifier, hreturns,
    lineEndsFrom_fixed _, hname, lineEndsFrom_fixed _, hparameters, lineEndsFrom_fixed _⟩

/-- Where no name has an end of a line in it, the text has none. -/
theorem LineEndsFrom.oneLine {names : List String} {s : String} (h : LineEndsFrom names s)
    (hnames : ∀ name ∈ names, OneLine name.toList) : OneLine s.toList := by
  intro c hc
  by_contra hend
  obtain ⟨name, hname, hmem⟩ := h c hc (Bool.eq_true_of_not_eq_false hend)
  exact hend (hnames name hname c hmem)

end Source

namespace Source

open Text Page

/-- A line feed right behind a carriage return ends the same line. -/
def joinReturns : List Char → List Char
  | '\r' :: '\n' :: rest => '\n' :: joinReturns rest
  | c :: rest => c :: joinReturns rest
  | [] => []

/-- The lines of source text. -/
def sourceLines (s : String) : List String :=
  (pieces isLineEnd (joinReturns s.toList)).map String.ofList

theorem joinReturns_eq_self {cs : List Char} (h : '\r' ∉ cs) : joinReturns cs = cs := by
  fun_induction joinReturns cs with
  | case1 rest ih => simp at h
  | case2 c rest hc ih => rw [ih fun hmem => h (List.mem_cons_of_mem c hmem)]
  | case3 => rfl

theorem return_not_mem_unlines {ls : List String} (h : ∀ l ∈ ls, '\r' ∉ l.toList) :
    '\r' ∉ (unlines ls).toList := by
  induction ls with
  | nil => exact List.not_mem_nil
  | cons l rest ih =>
    have hrest := ih fun m hm => h m (List.mem_cons_of_mem l hm)
    simp [unlines_cons, h l List.mem_cons_self, hrest]

/-- Lines that end no line in between can be read back. -/
theorem sourceLines_unlines {ls : List String} (h : ∀ l ∈ ls, OneLine l.toList) :
    sourceLines (unlines ls) = ls := by
  have hreturn : '\r' ∉ (unlines ls).toList := by
    apply return_not_mem_unlines
    intro l hl hmem
    cases h l hl _ hmem
  rw [sourceLines, joinReturns_eq_self hreturn, pieces_unlines rfl h, List.map_map]
  simp

/-- A method line by line, its documentation apart. -/
def methodLines (level : Nat) (m : Method) : List String :=
  [spaces (4 * level) ++ methodHeader m, spaces (4 * level) ++ "\x7b"] ++
    m.body.map (fun s => spaces (4 * (level + 1)) ++ statement s) ++ [spaces (4 * level) ++ "\x7d"]

/-- A page with the documentation that there is. -/
def documented (p : Page) : Option String → Page
  | none => p
  | some s => p.documentation s

@[simp] theorem level_documented (p : Page) (doc : Option String) : (documented p doc).level = p.level := by
  cases doc with
  | none => rfl
  | some s => rw [documented, documentation_eq_write, level_write]

/-- A method is written as its documentation and then its lines. -/
theorem writeAll_methodLayout (m : Method) (p : Page) :
    Layout.writeAll (methodLayout m) p = (documented p m.doc).write (methodLines p.level m) := by
  have hblock (q : Page) : Layout.writeAll
      [.braced (methodHeader m) (m.body.map fun s => .line (statement s))] q =
        q.write (methodLines q.level m) :=
    braced_eq_write (writeAll_lines statement m.body _)
  have hlevel := level_documented p m.doc
  cases hdoc : m.doc with
  | none => simp [methodLayout, hdoc, documented, hblock]
  | some s =>
    rw [hdoc] at hlevel
    rw [← hlevel, ← hblock]
    simp [methodLayout, hdoc, documented, Layout.writeAll, Layout.write]

theorem oneLine_spaces (n : Nat) : OneLine (spaces n).toList := by
  intro c hc
  rw [toList_spaces] at hc
  rw [List.eq_of_mem_replicate hc]
  rfl

/-- Without line ends in its names, every line of a method is one line of source. -/
theorem oneLine_methodLines {m : Method} (hm : ∀ name ∈ m.vocabulary, OneLine name.toList) (level : Nat) :
    ∀ l ∈ methodLines level m, OneLine l.toList := by
  have hheader : OneLine (methodHeader m).toList :=
    (lineEndsFrom_methodHeader m).oneLine fun name hname => hm name (List.mem_append_left _ hname)
  have hbody : ∀ s ∈ m.body, OneLine (statement s).toList := fun s hs =>
    (lineEndsFrom_statement s).oneLine fun name hname =>
      hm name (List.mem_append_right _ (List.mem_flatMap.mpr ⟨s, hs, hname⟩))
  have hbraces : OneLine ['\x7b'] ∧ OneLine ['\x7d'] := by decide
  intro l hl
  simp only [methodLines, List.mem_append, List.mem_cons, List.not_mem_nil, or_false, List.mem_map] at hl
  obtain ((rfl | rfl) | ⟨s, hs, rfl⟩) | rfl := hl
  · simp [oneLine_spaces, hheader]
  · simpa [oneLine_spaces] using hbraces.1
  · simp [oneLine_spaces, hbody s hs]
  · simpa [oneLine_spaces] using hbraces.2

/-- A statement stands on one line unless a name in it ends one, and a method is its header, an opening brace, its
statements in their order and a closing brace, with one line for each of them behind the text of the page. -/
theorem statement_per_line :
    (∀ s : Statement, (∀ name ∈ s.vocabulary, OneLine name.toList) → OneLine (statement s).toList) ∧
      ∀ (m : Method) (p : Page), m.doc = none → (∀ name ∈ m.vocabulary, OneLine name.toList) →
        Layout.writeAll (methodLayout m) p =
            { level := p.level, text := p.text ++ unlines (methodLines p.level m) } ∧
          sourceLines (unlines (methodLines p.level m)) = methodLines p.level m := by
  constructor
  · intro s hs
    exact (lineEndsFrom_statement s).oneLine hs
  · intro m p hdoc hm
    have hwritten := writeAll_methodLayout m p
    rw [hdoc] at hwritten
    exact ⟨hwritten, sourceLines_unlines (oneLine_methodLines hm p.level)⟩

/-- Writes down a caption that ends its line in four ways. -/
def captionStatement : Statement :=
  .expr (.call .this "Add" [.string "Caption", .string "first\u2028second\u0085third\r\n"])

def captionMethod : Method :=
  { name := "InitializeResources", visibility := .private, body := [captionStatement, .ret none] }

theorem statement_per_line_caption :
    (∀ name ∈ captionStatement.vocabulary, OneLine name.toList) ∧
      OneLine (statement captionStatement).toList ∧
      captionMethod.doc = none ∧ (∀ name ∈ captionMethod.vocabulary, OneLine name.toList) ∧
      Layout.writeAll (methodLayout captionMethod) { level := 1, text := "class Dictionary1\n\x7b\n" } =
        { level := 1, text := "class Dictionary1\n\x7b\n" ++ unlines (methodLines 1 captionMethod) } ∧
      sourceLines (unlines (methodLines 1 captionMethod)) = methodLines 1 captionMethod := by
  obtain ⟨hstatement, hmethod⟩ := statement_per_line
  have hnames : ∀ name ∈ captionStatement.vocabulary, OneLine name.toList := by decide
  have hall : ∀ name ∈ captionMethod.vocabulary, OneLine name.toList := by decide
  exact ⟨hnames, hstatement captionStatement hnames, rfl, hall, hmethod captionMethod _ rfl hall⟩

end Source

end ResourceCode
