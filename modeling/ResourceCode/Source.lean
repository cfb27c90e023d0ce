import ResourceCode.Code

/-!
C# source text. A page is text written line by line at an indentation level. `Layout` is a program of such
writing steps; `Layout.write` runs it on a page.

A reserved word becomes an identifier by an at sign in front. Inside quotes a backslash, the quote, the control
characters and the two Unicode line separators are escaped; numbers carry the cast or the suffix of their type,
and a real number without a fraction gets one, so that it is not read as an integer. Locals and parameters are
written as identifiers; the names of members, methods and classes stand as they are. A method and a class are
laid out on a page with one line for each statement.
-/

namespace ResourceCode

structure Page where
  level : Nat := 0
  text : String := ""
  deriving DecidableEq, Repr

namespace Page

/-- Four spaces for each level. -/
def margin (level : Nat) : String := String.ofList (List.replicate (4 * level) ' ')

def line (p : Page) (s : String) : Page :=
  { p with text := p.text ++ margin p.level ++ s ++ "\n" }

/-- A line without indentation. -/
def blank (p : Page) : Page := { p with text := p.text ++ "\n" }

def indent (p : Page) : Page := { p with level := p.level + 1 }

/-- One level back; level zero stays. -/
def dedent (p : Page) : Page := { p with level := p.level - 1 }

/-- A comment line that begins with `mark`. -/
def comment (p : Page) (mark s : String) : Page := p.line (mark ++ " " ++ s)

def lines (p : Page) (ls : List String) : Page := ls.foldl line p

/-- A documentation comment: a summary with one comment line for each line of the text. -/
def documentation (p : Page) (s : String) : Page :=
  ("<summary>" :: Text.lines s ++ ["</summary>"]).foldl (comment · "///") p

/-- A header, and a body one level deeper between braces on lines of their own. -/
def braced (p : Page) (header : String) (body : Page → Page) : Page :=
  (body ((p.line header).line "\x7b").indent).dedent.line "\x7d"

end Page

/-- One step of writing a page. `each` has a body for every item that is gone through. -/
inductive Layout where
  | line (s : String)
  | blank
  | indent
  | dedent
  | comment (mark s : String)
  | documentation (s : String)
  | braced (header : String) (body : List Layout)
  | onlyIf (condition : Bool) (body : List Layout)
  | each (bodies : List (List Layout))
  deriving Repr, Inhabited

namespace Layout

mutual

def write : Layout → Page → Page
  | line s, p => p.line s
  | blank, p => p.blank
  | indent, p => p.indent
  | dedent, p => p.dedent
  | comment mark s, p => p.comment mark s
  | documentation s, p => p.documentation s
  | braced header body, p => p.braced header (writeAll body)
  | onlyIf condition body, p => if condition then writeAll body p else p
  | each bodies, p => writeEach bodies p

def writeAll : List Layout → Page → Page
  | [], p => p
  | step :: rest, p => writeAll rest (step.write p)

def writeEach : List (List Layout) → Page → Page
  | [], p => p
  | body :: rest, p => writeEach rest (writeAll body p)

end

/-- The text of the page after each step. -/
def texts (p : Page) : List Layout → List String
  | [] => []
  | step :: rest => (step.write p).text :: texts (step.write p) rest

end Layout

namespace Source

def reservedWords : List String :=
  ["abstract", "as", "base", "bool", "break", "byte", "case", "catch", "char", "checked",
    "class", "const", "continue", "decimal", "default", "delegate", "do", "double", "else",
    "enum", "event", "explicit", "extern", "false", "finally", "fixed", "float", "for",
    "foreach", "goto", "if", "implicit", "in", "int", "interface", "internal", "is", "lock",
    "long", "namespace", "new", "null", "object", "operator", "out", "override", "params",
    "private", "protected", "public", "readonly", "ref", "return", "sbyte", "sealed", "short",
    "sizeof", "stackalloc", "static", "string", "struct", "switch", "this", "throw", "true",
    "try", "typeof", "uint", "ulong", "unchecked", "unsafe", "ushort", "using", "virtual",
    "void", "volatile", "while"]

def isReserved (name : String) : Bool := reservedWords.contains name

/-- The name as an identifier. -/
def identifier (name : String) : String := if isReserved name then "@" ++ name else name

def primitive : Primitive → String
  | .bool => "bool"
  | .byte => "byte"
  | .sbyte => "sbyte"
  | .int16 => "short"
  | .uint16 => "ushort"
  | .int32 => "int"
  | .uint32 => "uint"
  | .int64 => "long"
  | .uint64 => "ulong"
  | .char => "char"
  | .double => "double"
  | .single => "float"
  | .string => "string"

/-- Items with a comma and a space between them. -/
def commas (items : List String) : String := ", ".intercalate items

mutual

/-- A generic type without arguments is its name alone. -/
def type : TypeRef → String
  | .primitive p => primitive p
  | .named name => name
  | .generic name [] => name
  | .generic name args => name ++ "<" ++ commas (types args) ++ ">"
  | .array element => type element ++ "[]"
  | .object => "object"
  | .void => "void"

def types : List TypeRef → List String
  | [] => []
  | t :: rest => type t :: types rest

end

open Number (Datum)

/-- The control characters of Latin-1, and the characters U+2028 and U+2029 that end a source line. -/
def isUnprintable (c : Char) : Bool :=
  c.toNat < 0x20 || (0x7F ≤ c.toNat && c.toNat < 0xA0) || c.toNat = 0x2028 || c.toNat = 0x2029

/-- The upper-case hexadecimal digit of a number below sixteen. -/
def hexDigit (n : Nat) : Char := if n < 10 then Char.ofNat (48 + n) else Char.ofNat (55 + n)

/-- The last `count` hexadecimal digits of a number. -/
def hexDigits : Nat → Nat → List Char
  | 0, _ => []
  | count + 1, n => hexDigits count (n / 16) ++ [hexDigit (n % 16)]

def escape (quote c : Char) : List Char :=
  if c = '\\' then ['\\', '\\']
  else if c = '\n' then ['\\', 'n']
  else if c = '\r' then ['\\', 'r']
  else if c = '\t' then ['\\', 't']
  else if c = Char.ofNat 0 then ['\\', '0']
  else if c = quote then ['\\', c]
  else if isUnprintable c then '\\' :: 'u' :: hexDigits 4 c.toNat
  else [c]

/-- Text between two quotes, escaped. -/
def quoted (quote : Char) (cs : List Char) : String :=
  String.ofList (quote :: (cs.flatMap (escape quote) ++ [quote]))

/-- A decimal with a fraction, `.0` if it has none. -/
def withFraction (s : String) : String := if s.toList.contains '.' then s else s ++ ".0"

/-- The name of the constant for a number that has no digits, as a member of its type. -/
def special? (keyword : String) : Datum → Option String
  | .undefined => some (keyword ++ ".NaN")
  | .infinite true => some (keyword ++ ".NegativeInfinity")
  | .infinite false => some (keyword ++ ".PositiveInfinity")
  | .finite .. => none

def literal : Literal → String
  | .null => "null"
  | .bool v => if v then "true" else "false"
  | .byte v => "(byte)" ++ toString v.toNat
  | .sbyte v => "(sbyte)" ++ toString v.toInt
  | .int16 v => "(short)" ++ toString v.toInt
  | .uint16 v => "(ushort)" ++ toString v.toNat
  | .int32 v => toString v.toInt
  | .uint32 v => toString v.toNat ++ "U"
  | .int64 v => toString v.toInt ++ "L"
  | .uint64 v => toString v.toNat ++ "UL"
  | .char v => quoted '\'' [v]
  | .single v => (special? "float" v.datum).getD (v.text ++ "F")
  | .double v => (special? "double" v.datum).getD (withFraction v.text)
  | .string v => quoted '"' v.toList

end Source

namespace Source

mutual

def expr : Expr → String
  | .literal l => literal l
  | .var name => identifier name
  | .this => "this"
  | .type t => type t
  | .field target name => expr target ++ "." ++ name
  | .new t args => "new " ++ type t ++ "(" ++ commas (exprs args) ++ ")"
  | .call target method args => expr target ++ "." ++ method ++ "(" ++ commas (exprs args) ++ ")"
  | .invoke method args => method ++ "(" ++ commas (exprs args) ++ ")"
  | .typeOf t => "typeof(" ++ type t ++ ")"
  | .methodGroup name => name

def exprs : List Expr → List String
  | [] => []
  | e :: rest => expr e :: exprs rest

end

theorem exprs_eq_map (es : List Expr) : exprs es = es.map expr := by
  induction es with
  | nil => rfl
  | cons e rest ih => simp [exprs, ih]

def statement : Statement → String
  | .declare name t none => type t ++ " " ++ identifier name ++ ";"
  | .declare name t (some value) => type t ++ " " ++ identifier name ++ " = " ++ expr value ++ ";"
  | .assign target value => expr target ++ " = " ++ expr value ++ ";"
  | .expr e => expr e ++ ";"
  | .ret none => "return;"
  | .ret (some value) => "return " ++ expr value ++ ";"

def visibility : Visibility → String
  | .public => "public"
  | .private => "private"
  | .protected => "protected"
  | .internal => "internal"

def parameter (p : Parameter) : String := type p.type ++ " " ++ identifier p.name

def methodHeader (m : Method) : String :=
  visibility m.visibility ++ " " ++ (if m.isStatic then "static " else "") ++ type m.returns ++ " "
    ++ m.name ++ "(" ++ commas (m.parameters.map parameter) ++ ")"

def methodLayout (m : Method) : List Layout :=
  (m.doc.map Layout.documentation).toList
    ++ [.braced (methodHeader m) (m.body.map fun s => .line (statement s))]

def classHeader (c : Class) : String :=
  visibility c.visibility ++ " " ++ (if c.isPartial then "partial " else "") ++ "class " ++ c.name
    ++ (match c.base with
      | some base => " : " ++ base
      | none => "")

/-- Methods with a blank line between them. -/
def methodLayouts : List Method → List Layout
  | [] => []
  | [m] => methodLayout m
  | m :: rest => methodLayout m ++ .blank :: methodLayouts rest

/-- The class without its using lines and its namespace. -/
def bareClassLayout (c : Class) : Layout := .braced (classHeader c) (methodLayouts c.methods)

def classLayout (c : Class) : List Layout :=
  c.usings.map (fun name => .line ("using " ++ name ++ ";"))
    ++ [.onlyIf (!c.usings.isEmpty) [.blank],
      match c.namespaceName with
      | some name => .braced ("namespace " ++ name) [bareClassLayout c]
      | none => bareClassLayout c]

/-- A method on a page at some indentation level. -/
def methodTextAt (level : Nat) (m : Method) : String :=
  (Layout.writeAll (methodLayout m) { level }).text

def methodText (m : Method) : String := methodTextAt 0 m

def classText (c : Class) : String := (Layout.writeAll (classLayout c) {}).text

end Source

end ResourceCode
