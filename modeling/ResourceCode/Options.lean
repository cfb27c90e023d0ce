import ResourceCode.Text

/-!
What can be set about the generated code: the order in which properties are carried over, and the text that
joins the name of a local to the name of one of its members. Options are loaded from a document. How documents
are decoded is left open; what a document does not set keeps its default, and a separator that would not survive
inside an identifier is refused.
-/

namespace ResourceCode

inductive PropertyOrder where
  | name
  | declared
  deriving DecidableEq, Repr

namespace PropertyOrder

/-- The name by which the order is set. -/
def text : PropertyOrder → String
  | .name => "name"
  | .declared => "declared"

def ofName? (s : String) : Option PropertyOrder := [.name, .declared].find? (·.text = s)

end PropertyOrder

structure Options where
  order : PropertyOrder := .name
  separator : String := "_"
  deriving DecidableEq, Repr

/-- What a document sets. -/
structure Settings where
  order : Option PropertyOrder := none
  separator : Option String := none
  deriving DecidableEq, Repr

/-- What a document sets, or nothing when the document cannot be decoded. -/
abbrev Decoder := String → Option Settings

/-- An invalid separator comes with the byte offset at which the document first speaks of one. -/
inductive OptionsError where
  | malformed
  | invalidSeparator (separator : String) (offset : Option Nat)
  deriving DecidableEq, Repr

namespace Options

/-- The name of the local for a member of the value whose local is `base`. -/
def nestedName (o : Options) (base member : String) : String :=
  Text.identifier (base ++ o.separator ++ member)

/-- A separator that needs no change inside an identifier: ASCII letters, digits and underscores. -/
def isPlainSeparator (separator : String) : Bool :=
  separator.toList.all fun c => c.isAlphanum || c == '_'

/-- The options with what has been set. -/
def ofSettings (s : Settings) : Options :=
  let d : Options := {}
  { order := s.order.getD d.order, separator := s.separator.getD d.separator }

/-- The key of the separator in a document. -/
def separatorKey : String := "name_separator"

def load (decode : Decoder) (source : String) : Except OptionsError Options :=
  match decode source with
  | none => .error .malformed
  | some settings =>
    let options := ofSettings settings
    if isPlainSeparator options.separator then .ok options
    else
      .error (.invalidSeparator options.separator
        (Text.byteOffset? separatorKey.toList source.toList))

end Options

namespace OptionsError

def message : OptionsError → String
  | malformed => "failed to parse generator options"
  | invalidSeparator separator _ => s!"invalid name separator '{separator}'"

def code : OptionsError → String
  | malformed => "uigen::config::parse_error"
  | invalidSeparator .. => "uigen::config::invalid_separator"

def help? : OptionsError → Option String
  | malformed => none
  | invalidSeparator .. => some "use only letters, numbers, and underscores"

/-- The bytes of the document that are pointed at: the offset and the number of them. -/
def span? : OptionsError → Option (Nat × Nat)
  | malformed => none
  | invalidSeparator _ offset => offset.map fun offset => (offset, Options.separatorKey.utf8ByteSize)

end OptionsError

end ResourceCode
