import ResourceCode.Text

/-!
Types: their full names, the primitive ones among them, and what their descriptors say. The text after the
last dot of a full name is the simple name and the text before it the namespace; a name without a dot has no
namespace. A descriptor has the kind of a type, its declared properties, and what is known of its base. A
property is carried over from a value to the object built for it when it can be read without arguments and
written; otherwise it has an obstacle. At the end stand types as they are written in generated code.
-/

namespace ResourceCode

structure TypeName where
  full : String
  deriving DecidableEq, Repr, Inhabited

namespace TypeName

def simple (n : TypeName) : String :=
  match Text.splitLast '.' n.full with
  | some (_, name) => name
  | none => n.full

def namespace? (n : TypeName) : Option String := (Text.splitLast '.' n.full).map (·.1)

def order (a b : TypeName) : Ordering :=
  if a.full < b.full then .lt else if a.full = b.full then .eq else .gt

end TypeName

inductive Primitive where
  | bool | byte | sbyte | int16 | uint16 | int32 | uint32 | int64 | uint64
  | char | double | single | string
  deriving DecidableEq, Repr

namespace Primitive

/-- Every primitive type, in the order in which they are registered. -/
def all : List Primitive :=
  [bool, byte, sbyte, int16, uint16, int32, uint32, int64, uint64, char, double, single, string]

/-- The simple name inside the `System` namespace. -/
def label : Primitive → String
  | bool => "Boolean"
  | byte => "Byte"
  | sbyte => "SByte"
  | int16 => "Int16"
  | uint16 => "UInt16"
  | int32 => "Int32"
  | uint32 => "UInt32"
  | int64 => "Int64"
  | uint64 => "UInt64"
  | char => "Char"
  | double => "Double"
  | single => "Single"
  | string => "String"

def typeName (p : Primitive) : TypeName := ⟨"System." ++ p.label⟩

def isIntegral : Primitive → Bool
  | byte | sbyte | int16 | uint16 | int32 | uint32 | int64 | uint64 => true
  | bool | char | double | single | string => false

end Primitive

/-- Why a property cannot be carried over. -/
inductive Obstacle where
  | noGetter
  | needsArguments
  | noSetter
  deriving DecidableEq, Repr

def Obstacle.text : Obstacle → String
  | noGetter => "no public getter"
  | needsArguments => "getter requires arguments"
  | noSetter => "no public setter"

/-- The word by which a report names the obstacle. -/
def Obstacle.label : Obstacle → String
  | noGetter => "no_getter"
  | needsArguments => "requires_arguments"
  | noSetter => "no_setter"

/-- A declared property; `arguments` counts the parameters of an indexer's getter. -/
structure Property where
  name : String
  readable : Bool := true
  writable : Bool := true
  arguments : Nat := 0
  deriving DecidableEq, Repr

namespace Property

def readOnly (name : String) : Property := { name, writable := false }

def writeOnly (name : String) : Property := { name, readable := false }

def indexer (name : String) (arguments : Nat) : Property := { name, arguments }

/-- The first thing in the way of carrying the property over. -/
def obstacle? (p : Property) : Option Obstacle :=
  if !p.readable then some .noGetter
  else if p.arguments > 0 then some .needsArguments
  else if !p.writable then some .noSetter
  else none

def isCarried (p : Property) : Bool := p.obstacle?.isNone

end Property

inductive Kind where
  | primitive (p : Primitive)
  | enumeration (members : List String)
  | plain
  deriving DecidableEq, Repr, Inhabited

/-- What a type knows of its declared base. -/
structure Base where
  name : TypeName
  isLocator : Bool
  deriving DecidableEq, Repr

/-- A locator is a base type of view-model locators, whose instances are built without any property. -/
structure Descriptor where
  name : TypeName
  kind : Kind := .plain
  properties : List Property := []
  base : Option Base := none
  isLocator : Bool := false
  deriving DecidableEq, Repr, Inhabited

namespace Descriptor

def enumeration (full : String) (members : List String) : Descriptor :=
  { name := ⟨full⟩, kind := .enumeration members }

def ofPrimitive (p : Primitive) : Descriptor := { name := p.typeName, kind := .primitive p }

/-- As the base of another type. -/
def asBase (d : Descriptor) : Base := ⟨d.name, d.isLocator⟩

/-- The first property of that name. -/
def property? (d : Descriptor) (name : String) : Option Property :=
  d.properties.find? (·.name = name)

def declares (d : Descriptor) (name : String) : Bool := (d.property? name).isSome

def members (d : Descriptor) : List String :=
  match d.kind with
  | .enumeration members => members
  | _ => []

def isEnumeration (d : Descriptor) : Bool :=
  match d.kind with
  | .enumeration _ => true
  | _ => false

/-- Whether the declared base is the base type of view-model locators. -/
def derivesLocator (d : Descriptor) : Bool :=
  match d.base with
  | some base => base.isLocator
  | none => false

/-- A type declares a name exactly when one of its properties has it. -/
theorem declares_iff {d : Descriptor} {name : String} :
    d.declares name = true ↔ ∃ p ∈ d.properties, p.name = name := by
  simp [declares, property?]

end Descriptor

inductive TypeRef where
  | primitive (p : Primitive)
  | named (name : String)
  | generic (name : String) (args : List TypeRef)
  | array (element : TypeRef)
  | object
  | void
  deriving Repr, Inhabited

namespace TypeRef

/-- Generated code says the simple name and leaves the namespace to its using lines. -/
def ofName (n : TypeName) : TypeRef := .named n.simple

mutual

def same : TypeRef → TypeRef → Bool
  | primitive a, primitive b => a == b
  | named a, named b => a == b
  | generic a as, generic b bs => a == b && sameAll as bs
  | array a, array b => same a b
  | object, object => true
  | void, void => true
  | _, _ => false

def sameAll : List TypeRef → List TypeRef → Bool
  | [], [] => true
  | a :: as, b :: bs => same a b && sameAll as bs
  | _, _ => false

end

end TypeRef

end ResourceCode
