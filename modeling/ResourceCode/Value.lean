import ResourceCode.Number
import ResourceCode.Types

/-!
Values. Null and the values of the primitive types are written down directly. An object is only a handle: it
names a cell of a heap, which answers for its properties, and carries the object's type.

Reading a property fails when the cell says so, otherwise gives the last value set for it, null when the type
merely declares it, and an error when nothing is known of it. What a live cell answers is made anew on every
read.
-/

namespace ResourceCode

section

open Number (Single Double)

inductive Literal where
  | null
  | bool (v : Bool)
  | byte (v : UInt8)
  | sbyte (v : Int8)
  | int16 (v : Int16)
  | uint16 (v : UInt16)
  | int32 (v : Int32)
  | uint32 (v : UInt32)
  | int64 (v : Int64)
  | uint64 (v : UInt64)
  | char (v : Char)
  | single (v : Single)
  | double (v : Double)
  | string (v : String)
  deriving DecidableEq, Repr

namespace Literal

/-- The primitive type; null has none. -/
def primitive? : Literal → Option Primitive
  | null => none
  | bool _ => some .bool
  | byte _ => some .byte
  | sbyte _ => some .sbyte
  | int16 _ => some .int16
  | uint16 _ => some .uint16
  | int32 _ => some .int32
  | uint32 _ => some .uint32
  | int64 _ => some .int64
  | uint64 _ => some .uint64
  | char _ => some .char
  | single _ => some .single
  | double _ => some .double
  | string _ => some .string

/-- The number held by a value of an integral type. -/
def integer? : Literal → Option Int
  | byte v => some v.toNat
  | sbyte v => some v.toInt
  | int16 v => some v.toInt
  | uint16 v => some v.toNat
  | int32 v => some v.toInt
  | uint32 v => some v.toNat
  | int64 v => some v.toInt
  | uint64 v => some v.toNat
  | _ => none

/-- An integral or floating value widened to eight bytes. -/
def asDouble? : Literal → Option Double
  | single v => some v.toDouble
  | double v => some v
  | l => l.integer?.map Double.ofInt

/-- An integral value within the signed eight-byte integers. -/
def asInt64? (l : Literal) : Option Int :=
  l.integer?.filter fun n => n < Int.pow 2 63

/-- An integral value within the signed four-byte integers. -/
def asInt32? (l : Literal) : Option Int32 :=
  (l.integer?.filter fun n => -Int.pow 2 31 ≤ n ∧ n < Int.pow 2 31).map Int32.ofInt

def string? : Literal → Option String
  | string v => some v
  | _ => none

/-- Equality in which numbers are compared as numbers: both zeros are equal, an undefined number is
equal to nothing. -/
def same : Literal → Literal → Bool
  | single a, single b => a.same b
  | double a, double b => a.same b
  | a, b => a == b

/-- The plain text, with quotes but without escapes. -/
def text : Literal → String
  | null => "null"
  | bool v => if v then "true" else "false"
  | char v => String.ofList ['\'', v, '\'']
  | single v => v.text
  | double v => v.text
  | string v => "\"" ++ v ++ "\""
  | byte v => toString v.toNat
  | sbyte v => toString v.toInt
  | int16 v => toString v.toInt
  | uint16 v => toString v.toNat
  | int32 v => toString v.toInt
  | uint32 v => toString v.toNat
  | int64 v => toString v.toInt
  | uint64 v => toString v.toNat

end Literal

end

section

open Number (Double)

/-- An object made while another one was being read is told from its other copies by `copy`; an object
that stands in the heap for good has none. -/
structure Object where
  cell : Nat
  copy : Option Nat := none
  type : Descriptor
  deriving DecidableEq, Repr

inductive Value where
  | literal (l : Literal)
  | member (type : Descriptor) (name : String)
  | list (items : List Value)
  | object (o : Object)
  deriving Repr

instance : Inhabited Value := ⟨.literal .null⟩

/-- The type name of every list. -/
def listTypeName : TypeName := ⟨"System.Collections.Generic.List"⟩

namespace Value

def null : Value := .literal .null

def string (s : String) : Value := .literal (.string s)

/-- A member of an enumeration, if it declares that name. -/
def member? (type : Descriptor) (name : String) : Option Value :=
  if type.members.contains name then some (.member type name) else none

def isNull : Value → Bool
  | .literal .null => true
  | _ => false

/-- The name of the runtime type; null has none. -/
def typeName? : Value → Option TypeName
  | .literal l => l.primitive?.map Primitive.typeName
  | .member type _ => some type.name
  | .list _ => some listTypeName
  | .object o => some o.type.name

/-- The name of the runtime type, or `null`. -/
def typeText (v : Value) : String :=
  match v.typeName? with
  | some name => name.full
  | none => "null"

def literal? : Value → Option Literal
  | .literal l => some l
  | _ => none

def object? : Value → Option Object
  | .object o => some o
  | _ => none

def list? : Value → Option (List Value)
  | .list items => some items
  | _ => none

def string? (v : Value) : Option String := v.literal?.bind Literal.string?

def asDouble? (v : Value) : Option Double := v.literal?.bind Literal.asDouble?

def asInt64? (v : Value) : Option Int := v.literal?.bind Literal.asInt64?

def asInt32? (v : Value) : Option Int32 := v.literal?.bind Literal.asInt32?

/-- The text, or null. -/
def ofString? : Option String → Value
  | some s => string s
  | none => null

mutual

/-- With every copied object marked as belonging to copy `n`. -/
def copied (n : Nat) : Value → Value
  | .object o => .object { o with copy := o.copy.map fun _ => n }
  | .list items => .list (copiedAll n items)
  | v => v

def copiedAll (n : Nat) : List Value → List Value
  | [] => []
  | v :: rest => v.copied n :: copiedAll n rest

end

mutual

/-- The number of values in a value. -/
def size : Value → Nat
  | .list items => 1 + sizeAll items
  | _ => 1

def sizeAll : List Value → Nat
  | [] => 0
  | v :: rest => v.size + sizeAll rest

end

theorem copiedAll_eq_map (n : Nat) (items : List Value) :
    copiedAll n items = items.map (copied n) := by
  induction items with
  | nil => rfl
  | cons v rest ih => simp [copiedAll, ih]

end Value

end

inductive AccessError where
  | unknownProperty (typeName property : String)
  | getter (property message : String)
  deriving DecidableEq, Repr

def AccessError.message : AccessError → String
  | unknownProperty typeName property => s!"type '{typeName}' has no property '{property}'"
  | getter property message => s!"getter for '{property}' failed: {message}"

/-- What is known of one object: the properties whose getters fail, and the values of others. -/
structure Cell where
  live : Bool := false
  failures : List (String × String) := []
  values : List (String × Value) := []
  deriving Repr

namespace Cell

/-- The value last set for a property. -/
def value? (c : Cell) (property : String) : Option Value := c.values.reverse.lookup property

def read (c : Cell) (type : Descriptor) (property : String) : Except AccessError Value :=
  match c.failures.lookup property, c.value? property with
  | some message, _ => .error (.getter property message)
  | none, some v => .ok v
  | none, none =>
    if type.declares property then .ok .null
    else .error (.unknownProperty type.name.full property)

end Cell

structure Heap where
  cells : Array Cell := #[]
  deriving Repr

namespace Heap

/-- The number of cells and of the values in them. -/
def size (h : Heap) : Nat :=
  h.cells.toList.foldr (fun c n => 1 + Value.sizeAll (c.values.map (·.2)) + n) 0

def cell (h : Heap) (o : Object) : Cell := h.cells[o.cell]?.getD {}

/-- Puts an object into a new cell. -/
def allocate (h : Heap) (type : Descriptor) (c : Cell) (copy : Option Nat) : Object × Heap :=
  ({ cell := h.cells.size, copy, type }, ⟨h.cells.push c⟩)

/-- A property of an object; what a live cell answers becomes copy `reading`, and what a copy holds
belongs to the same copy. -/
def get (h : Heap) (o : Object) (property : String) (reading : Nat) : Except AccessError Value :=
  let c := h.cell o
  let copy := if c.live then some reading else o.copy
  (c.read o.type property).map fun v =>
    match copy with
    | some n => v.copied n
    | none => v

end Heap

end ResourceCode
