import ResourceCode.Code
import ResourceCode.Options

/-!
A recipe says, step by step, how one emitter turns a value into code: which properties it reads, which values
it has emitted for it, and which statements it adds to the current method. It is plain data with a continuation
for each answer, so what an emitter may do at all can be read off this type.

When a value cannot be emitted, the error names the type of the value it is about: a failed read and a value of
the wrong kind are errors about the object that is read.

The blueprint of a type is emission by description alone. It lists the properties that are carried over, each
of which is emitted and then assigned, and the others with their obstacles. Both lists are in declaration order
or sorted by name.
-/

namespace ResourceCode

inductive EmitError where
  | duplicateRegistration (typeName : String)
  | unsupportedValue (typeName reason : String)
  | propertyAccess (typeName property : String) (source : AccessError)
  deriving DecidableEq, Repr

namespace EmitError

def unsupported (v : Value) (reason : String) : EmitError := unsupportedValue v.typeText reason

/-- A property of an object that holds a value of the wrong kind. -/
def mismatch (o : Object) (property expected : String) : EmitError :=
  unsupportedValue o.type.name.full ("property '" ++ property ++ "' is not " ++ expected)

def typeName : EmitError → String
  | duplicateRegistration typeName => typeName
  | unsupportedValue typeName _ => typeName
  | propertyAccess typeName _ _ => typeName

def message : EmitError → String
  | duplicateRegistration typeName => s!"an emitter is already registered for type '{typeName}'"
  | unsupportedValue typeName reason => s!"cannot emit value of type '{typeName}': {reason}"
  | propertyAccess typeName property _ =>
    s!"failed to read property '{property}' of type '{typeName}'"

/-- The failed read behind the error. -/
def source? : EmitError → Option AccessError
  | propertyAccess _ _ source => some source
  | _ => none

def code : EmitError → String
  | duplicateRegistration _ => "uigen::duplicate_registration"
  | unsupportedValue .. => "uigen::unsupported_value"
  | propertyAccess .. => "uigen::property_access"

def help? : EmitError → Option String
  | duplicateRegistration _ => some "each type key can be registered once per generator"
  | _ => none

end EmitError

inductive Recipe (α : Type) where
  | done (result : α)
  | fail (e : EmitError)
  /-- Adds a statement to the current method. -/
  | push (s : Statement) (next : Recipe α)
  | read (o : Object) (property : String) (next : Except AccessError Value → Recipe α)
  /-- Has a nested value emitted, with `base` as the name of its local. -/
  | emit (v : Value) (base : String) (next : Except EmitError Expr → Recipe α)
  /-- Has a value emitted by the emitter registered for a type, whatever the value's own type is. -/
  | delegate (type : TypeName) (v : Value) (base : String) (next : Except EmitError Expr → Recipe α)
  /-- Asks for the recorded expression of a resource, if it means the same in this method. -/
  | recorded (key : String) (next : Option Expr → Recipe α)
  /-- Adds a factory method that returns `content`, its name made from `stem` and its local called
  `root`, and asks for the factory's name. -/
  | factory (stem : String) (content : Value) (root : String) (next : Except EmitError String → Recipe α)

namespace Recipe

variable {α β : Type}

def bind : Recipe α → (α → Recipe β) → Recipe β
  | done a, f => f a
  | fail e, _ => fail e
  | push s next, f => push s (next.bind f)
  | read o property next, f => read o property fun r => (next r).bind f
  | emit v base next, f => emit v base fun r => (next r).bind f
  | delegate type v base next, f => delegate type v base fun r => (next r).bind f
  | recorded key next, f => recorded key fun r => (next r).bind f
  | factory stem content root next, f => factory stem content root fun r => (next r).bind f

instance : Monad Recipe where
  pure := done
  bind := bind

@[simp] theorem pure_eq (a : α) : (pure a : Recipe α) = done a := rfl
@[simp] theorem bind_eq (r : Recipe α) (f : α → Recipe β) : r >>= f = r.bind f := rfl
@[simp] theorem bind_done (a : α) (f : α → Recipe β) : (done a).bind f = f a := rfl
@[simp] theorem bind_fail (e : EmitError) (f : α → Recipe β) : (fail e).bind f = fail e := rfl

/-- Finishing with the answer adds nothing to a recipe. -/
@[simp] theorem bind_done_right (r : Recipe α) : r.bind .done = r := by
  induction r with
  | done a => rfl
  | fail e => rfl
  | push s next ih => exact congrArg (push s) ih
  | read o property next ih => exact congrArg (read o property) (funext ih)
  | emit v base next ih => exact congrArg (emit v base) (funext ih)
  | delegate type v base next ih => exact congrArg (delegate type v base) (funext ih)
  | recorded key next ih => exact congrArg (recorded key) (funext ih)
  | factory stem content root next ih => exact congrArg (factory stem content root) (funext ih)

/-- It makes no difference how the steps of a recipe are bracketed. -/
theorem bind_assoc {γ : Type} (r : Recipe α) (f : α → Recipe β) (g : β → Recipe γ) :
    (r.bind f).bind g = r.bind fun a => (f a).bind g := by
  induction r with
  | done a => rfl
  | fail e => rfl
  | push s next ih => exact congrArg (push s) ih
  | read o property next ih => exact congrArg (read o property) (funext ih)
  | emit v base next ih => exact congrArg (emit v base) (funext ih)
  | delegate type v base next ih => exact congrArg (delegate type v base) (funext ih)
  | recorded key next ih => exact congrArg (recorded key) (funext ih)
  | factory stem content root next ih => exact congrArg (factory stem content root) (funext ih)

/-- The answer, or failure with the same error. -/
def ofExcept : Except EmitError α → Recipe α
  | .ok a => done a
  | .error e => fail e

/-- Has a nested value emitted, and fails when that fails. -/
def nested (v : Value) (base : String) : Recipe Expr := emit v base ofExcept

def add (s : Statement) : Recipe Unit := push s (done ())

def addAll : List Statement → Recipe Unit
  | [] => done ()
  | s :: rest => push s (addAll rest)

/-- Follows a recipe for each item, in order. -/
def forEach (f : α → Recipe β) : List α → Recipe (List β)
  | [] => done []
  | a :: rest => do
    let b ← f a
    let bs ← forEach f rest
    return b :: bs

/-- Declares a local as a newly constructed object and then adds more statements about it. -/
def build (name : String) (t : TypeRef) (args : List Expr) (more : List Statement) : Recipe Expr := do
  add (.declare name t (some (.new t args)))
  addAll more
  return .var name

/-- Declares a local and assigns its members. -/
def buildMembers (name : String) (t : TypeRef) (members : List (String × Expr)) : Recipe Expr :=
  build name t [] (members.map fun (member, value) => .setMember name member value)

end Recipe

namespace Recipe

open Number (Single)

def asObject : Value → Recipe Object
  | .object o => done o
  | v => fail (.unsupported v "expected an object")

def get (o : Object) (property : String) : Recipe Value :=
  read o property fun
    | .ok v => done v
    | .error e => fail (.propertyAccess o.type.name.full property e)

/-- The answer, or an error that says what the property should be. -/
def expect {α : Type} (o : Object) (property expected : String) : Option α → Recipe α
  | some a => done a
  | none => fail (.mismatch o property expected)

/-- A number rounded to four bytes; null is none. -/
def getSingle? (o : Object) (property : String) : Recipe (Option Single) := do
  let v ← get o property
  if v.isNull then return none
  return some (← expect o property "a number" v.asDouble?).toSingle

def getSingle (o : Object) (property : String) : Recipe Single := do
  expect o property "a number" (← getSingle? o property)

def getInt32 (o : Object) (property : String) : Recipe Int32 := do
  expect o property "a 32-bit integer" (← get o property).asInt32?

/-- A text; null is none. -/
def getString? (o : Object) (property : String) : Recipe (Option String) := do
  let v ← get o property
  if v.isNull then return none
  return some (← expect o property "a string" v.string?)

def getString (o : Object) (property : String) : Recipe String := do
  expect o property "a string" (← getString? o property)

/-- The items of a list; null has none. -/
def getList (o : Object) (property : String) : Recipe (List Value) := do
  let v ← get o property
  if v.isNull then return []
  expect o property "a list" v.list?

/-- A property emitted under the name of its local; null is none. -/
def emitted? (o : Object) (property local' : String) : Recipe (Option Expr) := do
  let v ← get o property
  if v.isNull then return none
  return some (← nested v local')

end Recipe

structure Blueprint where
  type : Descriptor
  carried : List String
  skipped : List (String × Obstacle)
  deriving Repr

namespace Blueprint

def carriedOf (type : Descriptor) : List String :=
  (type.properties.filter Property.isCarried).map Property.name

/-- The obstacle of a property, under its name. -/
def obstacleOf? (p : Property) : Option (String × Obstacle) := p.obstacle?.map fun why => (p.name, why)

def skippedOf (type : Descriptor) : List (String × Obstacle) :=
  type.properties.filterMap obstacleOf?

def ofDescriptor (type : Descriptor) : PropertyOrder → Blueprint
  | .declared => { type, carried := carriedOf type, skipped := skippedOf type }
  | .name =>
    { type
      carried := (carriedOf type).mergeSort fun a b => decide (a ≤ b)
      skipped := (skippedOf type).mergeSort fun a b => decide (a.1 ≤ b.1) }

/-- A carried property with its emitted value. -/
def member (options : Options) (o : Object) (base property : String) : Recipe (String × Expr) := do
  let current ← Recipe.get o property
  let value ← Recipe.nested current (options.nestedName base property)
  return (property, value)

def recipe (b : Blueprint) (options : Options) (v : Value) (base : String) : Recipe Expr := do
  let o ← Recipe.asObject v
  let members ← Recipe.forEach (member options o base) b.carried
  Recipe.buildMembers base (.ofName b.type.name) members

@[simp] theorem type_ofDescriptor (type : Descriptor) (order : PropertyOrder) :
    (ofDescriptor type order).type = type := by cases order <;> rfl

/-- A blueprint carries a name exactly when a property that can be carried over has it, whatever the order. -/
theorem mem_carried_ofDescriptor {type : Descriptor} {order : PropertyOrder} {name : String} :
    name ∈ (ofDescriptor type order).carried ↔
      ∃ p ∈ type.properties, p.isCarried = true ∧ p.name = name := by
  cases order <;> simp [ofDescriptor, carriedOf, List.mem_mergeSort, and_assoc]

end Blueprint

end ResourceCode
