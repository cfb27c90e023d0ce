import ResourceCode.Value

/-!
Generated code: expressions, statements, methods and classes. An expression is method bound when it mentions
a local or `this`; only the others mean the same in every method. Methods and classes only grow: statements
are added at the end of a method and methods at the end of a class.
-/

namespace ResourceCode

/-- A call has a target, an invocation has none. -/
inductive Expr where
  | literal (l : Literal)
  | var (name : String)
  | this
  | type (t : TypeRef)
  | field (target : Expr) (name : String)
  | new (t : TypeRef) (args : List Expr)
  | call (target : Expr) (method : String) (args : List Expr)
  | invoke (method : String) (args : List Expr)
  | typeOf (t : TypeRef)
  | methodGroup (name : String)
  deriving Repr, Inhabited

namespace Expr

def null : Expr := literal .null

def string (s : String) : Expr := literal (.string s)

/-- A member of a type. -/
def static (type name : String) : Expr := field (Expr.type (.named type)) name

/-- The construction of a type that is written by its name. -/
def construct (type : String) (args : List Expr) : Expr := new (.named type) args

def isNull : Expr → Bool
  | literal .null => true
  | _ => false

def var? : Expr → Option String
  | var name => some name
  | _ => none

/-- The type of a construction. -/
def constructed? : Expr → Option TypeRef
  | new t _ => some t
  | _ => none

mutual

def isMethodBound : Expr → Bool
  | var _ | this => true
  | literal _ | type _ | typeOf _ | methodGroup _ => false
  | field target _ => target.isMethodBound
  | new _ args => anyMethodBound args
  | call target _ args => target.isMethodBound || anyMethodBound args
  | invoke _ args => anyMethodBound args

def anyMethodBound : List Expr → Bool
  | [] => false
  | e :: rest => e.isMethodBound || anyMethodBound rest

end

mutual

/-- Equality in which numbers are compared as numbers. -/
def same : Expr → Expr → Bool
  | literal a, literal b => a.same b
  | var a, var b => a == b
  | this, this => true
  | type a, type b => a.same b
  | field a m, field b n => a.same b && m == n
  | new t as, new u bs => t.same u && sameAll as bs
  | call a m as, call b n bs => a.same b && m == n && sameAll as bs
  | invoke m as, invoke n bs => m == n && sameAll as bs
  | typeOf a, typeOf b => a.same b
  | methodGroup a, methodGroup b => a == b
  | _, _ => false

def sameAll : List Expr → List Expr → Bool
  | [], [] => true
  | a :: as, b :: bs => a.same b && sameAll as bs
  | _, _ => false

end

theorem anyMethodBound_eq_any (es : List Expr) : anyMethodBound es = es.any isMethodBound := by
  induction es with
  | nil => rfl
  | cons e rest ih => simp [anyMethodBound, ih]

end Expr

inductive Statement where
  | declare (name : String) (type : TypeRef) (value : Option Expr)
  | assign (target value : Expr)
  | expr (e : Expr)
  | ret (value : Option Expr)
  deriving Repr

namespace Statement

/-- Assigns a member of a local. -/
def setMember (name member : String) (value : Expr) : Statement :=
  assign (.field (.var name) member) value

/-- Calls `Add` on a target. -/
def add (target item : Expr) : Statement := expr (.call target "Add" [item])

/-- The local that is declared. -/
def declared? : Statement → Option String
  | declare name _ _ => some name
  | _ => none

/-- The member that is assigned, of any target. -/
def assigned? : Statement → Option String
  | assign (.field _ name) _ => some name
  | _ => none

end Statement

inductive Visibility where
  | «public» | «private» | «protected» | internal
  deriving DecidableEq, Repr

structure Parameter where
  name : String
  type : TypeRef
  deriving Repr

structure Method where
  name : String
  doc : Option String := none
  parameters : List Parameter := []
  returns : TypeRef := .void
  visibility : Visibility := .public
  isStatic : Bool := false
  body : List Statement := []
  deriving Repr

namespace Method

def push (m : Method) (s : Statement) : Method := { m with body := m.body ++ [s] }

@[simp] theorem body_push (m : Method) (s : Statement) : (m.push s).body = m.body ++ [s] := rfl
@[simp] theorem name_push (m : Method) (s : Statement) : (m.push s).name = m.name := rfl

end Method

structure Class where
  name : String
  namespaceName : Option String := none
  usings : List String := []
  base : Option String := none
  isPartial : Bool := false
  visibility : Visibility := .public
  methods : List Method := []
  deriving Repr

namespace Class

def add (c : Class) (m : Method) : Class := { c with methods := c.methods ++ [m] }

/-- The first method of that name. -/
def method? (c : Class) (name : String) : Option Method := c.methods.find? (·.name = name)

def hasMethod (c : Class) (name : String) : Bool := (c.method? name).isSome

@[simp] theorem methods_add (c : Class) (m : Method) :
    (c.add m).methods = c.methods ++ [m] := rfl

/-- A class has a method of a name exactly when one of its methods bears it. -/
theorem hasMethod_iff {c : Class} {name : String} :
    c.hasMethod name = true ↔ name ∈ c.methods.map Method.name := by
  simp [hasMethod, method?]

/-- Of `base`, `base2`, `base3`, and so on, the first name that neither the class has nor `taken` is. The
names tried are one more than could be in use. -/
def freeName (c : Class) (taken base : String) : String :=
  let isFree (name : String) : Bool := !c.hasMethod name && name != taken
  if isFree base then base
  else
    ((List.range (c.methods.length + 2)).map fun n => base ++ toString (n + 2)).find? isFree
      |>.getD base

end Class

end ResourceCode
