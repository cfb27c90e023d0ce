import ResourceCode.Emitter

/-!
The generator turns values into code. It decides by the runtime type of a value how to handle it, follows the
recipe of the emitter in charge, and drafts an emitter itself for a type that has none. An object that is met
again while it is being emitted is an error. The generator keeps the registered emitters, the types it has
drafted by itself with the properties that those leave out, and the resources that have been emitted so far.

Recipes may have other values emitted, so following one needs a bound on how deep emitters run inside each
other; `none` means that the bound was reached.

A session writes one class: it emits values into the current method, records the expressions of named
resources so that later values can refer to them, and finishes methods one after another. What a failed
emission has written stays.
-/

namespace ResourceCode

structure SkippedProperty where
  typeName : String
  property : String
  obstacle : Obstacle
  deriving DecidableEq, Repr

structure Report where
  drafted : List String := []
  skipped : List SkippedProperty := []
  deriving DecidableEq, Repr

namespace Report

/-- What a blueprint leaves out. -/
def skippedBy (b : Blueprint) : List SkippedProperty :=
  b.skipped.map fun (property, obstacle) => ⟨b.type.name.full, property, obstacle⟩

def recordSkipped (r : Report) (b : Blueprint) : Report :=
  { r with skipped := r.skipped ++ skippedBy b }

def recordDrafted (r : Report) (b : Blueprint) : Report :=
  { r with drafted := r.drafted ++ [b.type.name.full] }

def skippedFor (r : Report) (typeName : String) : List SkippedProperty :=
  r.skipped.filter (·.typeName = typeName)

def isEmpty (r : Report) : Bool := r.drafted.isEmpty && r.skipped.isEmpty

end Report

structure Resources where
  entries : List (String × Expr) := []
  deriving Repr

namespace Resources

def find? (r : Resources) (key : String) : Option Expr := r.entries.lookup key

def contains (r : Resources) (key : String) : Bool := (r.find? key).isSome

def keys (r : Resources) : List String := r.entries.map (·.1)

/-- Records an expression; a key that is known keeps its place. -/
def record (r : Resources) (key : String) (e : Expr) : Resources :=
  if r.contains key then ⟨r.entries.map fun entry => if entry.1 = key then (key, e) else entry⟩
  else ⟨r.entries ++ [(key, e)]⟩

/-- The last recording of a key counts. -/
theorem find?_record (r : Resources) (key : String) (e : Expr) (other : String) :
    (r.record key e).find? other = if other = key then some e else r.find? other := by
  have hmap (entries : List (String × Expr)) :
      (entries.map fun entry => if entry.1 = key then (key, e) else entry).lookup other
        = if other = key then (entries.lookup other).map fun _ => e else entries.lookup other := by
    induction entries with
    | nil => simp
    | cons entry rest ih =>
      obtain ⟨name, old⟩ := entry
      by_cases ho : other = key
      · by_cases he : name = key
        · simp [he, ho]
        · have hk : (key == name) = false := beq_false_of_ne (Ne.symm he)
          simpa [List.lookup_cons, he, ho, hk] using ih
      · by_cases he : name = key
        · have hk : (other == key) = false := beq_false_of_ne ho
          simpa [List.lookup_cons, he, ho, hk] using ih
        · cases h : other == name <;> simp_all [List.lookup_cons]
  unfold record
  split
  · rename_i hc
    refine (hmap r.entries).trans ?_
    by_cases ho : other = key
    · obtain ⟨old, hold⟩ := Option.isSome_iff_exists.1 (show (r.entries.lookup key).isSome from hc)
      simp [ho, hold]
    · simp [ho, find?]
  · rename_i hc
    have hnone : r.entries.lookup key = none := Option.not_isSome_iff_eq_none.1 hc
    unfold find?
    rw [List.lookup_append]
    by_cases ho : other = key
    · subst ho
      simp [hnone]
    · have hk : (other == key) = false := beq_false_of_ne ho
      simp [ho, List.lookup_cons, hk]

end Resources

structure Registry where
  entries : List (TypeName × Emitter) := []

namespace Registry

def find? (r : Registry) (type : TypeName) : Option Emitter := r.entries.lookup type

def contains (r : Registry) (type : TypeName) : Bool := (r.find? type).isSome

def keys (r : Registry) : List TypeName := r.entries.map (·.1)

def size (r : Registry) : Nat := r.entries.length

def register (r : Registry) (type : TypeName) (e : Emitter) : Except EmitError Registry :=
  if r.contains type then .error (.duplicateRegistration type.full)
  else .ok ⟨r.entries ++ [(type, e)]⟩

/-- Registers an emitter for its own type. -/
def add (r : Registry) (e : Emitter) : Except EmitError Registry := r.register e.typeName e

/-- The registered names as a set, for inspection. -/
def text (r : Registry) : String :=
  "\x7b" ++ ", ".intercalate (r.keys.map fun name => Text.quoted name.full) ++ "\x7d"

/-- The registry of the built-in emitters. -/
def builtin : Registry := ⟨Builtin.all.map fun b => (b.typeName, .builtin b)⟩

theorem contains_iff {r : Registry} {type : TypeName} : r.contains type = true ↔ type ∈ r.keys := by
  unfold contains find? keys
  induction r.entries with
  | nil => simp
  | cons entry rest ih =>
    obtain ⟨name, e⟩ := entry
    by_cases h : type = name
    · simp [h]
    · rw [List.lookup_cons, beq_false_of_ne h, List.map_cons, List.mem_cons]
      exact ih.trans ⟨.inr, fun hm => hm.resolve_left h⟩

end Registry

/-- How a value is handled. -/
inductive Handling where
  | null
  | registered (e : Emitter)
  | enumeration
  | locator
  | blueprint

/-- The handling for inspection. -/
def Handling.text : Handling → String
  | null => "Null"
  | registered e => "Registered(" ++ Text.quoted e.typeName.full ++ ")"
  | enumeration => "Enum"
  | locator => "ViewModelLocator"
  | blueprint => "Reflective"

/-- The objects in progress are those whose emission has begun and not yet ended. -/
structure Generator where
  options : Options := {}
  registry : Registry := .builtin
  report : Report := {}
  inProgress : List Object := []

namespace Generator

def register (g : Generator) (e : Emitter) : Except EmitError Generator :=
  (g.registry.add e).map fun registry => { g with registry }

/-- The emitter registered for the exact type comes first. -/
def handling (g : Generator) (v : Value) : Handling :=
  match v.typeName? with
  | none => .null
  | some type =>
    match g.registry.find? type with
    | some e => .registered e
    | none =>
      match v with
      | .member .. => .enumeration
      | .object o =>
        if o.type.isEnumeration then .enumeration
        else if o.type.derivesLocator then .locator
        else .blueprint
      | _ => .blueprint

/-- Drafts and registers an emitter for a type. What its blueprint leaves out is reported first. -/
def draft (g : Generator) (type : Descriptor) : Except EmitError Emitter × Generator :=
  let b := Blueprint.ofDescriptor type g.options.order
  let report := g.report.recordSkipped b
  match g.registry.register type.name (.drafted b) with
  | .ok registry => (.ok (.drafted b), { g with registry, report := report.recordDrafted b })
  | .error e => (.error e, { g with report })

end Generator

/-- Where code is written: what objects answer, the resources that can be referred to, and whether the
current method is another than the one in which the resources were emitted. -/
structure Scope where
  heap : Heap := {}
  resources : Option Resources := none
  nested : Bool := false

/-- The recorded expression of a resource, if it means the same in this scope. -/
def Scope.recorded? (s : Scope) (key : String) : Option Expr :=
  (s.resources.bind (·.find? key)).filter fun e => !(s.nested && e.isMethodBound)

/-- Everything that emission changes. -/
structure Workshop where
  generator : Generator := {}
  current : Method
  target : Class

namespace Workshop

def push (w : Workshop) (s : Statement) : Workshop := { w with current := w.current.push s }

def enter (w : Workshop) (o : Object) : Workshop :=
  { w with generator := { w.generator with inProgress := o :: w.generator.inProgress } }

def leave (w : Workshop) (o : Object) : Workshop :=
  { w with generator := { w.generator with inProgress := w.generator.inProgress.erase o } }

/-- Leaving an object undoes entering it. -/
@[simp] theorem leave_enter (w : Workshop) (o : Object) : (w.enter o).leave o = w := by
  simp [enter, leave]

end Workshop

/-- A result, and what has become of the workshop; failures keep what was written before them. -/
abbrev Outcome (α : Type) := Except EmitError α × Workshop

/-- A way to have a value emitted under the name of its local. -/
abbrev Emission := Scope → Value → String → Workshop → Option (Outcome Expr)

/-- A factory method: static, private, and from one element to another. -/
def Method.factory (name : String) : Method :=
  { name
    parameters := [⟨"parent", .named "UIElement"⟩]
    returns := .named "UIElement"
    visibility := .private
    isStatic := true }

/-- Emits into a method of its own. The method joins the class, with a return of the result at its end,
only when that succeeds. -/
def Emission.inMethod (emit : Emission) (m : Method) : Emission :=
  fun scope v base w =>
    (emit { scope with nested := true } v base { w with current := m }).map fun
      | (.ok e, w') =>
        (.ok e, { w' with
          current := w.current
          target := w'.target.add (w'.current.push (.ret (some e))) })
      | (.error e, w') => (.error e, { w' with current := w.current })

/-- Follows a recipe: `emit` emits nested values, `run` runs an emitter directly. -/
def Recipe.follow {α : Type} (emit : Emission) (run : Emitter → Emission) (scope : Scope) :
    Recipe α → Workshop → Option (Outcome α)
  | .done a, w => some (.ok a, w)
  | .fail e, w => some (.error e, w)
  | .push s next, w => next.follow emit run scope (w.push s)
  | .read o property next, w =>
    (next (scope.heap.get o property w.generator.inProgress.length)).follow emit run scope w
  | .emit v base next, w =>
    (emit scope v base w).bind fun (r, w) => (next r).follow emit run scope w
  | .delegate type v base next, w =>
    match w.generator.registry.find? type with
    | some e => (run e scope v base w).bind fun (r, w) => (next r).follow emit run scope w
    | none =>
      (next (.error (.unsupported v "no emitter is registered for this type"))).follow
        emit run scope w
  | .recorded key next, w => (next (scope.recorded? key)).follow emit run scope w
  | .factory stem content root next, w =>
    let name := w.target.freeName w.current.name stem
    (emit.inMethod (.factory name) scope content root w).bind fun (r, w) =>
      (next (r.map fun _ => name)).follow emit run scope w

namespace Generator

/-- The expression for an enumeration member. -/
def enumMember : Value → Except EmitError Expr
  | .member type name => .ok (.field (.type (.ofName type.name)) name)
  | v => .error (.unsupported v "enum values must be given as an enum member")

/-- Handles a value, given how emitters are run. -/
def handle (run : Emitter → Emission) (handling : Handling) : Emission :=
  fun scope v base w =>
    match handling with
    | .null => some (.ok .null, w)
    | .registered e => run e scope v base w
    | .enumeration => some (enumMember v, w)
    | .locator =>
      match v.typeName? with
      | some type => some (.ok (.new (.ofName type) []), w)
      | none => some (.error (.unsupported v "expected an object"), w)
    | .blueprint =>
      match v with
      | .object o =>
        let (r, generator) := w.generator.draft o.type
        match r with
        | .ok e => run e scope v base { w with generator }
        | .error e => some (.error e, { w with generator })
      | v => some (.error (.unsupported v "no emitter is registered for this type"), w)

/-- Emits a value, given how emitters are run. How to handle it is decided before an object counts as being
in progress. -/
def emitVia (run : Emitter → Emission) : Emission :=
  fun scope v base w =>
    let handling := w.generator.handling v
    match v with
    | .object o =>
      if o ∈ w.generator.inProgress then some (.error (.unsupported v "cyclic reference"), w)
      else (handle run handling scope v base (w.enter o)).map fun (r, w) => (r, w.leave o)
    | v => handle run handling scope v base w

/-- Runs an emitter on a value; inside each other emitters run at most `depth` deep. -/
def runWithin : Nat → Emitter → Emission
  | 0, _ => fun _ _ _ _ => none
  | depth + 1, e => fun scope v base w =>
    (e.recipe w.generator.options v base).follow
      (emitVia (runWithin depth)) (runWithin depth) scope w

def emitWithin (depth : Nat) : Emission := emitVia (runWithin depth)

/-- More than built-in and drafted emitters need whenever they come to an end: an object in progress is met
once, and between two of them stand only lists. The factor leaves room for custom emitters that pass a value
on. -/
def depthBound (heap : Heap) (v : Value) : Nat := 256 * Nat.pow (heap.size + v.size + 2) 2

/-- Runs an emitter on a value, whatever the value's type is. -/
def run (e : Emitter) : Emission :=
  fun scope v base w => runWithin (depthBound scope.heap v) e scope v base w

/-- Emits a value into the current method and class. -/
def emit : Emission := fun scope v base w => emitWithin (depthBound scope.heap v) scope v base w

end Generator

structure Session where
  workshop : Workshop
  resources : Resources := {}

/-- What one emission gave: its result, and what it added to the current method and to the class. -/
structure Emitted where
  result : Except EmitError Expr
  statements : List Statement
  methods : List Method

namespace Session

/-- A session with the built-in emitters. -/
def start (options : Options) (target : Class) (current : Method) : Session :=
  { workshop := { generator := { options }, target, current } }

def scope (s : Session) (heap : Heap) (withResources : Bool) : Scope :=
  { heap, resources := if withResources then some s.resources else none }

/-- Applies an emission to the workshop. -/
def apply (s : Session) (emission : Emission) (scope : Scope) (v : Value) (base : String) :
    Option (Emitted × Session) :=
  (emission scope v base s.workshop).map fun (result, w) =>
    ({ result
       statements := w.current.body.drop s.workshop.current.body.length
       methods := w.target.methods.drop s.workshop.target.methods.length },
      { s with workshop := w })

/-- Emits a value into the current method. -/
def emit (s : Session) (heap : Heap) (withResources : Bool) (v : Value) (base : String) :
    Option (Emitted × Session) :=
  s.apply Generator.emit (s.scope heap withResources) v base

/-- Emits a value into a method of its own, which joins the class on success. -/
def emitIn (s : Session) (m : Method) (heap : Heap) (withResources : Bool) (v : Value)
    (base : String) : Option (Emitted × Session) :=
  s.apply (Generator.emit.inMethod m) (s.scope heap withResources) v base

/-- Runs an emitter on a value whatever the value's type is, with no resources to refer to. -/
def run (s : Session) (e : Emitter) (heap : Heap) (v : Value) (base : String) :
    Option (Emitted × Session) :=
  s.apply (Generator.run e) (s.scope heap false) v base

def push (s : Session) (statement : Statement) : Session :=
  { s with workshop := s.workshop.push statement }

/-- Records the expression of a resource, and gives the one it replaces. -/
def record (s : Session) (key : String) (e : Expr) : Option Expr × Session :=
  (s.resources.find? key, { s with resources := s.resources.record key e })

/-- The statement that adds a resource to the dictionary being built. -/
def addStatement (key : String) (e : Expr) : Statement := .expr (.call .this "Add" [.string key, e])

/-- Emits a named resource; on success it is added to the dictionary and recorded. Gives what the
recording replaces. -/
def addResource (s : Session) (heap : Heap) (key : String) (v : Value) (base : String) :
    Option (Emitted × Option Expr × Session) :=
  (s.emit heap true v base).map fun (emitted, s) =>
    match emitted.result with
    | .ok e =>
      let (previous, s) := (s.push (addStatement key e)).record key e
      (emitted, previous, s)
    | .error _ => (emitted, none, s)

def register (s : Session) (e : Emitter) : Except EmitError Session :=
  (s.workshop.generator.register e).map fun generator =>
    { s with workshop := { s.workshop with generator } }

/-- Adds the current method to the class and goes on with another. -/
def finish (s : Session) (next : Method) : Session :=
  { s with workshop := { s.workshop with
      target := s.workshop.target.add s.workshop.current, current := next } }

end Session

end ResourceCode
