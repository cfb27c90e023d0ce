import ResourceCode.Emitter

/-!
What following a recipe may amount to. An orderly recipe reads and hands on only values that it owns, has
values emitted only before it declares its local, writes only about that local and out of the expressions it
was given, and fails only by passing on a failure or by blaming a value that it owns.

The anatomy of a value is what it is made of, as its emitter sees it: its parts in the order in which they are
emitted, and whether there is a local for the value itself. The reads of an emitter are orderly steps that find
these parts.
-/

namespace ResourceCode

/-- A part of a value, under the member name that goes into the names of its locals. A part that stands apart
gets a factory method of its own. -/
structure Part where
  member : String
  value : Value
  apart : Bool := false

/-- The part that a factory method is made for. -/
def Part.root (content : Value) : Part := { member := "Root", value := content, apart := true }

/-- What an emitter has been given so far: an expression for each part, and the recorded expressions. -/
structure Hand where
  given : List (Part × Expr) := []
  recorded : List Expr := []
  declared : Bool := false

namespace Hand

def add (h : Hand) (p : Part) (e : Expr) : Hand := { h with given := h.given ++ [(p, e)] }

def addRecorded (h : Hand) (e : Expr) : Hand := { h with recorded := h.recorded ++ [e] }

/-- After a statement; a declaration can only be the one of the emitter's local. -/
def push (h : Hand) (s : Statement) : Hand :=
  { h with declared := h.declared || s.declared?.isSome }

/-- The expressions that can be put together out of what has been given. -/
inductive Makes (h : Hand) (base : String) : Expr → Prop
  | given {p e} : (p, e) ∈ h.given → Makes h base e
  | recorded {e} : e ∈ h.recorded → Makes h base e
  | var : h.declared = true → Makes h base (.var base)
  | literal (l) : Makes h base (.literal l)
  | type (t) : Makes h base (.type t)
  | typeOf (t) : Makes h base (.typeOf t)
  | field {target} (name) : Makes h base target → Makes h base (.field target name)
  | new (t) {args} : (∀ e ∈ args, Makes h base e) → Makes h base (.new t args)
  | call {target} (method) {args} : Makes h base target → (∀ e ∈ args, Makes h base e) →
      Makes h base (.call target method args)

/-- The statements that may be written: one declaration of the emitter's local, and then assignments and
calls. -/
def Allows (h : Hand) (base : String) : Statement → Prop
  | .declare name _ value => name = base ∧ h.declared = false ∧ ∀ e ∈ value, h.Makes base e
  | .assign target value => h.Makes base target ∧ h.Makes base value
  | .expr e => h.Makes base e
  | .ret _ => False

/-- Has at least what the other has. -/
structure Le (h k : Hand) : Prop where
  given : ∀ x ∈ h.given, x ∈ k.given
  recorded : ∀ x ∈ h.recorded, x ∈ k.recorded
  declared : h.declared = true → k.declared = true

/-- What can be written goes on being so when more has been given. -/
theorem Makes.mono {h k : Hand} {base : String} {e : Expr} (hk : h.Le k) (he : h.Makes base e) :
    k.Makes base e := by
  induction he with
  | given hm => exact .given (hk.given _ hm)
  | recorded hm => exact .recorded (hk.recorded _ hm)
  | var hd => exact .var (hk.declared hd)
  | literal l => exact .literal l
  | type t => exact .type t
  | typeOf t => exact .typeOf t
  | field name _ ih => exact .field name ih
  | new t _ ih => exact .new t ih
  | call method _ _ iht iha => exact .call method iht iha

/-- The parts that have been emitted. -/
def parts (h : Hand) : List Part := h.given.map (·.1)

/-- Grown by emitted parts and by nothing else. -/
structure Gathers (h : Hand) (parts : List Part) (k : Hand) : Prop where
  given : ∃ new, k.given = h.given ++ new ∧ new.map (·.1) = parts
  recorded : k.recorded = h.recorded
  declared : k.declared = h.declared

theorem Gathers.refl (h : Hand) : h.Gathers [] h := ⟨⟨[], by simp⟩, rfl, rfl⟩

/-- Parts are gathered one after another. -/
theorem Gathers.trans {h k l : Hand} {xs ys : List Part} (hk : h.Gathers xs k)
    (kl : k.Gathers ys l) : h.Gathers (xs ++ ys) l := by
  obtain ⟨new, hnew, rfl⟩ := hk.given
  obtain ⟨more, hmore, rfl⟩ := kl.given
  exact ⟨⟨new ++ more, by simp [hmore, hnew]⟩, kl.recorded.trans hk.recorded,
    kl.declared.trans hk.declared⟩

theorem Gathers.le {h k : Hand} {xs : List Part} (hk : h.Gathers xs k) : h.Le k := by
  obtain ⟨new, hnew, _⟩ := hk.given
  exact ⟨by simp +contextual [hnew], by simp [hk.recorded], by simp [hk.declared]⟩

theorem gathers_add (h : Hand) (p : Part) (e : Expr) : h.Gathers [p] (h.add p e) :=
  ⟨⟨[(p, e)], rfl, rfl⟩, rfl, rfl⟩

theorem makes_add (h : Hand) (base : String) (p : Part) (e : Expr) : (h.add p e).Makes base e :=
  .given (p := p) (by simp [add])

/-- With the local declared. -/
def declare (h : Hand) : Hand := { h with declared := true }

theorem le_declare (h : Hand) : h.Le h.declare :=
  ⟨fun _ hx => hx, fun _ hx => hx, fun _ => rfl⟩

theorem makes_field_var (h : Hand) {base : String} (hd : h.declared = true) (member : String) :
    h.Makes base (.field (.var base) member) := .field member (.var hd)

end Hand

/-- What objects answer when their properties are read. -/
abbrev Answers := Object → String → Except AccessError Value

/-- One emission: the options, the name of the local, what reads answer, and the values that are owned. What
is found in an owned value is owned. -/
structure Job where
  options : Options
  base : String
  answer : Answers
  owned : Value → Prop
  owned_read : ∀ {o property v}, owned (.object o) → answer o property = .ok v → owned v
  owned_item : ∀ {items v}, owned (.list items) → v ∈ items → owned v

/-- The errors that are about an owned value. -/
inductive Job.Blames (j : Job) : EmitError → Prop
  | unsupported {v} (reason) : j.owned v → Blames j (.unsupported v reason)
  | access {o property source} : j.owned (.object o) → j.answer o property = .error source →
      Blames j (.propertyAccess o.type.name.full property source)

theorem Job.blames_mismatch {j : Job} {o : Object} (ho : j.owned (.object o))
    (property expected : String) : j.Blames (.mismatch o property expected) :=
  .unsupported (v := .object o) _ ho

namespace Recipe

variable {α β : Type} {j : Job} {h : Hand}

/-- An orderly recipe, and what holds of its result. Failures of nested emissions are passed on. -/
def Orderly (j : Job) : Recipe α → Hand → (α → Hand → Prop) → Prop
  | .done a, h, Q => Q a h
  | .fail e, _, _ => j.Blames e
  | .push s next, h, Q => h.Allows j.base s ∧ next.Orderly j (h.push s) Q
  | .read o property next, h, Q =>
    j.owned (.object o) ∧ (next (j.answer o property)).Orderly j h Q
  | .emit v name next, h, Q =>
    j.owned v ∧ h.declared = false ∧ ∃ member, name = j.options.nestedName j.base member ∧
      (∀ e, next (.error e) = .fail e) ∧
      ∀ e, (next (.ok e)).Orderly j (h.add { member, value := v } e) Q
  | .delegate .., _, _ => False
  | .recorded _ next, h, Q =>
    (next none).Orderly j h Q ∧ ∀ e, (next (some e)).Orderly j (h.addRecorded e) Q
  | .factory stem content root next, h, Q =>
    stem = j.base ++ "_Factory" ∧ root = j.options.nestedName j.base "Root" ∧ j.owned content ∧
      h.declared = false ∧ (∀ e, next (.error e) = .fail e) ∧
      ∀ name, (next (.ok name)).Orderly j (h.add (.root content) (.methodGroup name)) Q

/-- More may be admitted of what the recipe comes to. -/
theorem Orderly.mono {r : Recipe α} {P Q : α → Hand → Prop} (hr : r.Orderly j h P)
    (hPQ : ∀ a k, P a k → Q a k) : r.Orderly j h Q := by
  induction r generalizing h with
  | done a => exact hPQ a h hr
  | fail e => exact hr
  | push s next ih => exact ⟨hr.1, ih hr.2⟩
  | read o property next ih => exact ⟨hr.1, ih _ hr.2⟩
  | emit v name next ih =>
    obtain ⟨hv, hd, member, hname, hfail, hok⟩ := hr
    exact ⟨hv, hd, member, hname, hfail, fun e => ih _ (hok e)⟩
  | delegate type v name next ih => exact hr
  | recorded key next ih => exact ⟨ih _ hr.1, fun e => ih _ (hr.2 e)⟩
  | factory stem content root next ih =>
    obtain ⟨hstem, hroot, hc, hd, hfail, hok⟩ := hr
    exact ⟨hstem, hroot, hc, hd, hfail, fun name => ih _ (hok name)⟩

/-- A recipe is orderly when its first part is and what follows is with all that has been given by then. -/
theorem Orderly.bind {r : Recipe α} {f : α → Recipe β} {Q : β → Hand → Prop}
    (hr : r.Orderly j h fun a k => (f a).Orderly j k Q) : (r.bind f).Orderly j h Q := by
  induction r generalizing h with
  | done a => exact hr
  | fail e => exact hr
  | push s next ih => exact ⟨hr.1, ih hr.2⟩
  | read o property next ih => exact ⟨hr.1, ih _ hr.2⟩
  | emit v name next ih =>
    obtain ⟨hv, hd, member, hname, hfail, hok⟩ := hr
    exact ⟨hv, hd, member, hname, fun e => by simp only [hfail, bind_fail], fun e => ih _ (hok e)⟩
  | delegate type v name next ih => exact hr
  | recorded key next ih => exact ⟨ih _ hr.1, fun e => ih _ (hr.2 e)⟩
  | factory stem content root next ih =>
    obtain ⟨hstem, hroot, hc, hd, hfail, hok⟩ := hr
    exact ⟨hstem, hroot, hc, hd, fun e => by simp only [hfail, bind_fail], fun name => ih _ (hok name)⟩

theorem orderly_nested {v : Value} {member : String} {Q : Expr → Hand → Prop} (hv : j.owned v)
    (hd : h.declared = false) (hQ : ∀ e, Q e (h.add { member, value := v } e)) :
    (nested v (j.options.nestedName j.base member)).Orderly j h Q :=
  ⟨hv, hd, member, rfl, fun _ => rfl, hQ⟩

/-- Items that are followed one after another gather their parts one after another. -/
theorem orderly_forEach {f : α → Recipe β} {items : List α} (parts : α → List Part)
    {P : β → Hand → Prop} (hP : ∀ b k l, k.Le l → P b k → P b l) (hd : h.declared = false)
    (hf : ∀ a ∈ items, ∀ k : Hand, k.declared = false →
      (f a).Orderly j k fun b l => k.Gathers (parts a) l ∧ P b l) :
    (forEach f items).Orderly j h fun bs k =>
      h.Gathers (items.flatMap parts) k ∧ ∀ b ∈ bs, P b k := by
  induction items generalizing h with
  | nil => exact ⟨.refl h, by simp⟩
  | cons a rest ih =>
    refine Orderly.bind ((hf a List.mem_cons_self h hd).mono fun b k ⟨hk, hb⟩ => ?_)
    have hdk : k.declared = false := hk.declared.trans hd
    refine Orderly.bind ((ih hdk fun c hc => hf c (List.mem_cons_of_mem a hc)).mono
      fun bs l ⟨hl, hbs⟩ => ?_)
    refine ⟨hk.trans hl, fun c hc => ?_⟩
    rcases List.mem_cons.mp hc with rfl | hc
    · exact hP c k l hl.le hb
    · exact hbs c hc

/-- Statements about a local that has been declared. -/
theorem orderly_addAll {statements : List Statement} {Q : Unit → Hand → Prop}
    (hs : ∀ s ∈ statements, s.declared? = none ∧ h.Allows j.base s) (hQ : Q () h) :
    (addAll statements).Orderly j h Q := by
  induction statements with
  | nil => exact hQ
  | cons s rest ih =>
    obtain ⟨hn, ha⟩ := hs s List.mem_cons_self
    have hp : h.push s = h := by simp [Hand.push, hn]
    exact ⟨ha, by rw [hp]; exact ih fun t ht => hs t (List.mem_cons_of_mem s ht)⟩

theorem orderly_build {t : TypeRef} {args : List Expr} {more : List Statement}
    {Q : Expr → Hand → Prop} (hd : h.declared = false) (hargs : ∀ e ∈ args, h.Makes j.base e)
    (hmore : ∀ s ∈ more, s.declared? = none ∧ h.declare.Allows j.base s)
    (hQ : Q (.var j.base) h.declare) : (build j.base t args more).Orderly j h Q := by
  have hnew : h.Makes j.base (.new t args) := .new t hargs
  have hp : h.push (.declare j.base t (some (.new t args))) = h.declare := by
    simp [Hand.push, Hand.declare, Statement.declared?]
  refine ⟨⟨rfl, hd, by simpa using hnew⟩, ?_⟩
  rw [hp]
  change ((addAll more).bind fun _ => done (.var j.base)).Orderly j h.declare Q
  exact (orderly_addAll hmore hQ).bind

/-- An object is built from members that can be written, and its local is then declared. -/
theorem orderly_buildMembers {t : TypeRef} {members : List (String × Expr)}
    {Q : Expr → Hand → Prop} (hd : h.declared = false)
    (hm : ∀ m ∈ members, h.Makes j.base m.2) (hQ : Q (.var j.base) h.declare) :
    (buildMembers j.base t members).Orderly j h Q := by
  refine orderly_build hd (by simp) (fun s hs => ?_) hQ
  obtain ⟨m, hmem, rfl⟩ := List.mem_map.mp hs
  exact ⟨rfl, h.declare.makes_field_var rfl m.1, (hm m hmem).mono h.le_declare⟩

end Recipe

structure Anatomy where
  parts : List Part := []
  hasLocal : Bool := false

namespace Answers

variable (answer : Answers)

/-- What an object has for a property; null stands for what cannot be read. -/
def value (o : Object) (property : String) : Value :=
  match answer o property with
  | .ok v => v
  | .error _ => .null

/-- A property as a part, unless it is null. -/
def present (o : Object) (property member : String) : List Part :=
  if (answer.value o property).isNull then []
  else [{ member, value := answer.value o property }]

def items (o : Object) (property : String) : List Value := ((answer.value o property).list?).getD []

def fieldParts (o : Object) (f : Field) : List Part :=
  match f.kind with
  | .single => []
  | .value => answer.present o f.property f.member

def stopParts (stop : Value × Nat) : List Part :=
  match stop.1 with
  | .object o => [{ member := "Stop" ++ toString stop.2, value := answer.value o "Color" }]
  | _ => []

/-- A setter's value goes by the last segment of its property. -/
def setterParts : Value → List Part
  | .object o =>
    let property := ((answer.value o "Property").string?).getD ""
    [{ member := Text.identifier (Recipe.setterTarget none property).2
       value := answer.value o "Value" }]
  | _ => []

def carriedParts (o : Object) (carried : List String) : List Part :=
  carried.map fun property => { member := property, value := answer.value o property }

end Answers

/-- What an object is made of for a built-in emitter. -/
def Builtin.objectAnatomy (answer : Answers) (o : Object) : Builtin → Anatomy
  | .initializer i => { parts := i.fields.flatMap (answer.fieldParts o), hasLocal := true }
  | .animation a => { parts := a.ends.flatMap (answer.fieldParts o), hasLocal := true }
  | .template _ => { parts := [.root (answer.value o "VisualTree")] }
  | .solidColorBrush =>
    { parts := [{ member := "Color", value := answer.value o "Color" }], hasLocal := true }
  | .linearGradientBrush =>
    { parts := ["StartPoint", "EndPoint"].flatMap (fun member => answer.present o member member)
        ++ (answer.items o "GradientStops").zipIdx.flatMap answer.stopParts
      hasLocal := true }
  | .style =>
    { parts := answer.present o "BasedOn" "BasedOn"
        ++ (answer.items o "Setters").flatMap answer.setterParts
      hasLocal := true }
  | .primitive _ | .construction _ | .resourceReference | .fontFamily | .fontWeight | .list => {}

def itemParts (items : List Value) : List Part :=
  items.zipIdx.map fun item => { member := toString item.2, value := item.1 }

def Emitter.anatomy (answer : Answers) : Emitter → Value → Anatomy
  | .builtin b, .object o => b.objectAnatomy answer o
  | .builtin .list, .list items => { parts := itemParts items, hasLocal := true }
  | .drafted b, .object o => { parts := answer.carriedParts o b.carried, hasLocal := true }
  | _, _ => {}

/-- Built in or drafted. -/
def Emitter.IsOwn : Emitter → Prop
  | .builtin _ | .drafted _ => True
  | .custom .. => False

def Hand.anatomy (h : Hand) : Anatomy := ⟨h.parts, h.declared⟩

/-- A hand that has gathered parts and declared nothing has just these parts. -/
theorem Hand.Gathers.anatomy_eq {k : Hand} {parts : List Part}
    (hk : ({} : Hand).Gathers parts k) : k.anatomy = { parts } := by
  obtain ⟨new, hnew, rfl⟩ := hk.given
  have hd : k.declared = false := hk.declared
  simp [Hand.anatomy, Hand.parts, hnew, hd]

theorem Hand.anatomy_declare (h : Hand) :
    h.declare.anatomy = { h.anatomy with hasLocal := true } := rfl

/-- A recipe's end: its result is put together from the hand, which has gone through the anatomy. -/
def Job.Finishes (j : Job) (a : Anatomy) (e : Expr) (h : Hand) : Prop :=
  h.Makes j.base e ∧ h.anatomy = a

namespace Recipe

variable {α : Type} {j : Job} {h : Hand} {o : Object} {property : String}

theorem orderly_asObject {v : Value} {Q : Object → Hand → Prop} (hv : j.owned v)
    (hQ : ∀ o, v = .object o → Q o h) : (asObject v).Orderly j h Q := by
  cases v with
  | object o => exact hQ o rfl
  | literal l => exact .unsupported _ hv
  | member type name => exact .unsupported _ hv
  | list items => exact .unsupported _ hv

theorem orderly_get {Q : Value → Hand → Prop} (ho : j.owned (.object o))
    (hQ : j.owned (j.answer.value o property) → Q (j.answer.value o property) h) :
    (get o property).Orderly j h Q := by
  refine ⟨ho, ?_⟩
  cases ha : j.answer o property with
  | ok v =>
    have hv : j.answer.value o property = v := by simp [Answers.value, ha]
    rw [hv] at hQ
    exact hQ (j.owned_read ho ha)
  | error e => exact .access ho ha

theorem orderly_expect {expected : String} {x : Option α} {Q : α → Hand → Prop}
    (ho : j.owned (.object o)) (hQ : ∀ a, x = some a → Q a h) :
    (expect o property expected x).Orderly j h Q := by
  cases x with
  | some a => exact hQ a rfl
  | none => exact Job.blames_mismatch ho property expected

theorem orderly_getSingle? {Q : Option Number.Single → Hand → Prop} (ho : j.owned (.object o))
    (hQ : ∀ x, Q x h) : (getSingle? o property).Orderly j h Q := by
  refine Orderly.bind (orderly_get ho fun _ => ?_)
  split
  · exact hQ none
  · exact Orderly.bind (orderly_expect ho fun x _ => hQ _)

theorem orderly_getSingle {Q : Number.Single → Hand → Prop} (ho : j.owned (.object o))
    (hQ : ∀ x, Q x h) : (getSingle o property).Orderly j h Q :=
  Orderly.bind (orderly_getSingle? ho fun _ => orderly_expect ho fun x _ => hQ x)

theorem orderly_getInt32 {Q : Int32 → Hand → Prop} (ho : j.owned (.object o)) (hQ : ∀ x, Q x h) :
    (getInt32 o property).Orderly j h Q :=
  Orderly.bind (orderly_get ho fun _ => orderly_expect ho fun x _ => hQ x)

theorem orderly_getString? {Q : Option String → Hand → Prop} (ho : j.owned (.object o))
    (hQ : ∀ s, (∀ t, s = some t → (j.answer.value o property).string? = some t) → Q s h) :
    (getString? o property).Orderly j h Q := by
  refine Orderly.bind (orderly_get ho fun _ => ?_)
  split
  · exact hQ none (by simp)
  · exact Orderly.bind (orderly_expect ho fun t ht => hQ (some t) (by simp [ht]))

theorem orderly_getString {Q : String → Hand → Prop} (ho : j.owned (.object o))
    (hQ : ∀ t, (j.answer.value o property).string? = some t → Q t h) :
    (getString o property).Orderly j h Q :=
  Orderly.bind (orderly_getString? ho fun _ hs => orderly_expect ho fun t ht => hQ t (hs t ht))

theorem orderly_getList {Q : List Value → Hand → Prop} (ho : j.owned (.object o))
    (hQ : (∀ v ∈ j.answer.items o property, j.owned v) → Q (j.answer.items o property) h) :
    (getList o property).Orderly j h Q := by
  refine Orderly.bind (orderly_get ho fun hv => ?_)
  have hitems : ∀ v ∈ j.answer.items o property, j.owned v := by
    intro v hmem
    unfold Answers.items at hmem
    cases hl : j.answer.value o property with
    | list items =>
      rw [hl] at hv hmem
      exact j.owned_item hv hmem
    | _ => simp [hl, Value.list?] at hmem
  split
  · rename_i hn
    have hnil : j.answer.items o property = [] := by
      cases hl : j.answer.value o property <;> simp_all [Answers.items, Value.list?, Value.isNull]
    rw [hnil] at hQ
    exact hQ (by simp)
  · refine orderly_expect ho fun items hl => ?_
    have hi : j.answer.items o property = items := by simp [Answers.items, hl]
    rw [← hi]
    exact hQ hitems

theorem orderly_emitted? {member : String} {Q : Option Expr → Hand → Prop}
    (ho : j.owned (.object o)) (hd : h.declared = false)
    (hQ : ∀ x k, h.Gathers (j.answer.present o property member) k →
      (∀ e, x = some e → k.Makes j.base e) → Q x k) :
    (emitted? o property (j.options.nestedName j.base member)).Orderly j h Q := by
  refine Orderly.bind (orderly_get ho fun hv => ?_)
  split
  · rename_i hn
    exact hQ none h (by simpa [Answers.present, hn] using Hand.Gathers.refl h) (by simp)
  · rename_i hn
    refine Orderly.bind (orderly_nested hv hd fun e => ?_)
    refine hQ (some e) _ ?_ fun e' he => ?_
    · simpa [Answers.present, hn] using h.gathers_add { member, value := _ } e
    · cases he
      exact h.makes_add ..

end Recipe

end ResourceCode
