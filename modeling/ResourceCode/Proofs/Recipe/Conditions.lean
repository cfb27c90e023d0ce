import ResourceCode.Emitter

/-!
How a recipe may fail. Under conditions on what reads answer, on which failures are admitted and on which values
may be met, a recipe is gone through with every answer that the conditions leave open. Built-in and drafted
emitters blame a value for a reason of their own or pass a failed read on, and they read what the descriptor of
their type declares and nothing else.
-/

namespace ResourceCode

/-- What reads may answer, which failures are admitted, which values may be met, and which of them may be left to
the emitter of another type. -/
structure Conditions where
  answers : Object → String → Except AccessError Value → Prop
  admits : EmitError → Prop
  covers : Value → Prop
  delegates : Value → Prop
  covers_read : ∀ {o property v}, covers (.object o) → answers o property (.ok v) → covers v
  covers_item : ∀ {items v}, covers (.list items) → v ∈ items → covers v

/-- The answer to a delegation when the type has no emitter. -/
def EmitError.noEmitter (v : Value) : EmitError :=
  .unsupported v "no emitter is registered for this type"

namespace Conditions

variable (c : Conditions)

/-- An answer that is no failure, or an admitted one. -/
def Grants {α : Type} (r : Except EmitError α) : Prop := ∀ e, r = .error e → c.admits e

/-- Values may be blamed for every reason but the two that no emitter should ever have. -/
def Lenient : Prop :=
  ∀ type reason, reason ≠ "no emitter is registered for this type" → reason ≠ "not a literal" →
    c.admits (.unsupportedValue type reason)

/-- If a declared property cannot be read, that is admitted. -/
def Readable (type : Descriptor) (o : Object) : Prop :=
  ∀ property e, type.declares property = true → c.answers o property (.error e) →
    c.admits (.propertyAccess o.type.name.full property e)

end Conditions

/-- The collection of a known type whose items are read one by one, with the type they are read as. -/
def KnownType.element? : KnownType → Option (String × KnownType)
  | linearGradientBrush => some ("GradientStops", gradientStop)
  | style => some ("Setters", setter)
  | _ => none

/-- An object can be read as one of a known type, and so can the items of its collection. -/
structure Conditions.Serves (c : Conditions) (k : KnownType) (o : Object) : Prop where
  readable : c.Readable k.descriptor o
  element : ∀ {property element items x}, k.element? = some (property, element) →
    c.answers o property (.ok (.list items)) → .object x ∈ items → c.Readable element.descriptor x

namespace Recipe

variable {α β : Type} {c : Conditions}

/-- Whatever is answered under the conditions, a failure is an admitted one, the values met are covered, and `Q`
holds of the result. -/
def Meets (c : Conditions) : Recipe α → (α → Prop) → Prop
  | .done a, Q => Q a
  | .fail e, _ => c.admits e
  | .push _ next, Q => next.Meets c Q
  | .read o property next, Q => ∀ r, c.answers o property r → (next r).Meets c Q
  | .emit v _ next, Q => c.covers v ∧ ∀ r, c.Grants r → (next r).Meets c Q
  | .delegate _ v _ next, Q =>
    c.delegates v ∧ (next (.error (.noEmitter v))).Meets c Q ∧ ∀ r, c.Grants r → (next r).Meets c Q
  | .recorded _ next, Q => ∀ e, (next e).Meets c Q
  | .factory _ content _ next, Q => c.covers content ∧ ∀ r, c.Grants r → (next r).Meets c Q

/-- A recipe meets the conditions when its first part does and what follows does for every answer the part may
give. -/
theorem Meets.bind {r : Recipe α} {f : α → Recipe β} {P : α → Prop} {Q : β → Prop}
    (hr : r.Meets c P) (hf : ∀ a, P a → (f a).Meets c Q) : (r.bind f).Meets c Q := by
  induction r with
  | done a => exact hf a hr
  | fail e => exact hr
  | push s next ih => exact ih hr
  | read o property next ih => exact fun x hx => ih x (hr x hx)
  | emit v base next ih => exact ⟨hr.1, fun x hx => ih x (hr.2 x hx)⟩
  | delegate type v base next ih =>
    exact ⟨hr.1, ih _ hr.2.1, fun x hx => ih x (hr.2.2 x hx)⟩
  | recorded key next ih => exact fun x => ih x (hr x)
  | factory stem content root next ih => exact ⟨hr.1, fun x hx => ih x (hr.2 x hx)⟩

theorem Meets.mono {r : Recipe α} {P Q : α → Prop} (hr : r.Meets c P) (hPQ : ∀ a, P a → Q a) :
    r.Meets c Q := by
  rw [← r.bind_done_right]
  exact hr.bind hPQ

theorem meets_ofExcept {r : Except EmitError α} (hr : c.Grants r) :
    (ofExcept r).Meets c fun _ => True := by
  cases r with
  | ok a => trivial
  | error e => exact hr e rfl

theorem meets_nested {v : Value} {base : String} (hv : c.covers v) :
    (nested v base).Meets c fun _ => True :=
  ⟨hv, fun _ hr => meets_ofExcept hr⟩

theorem meets_addAll (statements : List Statement) :
    (addAll statements).Meets c fun _ => True := by
  induction statements with
  | nil => trivial
  | cons s rest ih => exact ih

theorem meets_build (name : String) (t : TypeRef) (args : List Expr) (more : List Statement) :
    (build name t args more).Meets c fun _ => True := by
  change ((addAll more).bind fun _ => done (Expr.var name)).Meets c _
  exact (meets_addAll more).bind fun _ _ => trivial

theorem meets_forEach {f : α → Recipe β} {items : List α}
    (hf : ∀ a ∈ items, (f a).Meets c fun _ => True) :
    (forEach f items).Meets c fun _ => True := by
  induction items with
  | nil => trivial
  | cons a rest ih =>
    refine (hf a List.mem_cons_self).bind fun _ _ => ?_
    exact (ih fun b hb => hf b (List.mem_cons_of_mem a hb)).bind fun _ _ => trivial

theorem meets_asObject {v : Value} (hc : c.Lenient) :
    (asObject v).Meets c fun o => v = .object o := by
  cases v with
  | object o => rfl
  | _ => exact hc _ _ (by decide) (by decide)

theorem mismatch_ne (property expected : String) {reason : String}
    (h : reason.toList.head? ≠ some 'p') :
    "property '" ++ property ++ "' is not " ++ expected ≠ reason := by
  rintro rfl
  exact h (by simp)

theorem meets_expect (hc : c.Lenient) (o : Object) (property expected : String) (x : Option α) :
    (expect o property expected x).Meets c fun a => x = some a := by
  cases x with
  | some a => rfl
  | none => exact hc _ _ (mismatch_ne _ _ (by decide)) (mismatch_ne _ _ (by decide))

section

variable {type : Descriptor} {o : Object} {property : String}

/-- A property that can be read gives a value that is covered again. -/
theorem meets_get (ho : c.covers (.object o)) (hr : c.Readable type o)
    (hp : type.declares property = true) :
    (get o property).Meets c fun v => c.covers v ∧ c.answers o property (.ok v) := by
  intro r hanswer
  cases r with
  | ok v => exact ⟨c.covers_read ho hanswer, hanswer⟩
  | error e => exact hr property e hp hanswer

variable (hc : c.Lenient) (ho : c.covers (.object o)) (hr : c.Readable type o)
  (hp : type.declares property = true)

include hc ho hr hp

theorem meets_getSingle? : (getSingle? o property).Meets c fun _ => True := by
  refine (meets_get ho hr hp).bind fun v _ => ?_
  split
  · trivial
  · exact (meets_expect hc ..).bind fun _ _ => trivial

theorem meets_getSingle : (getSingle o property).Meets c fun _ => True :=
  (meets_getSingle? hc ho hr hp).bind fun x _ =>
    (meets_expect hc o property "a number" x).mono fun _ _ => trivial

theorem meets_getInt32 : (getInt32 o property).Meets c fun _ => True :=
  (meets_get ho hr hp).bind fun v _ =>
    (meets_expect hc o property "a 32-bit integer" v.asInt32?).mono fun _ _ => trivial

theorem meets_getString? : (getString? o property).Meets c fun _ => True := by
  refine (meets_get ho hr hp).bind fun v _ => ?_
  split
  · trivial
  · exact (meets_expect hc ..).bind fun _ _ => trivial

theorem meets_getString : (getString o property).Meets c fun _ => True :=
  (meets_getString? hc ho hr hp).bind fun s _ =>
    (meets_expect hc o property "a string" s).mono fun _ _ => trivial

/-- The items that are got are those of a list that has been read. -/
theorem meets_getList :
    (getList o property).Meets c fun items => ∀ v ∈ items, c.covers v ∧
      ∃ read, c.answers o property (.ok (.list read)) ∧ v ∈ read := by
  refine (meets_get ho hr hp).bind fun v ⟨hv, hanswer⟩ => ?_
  split
  · exact fun x hx => absurd hx List.not_mem_nil
  · cases v with
    | list items => exact fun x hx => ⟨c.covers_item hv hx, items, hanswer, hx⟩
    | _ => exact (meets_expect hc o property "a list" none).mono fun _ h => by cases h

omit hc in
theorem meets_emitted? (name : String) : (emitted? o property name).Meets c fun _ => True := by
  refine (meets_get ho hr hp).bind fun v ⟨hv, _⟩ => ?_
  split
  · trivial
  · exact (meets_nested hv).bind fun _ _ => trivial

end

/-- A primitive emitter writes a literal or says what it has expected, and nothing else. -/
theorem primitive_cases (p : Primitive) (v : Value) :
    (∃ l, v = .literal l ∧ primitive p v = .done (.literal l)) ∨
      primitive p v = .fail (.unsupported v ("expected a " ++ p.typeName.full ++ " value")) := by
  unfold primitive
  split
  · rename_i h
    cases v with
    | literal l => exact .inl ⟨l, rfl, rfl⟩
    | _ => cases h
  · exact .inr rfl

theorem expected_ne (type : String) {reason : String} (h : reason.toList.head? ≠ some 'e') :
    "expected a " ++ type ++ " value" ≠ reason := by
  rintro rfl
  exact h (by simp)

theorem meets_primitive (hc : c.Lenient) (p : Primitive) (v : Value) :
    (primitive p v).Meets c fun _ => True := by
  obtain ⟨l, -, h⟩ | h := primitive_cases p v
  · rw [h]
    trivial
  · rw [h]
    exact hc _ _ (expected_ne _ (by decide)) (expected_ne _ (by decide))

end Recipe

open Recipe

/-- The property that an argument is read from. -/
def Argument.property : Argument → String
  | integer property | single property => property

theorem Construction.declares_arguments (k : Construction) :
    ∀ a ∈ k.arguments, k.type.descriptor.declares a.property = true := by
  cases k <;> decide

theorem Initializer.declares_fields (i : Initializer) :
    ∀ f ∈ i.fields, i.type.descriptor.declares f.property = true := by
  cases i <;> decide

theorem Animation.declares_ends (a : Animation) :
    ∀ f ∈ a.ends, a.type.descriptor.declares f.property = true := by
  cases a <;> decide

section

variable {c : Conditions} {v : Value} {o : Object} (hc : c.Lenient) (hv : c.covers v)
  (options : Options) (base : String)

include hc hv

theorem meets_construction (k : Construction)
    (hs : ∀ o, v = .object o → c.Serves k.type o) : (k.recipe v).Meets c fun _ => True := by
  refine (meets_asObject hc).bind fun o ho => ?_
  subst ho
  have hread := (hs o rfl).readable
  refine (meets_forEach fun a ha => ?_).bind fun _ _ => trivial
  have hp := k.declares_arguments a ha
  cases a with
  | integer property => exact (meets_getInt32 hc hv hread hp).bind fun _ _ => trivial
  | single property => exact (meets_getSingle hc hv hread hp).bind fun _ _ => trivial

omit hv in
theorem meets_members (ho : c.covers (.object o)) {type : Descriptor} (hr : c.Readable type o)
    {fields : List Field} (hf : ∀ f ∈ fields, type.declares f.property = true) :
    (Field.members options o base fields).Meets c fun _ => True := by
  refine (meets_forEach fun f hmem => ?_).bind fun _ _ => trivial
  have hp := hf f hmem
  unfold Field.recipe
  split
  · exact (meets_getSingle? hc ho hr hp).bind fun _ _ => trivial
  · exact (meets_emitted? ho hr hp _).bind fun _ _ => trivial

theorem meets_initializer (i : Initializer) (hs : ∀ o, v = .object o → c.Serves i.type o) :
    (i.recipe options v base).Meets c fun _ => True := by
  refine (meets_asObject hc).bind fun o ho => ?_
  subst ho
  refine (meets_members hc options base hv (hs o rfl).readable i.declares_fields).bind fun _ _ => ?_
  exact meets_build ..

theorem meets_animation (a : Animation) (hs : ∀ o, v = .object o → c.Serves a.type o) :
    (a.recipe options v base).Meets c fun _ => True := by
  refine (meets_asObject hc).bind fun o ho => ?_
  subst ho
  have hread := (hs o rfl).readable
  have hp : ∀ property ∈ ["Duration", "TargetName", "TargetProperty"],
      a.type.descriptor.declares property = true := by
    cases a <;> decide
  refine (meets_members hc options base hv hread a.declares_ends).bind fun _ _ => ?_
  refine (meets_getSingle? hc hv hread (hp _ (by decide))).bind fun _ _ => ?_
  refine (meets_getString? hc hv hread (hp _ (by decide))).bind fun _ _ => ?_
  refine (meets_getString? hc hv hread (hp _ (by decide))).bind fun _ _ => ?_
  exact meets_build ..

theorem meets_template (t : Template) (hs : ∀ o, v = .object o → c.Serves t.type o) :
    (t.recipe options v base).Meets c fun _ => True := by
  refine (meets_asObject hc).bind fun o ho => ?_
  subst ho
  have hread := (hs o rfl).readable
  have htype : (t.appliesTo o).Meets c fun _ => True := by
    cases t with
    | data => exact meets_getString? hc hv hread (by decide)
    | control => exact meets_getString? hc hv hread (by decide)
    | itemsPanel => trivial
  have htree : t.type.descriptor.declares "VisualTree" = true := by
    cases t <;> decide
  refine htype.bind fun _ _ => ?_
  refine (meets_get hv hread htree).bind fun content ⟨hcontent, _⟩ => ?_
  exact ⟨hcontent, fun r hr => (meets_ofExcept hr).bind fun _ _ => trivial⟩

omit hv in
theorem meets_addOpacity (ho : c.covers (.object o)) {type : Descriptor} (hr : c.Readable type o)
    (hp : type.declares "Opacity" = true) : (addOpacity o base).Meets c fun _ => True := by
  refine (meets_getSingle? hc ho hr hp).bind fun x _ => ?_
  cases x with
  | none => trivial
  | some x =>
    dsimp only
    split <;> trivial

theorem meets_solidColorBrush (hs : ∀ o, v = .object o → c.Serves .solidColorBrush o) :
    (solidColorBrush options v base).Meets c fun _ => True := by
  refine (meets_asObject hc).bind fun o ho => ?_
  subst ho
  have hread := (hs o rfl).readable
  refine (meets_get hv hread (by decide)).bind fun current ⟨hcurrent, _⟩ => ?_
  refine (meets_nested hcurrent).bind fun _ _ => ?_
  refine Meets.bind (meets_build ..) fun _ _ => ?_
  exact (meets_addOpacity hc base hv hread (by decide)).bind fun _ _ => trivial

theorem meets_linearGradientBrush (hs : ∀ o, v = .object o → c.Serves .linearGradientBrush o) :
    (linearGradientBrush options v base).Meets c fun _ => True := by
  refine (meets_asObject hc).bind fun o ho => ?_
  subst ho
  have hserves := hs o rfl
  have hread := hserves.readable
  have hends : ∀ member ∈ ["StartPoint", "EndPoint"],
      KnownType.linearGradientBrush.descriptor.declares member = true := by decide
  refine (meets_forEach fun member hmember => ?_).bind fun _ _ => ?_
  · exact (meets_emitted? hv hread (hends member hmember) _).bind fun _ _ => trivial
  refine (meets_getList hc hv hread (by decide)).bind fun stops hstops => ?_
  refine (meets_forEach fun stop hstop => ?_).bind fun _ _ => ?_
  · obtain ⟨hcovers, items, hanswer, hitem⟩ := hstops _ (List.fst_mem_of_mem_zipIdx hstop)
    refine (meets_asObject hc).bind fun s hstop => ?_
    rw [hstop] at hcovers hitem
    have hstopRead := hserves.element rfl hanswer hitem
    refine (meets_get hcovers hstopRead (by decide)).bind fun color ⟨hcolor, _⟩ => ?_
    refine (meets_nested hcolor).bind fun _ _ => ?_
    exact (meets_getSingle hc hcovers hstopRead (by decide)).bind fun _ _ => trivial
  refine Meets.bind (meets_build ..) fun _ _ => ?_
  exact (meets_addOpacity hc base hv hread (by decide)).bind fun _ _ => trivial

theorem meets_style (hs : ∀ o, v = .object o → c.Serves .style o) :
    (style options v base).Meets c fun _ => True := by
  refine (meets_asObject hc).bind fun o ho => ?_
  subst ho
  have hserves := hs o rfl
  have hread := hserves.readable
  refine (meets_getString? hc hv hread (by decide)).bind fun _ _ => ?_
  refine (meets_emitted? hv hread (by decide) _).bind fun _ _ => ?_
  refine (meets_getList hc hv hread (by decide)).bind fun setters hsetters => ?_
  refine (meets_forEach fun s hs => ?_).bind fun _ _ => meets_build ..
  obtain ⟨hcovers, items, hanswer, hitem⟩ := hsetters s hs
  refine (meets_asObject hc).bind fun x hx => ?_
  rw [hx] at hcovers hitem
  have hsetter := hserves.element rfl hanswer hitem
  refine (meets_getString hc hcovers hsetter (by decide)).bind fun _ _ => ?_
  refine (meets_get hcovers hsetter (by decide)).bind fun current ⟨hcurrent, _⟩ => ?_
  exact (meets_nested hcurrent).bind fun _ _ => trivial

theorem meets_resourceReference (hs : ∀ o, v = .object o → c.Serves .resourceReference o) :
    (resourceReference v).Meets c fun _ => True := by
  refine (meets_asObject hc).bind fun o ho => ?_
  subst ho
  refine (meets_getString hc hv (hs o rfl).readable (by decide)).bind fun _ _ => ?_
  intro e
  cases e <;> trivial

theorem meets_fontFamily (hs : ∀ o, v = .object o → c.Serves .fontFamily o) :
    (fontFamily v).Meets c fun _ => True := by
  refine (meets_asObject hc).bind fun o ho => ?_
  subst ho
  exact (meets_getString hc hv (hs o rfl).readable (by decide)).bind fun _ _ => trivial

theorem meets_fontWeight (hs : ∀ o, v = .object o → c.Serves .fontWeight o) :
    (fontWeight v).Meets c fun _ => True := by
  refine (meets_asObject hc).bind fun o ho => ?_
  subst ho
  exact (meets_getInt32 hc hv (hs o rfl).readable (by decide)).bind fun _ _ => trivial

theorem meets_list : (Recipe.list options v base).Meets c fun _ => True := by
  cases v with
  | list items =>
    refine (meets_forEach fun item hitem => ?_).bind fun _ _ => meets_build ..
    exact meets_nested (c.covers_item hv (List.fst_mem_of_mem_zipIdx hitem))
  | _ => exact hc _ _ (by decide) (by decide)

/-- Every built-in emitter, when the objects of its type can be read as such. -/
theorem Builtin.meets (b : Builtin)
    (hs : ∀ o k, v = .object o → k.typeName = b.typeName → c.Serves k o) :
    (b.recipe options v base).Meets c fun _ => True := by
  cases b with
  | primitive p => exact meets_primitive hc p v
  | construction k => exact meets_construction hc hv k fun o ho => hs o _ ho rfl
  | initializer i => exact meets_initializer hc hv options base i fun o ho => hs o _ ho rfl
  | template t => exact meets_template hc hv options base t fun o ho => hs o _ ho rfl
  | animation a => exact meets_animation hc hv options base a fun o ho => hs o _ ho rfl
  | solidColorBrush => exact meets_solidColorBrush hc hv options base fun o ho => hs o _ ho rfl
  | linearGradientBrush =>
    exact meets_linearGradientBrush hc hv options base fun o ho => hs o _ ho rfl
  | resourceReference => exact meets_resourceReference hc hv fun o ho => hs o _ ho rfl
  | style => exact meets_style hc hv options base fun o ho => hs o _ ho rfl
  | fontFamily => exact meets_fontFamily hc hv fun o ho => hs o _ ho rfl
  | fontWeight => exact meets_fontWeight hc hv fun o ho => hs o _ ho rfl
  | list => exact meets_list hc hv options base

/-- A drafted emitter, when the objects of its type can be read by what the type declares. -/
theorem Blueprint.meets {type : Descriptor} (order : PropertyOrder)
    (hr : ∀ o, v = .object o → c.Readable type o) :
    ((Blueprint.ofDescriptor type order).recipe options v base).Meets c fun _ => True := by
  refine (meets_asObject hc).bind fun o ho => ?_
  subst ho
  refine (meets_forEach fun property hproperty => ?_).bind fun _ _ => meets_build ..
  obtain ⟨p, hp, -, rfl⟩ := mem_carried_ofDescriptor.mp hproperty
  have hdeclares := Descriptor.declares_iff.mpr ⟨p, hp, rfl⟩
  refine (meets_get hv (hr o rfl) hdeclares).bind fun current ⟨hcurrent, _⟩ => ?_
  exact (meets_nested hcurrent).bind fun _ _ => trivial

end

end ResourceCode
