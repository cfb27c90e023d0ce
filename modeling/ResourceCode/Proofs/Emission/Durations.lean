import ResourceCode.Proofs.Emission.Collections
import ResourceCode.Proofs.Number.Narrowing

/-!
How long animations last. An animation is written member by member: its two ends, its duration, and what it animates.
The duration goes through a four-byte number on its way into an eight-byte literal, so the literal is the duration
exactly when a four-byte number stands for it.
-/

namespace ResourceCode

open Number (Single Double)

/-- A duration of that many seconds. -/
def Expr.lasting (seconds : Double) : Expr :=
  .construct "Duration"
    [.call (.type (.named "TimeSpan")) "FromSeconds" [.literal (.double seconds)]]

/-- The seconds of a duration that is assigned. -/
def Statement.seconds? : Statement → Option Double
  | .assign (.field _ "Duration") (.construct "Duration" [.call _ "FromSeconds" [.literal (.double d)]]) =>
    some d
  | _ => none

/-- What becomes of a copied property: what its member is assigned, if anything, and what has been emitted for it. -/
structure Copied where
  field : Field
  value : Option Expr
  product : Option Product

namespace Copied

def member? (c : Copied) : Option (String × Expr) := c.value.map (c.field.member, ·)

/-- The property is copied to an object that is emitted under the name `base`. -/
inductive Of (scope : Scope) (reading : Nat) (options : Options) (base : String) (o : Object) :
    Field → Copied → Prop
  | single {f : Field} {v x} : f.kind = .single →
      scope.heap.get o f.property reading = .ok v → v.HasSingle x →
      Of scope reading options base o f ⟨f, x.map fun x => .literal (.single x), none⟩
  | value {f : Field} {v p} : f.kind = .value →
      scope.heap.get o f.property reading = .ok v →
      v.HasProduct (options.nestedName base f.member) p →
      Of scope reading options base o f ⟨f, p.map Product.expr, p⟩

/-- A copied field remembers which field it was copied from. -/
theorem Of.field_eq {scope : Scope} {reading : Nat} {options : Options} {base : String} {o : Object}
    {f : Field} {c : Copied} (h : Of scope reading options base o f c) : f = c.field := by
  cases h <;> rfl

end Copied

/-- What an animation is made from. -/
structure AnimationParts where
  ends : List Copied
  seconds : Option Single
  targetName : Option String
  targetProperty : Option String

namespace AnimationParts

/-- What is emitted for an animation, in order. -/
def products (p : AnimationParts) : List Product := p.ends.flatMap fun c => c.product.toList

/-- The members that are assigned, in order. -/
def members (p : AnimationParts) : List (String × Expr) :=
  p.ends.filterMap Copied.member? ++ (p.seconds.map fun s => ("Duration", Animation.duration s)).toList

/-- What is then written about it. -/
def own (p : AnimationParts) (a : Animation) (base : String) : List Statement :=
  .declare base (.named a.target) (some (.new (.named a.target) []))
  :: (p.members.map (fun (member, value) => .setMember base member value)
    ++ (p.targetName.map (Animation.storyboard "SetTargetName" base)).toList
    ++ (p.targetProperty.map (Animation.storyboard "SetTargetProperty" base)).toList)

/-- The parts belong to an animation that is emitted under the name `base`. -/
structure Of (scope : Scope) (reading : Nat) (options : Options) (a : Animation) (base : String)
    (o : Object) (p : AnimationParts) : Prop where
  ends : List.Forall₂ (Copied.Of scope reading options base o) a.ends p.ends
  seconds : ∃ v, scope.heap.get o "Duration" reading = .ok v ∧ v.HasSingle p.seconds
  targetName : scope.heap.get o "TargetName" reading = .ok (.ofString? p.targetName)
  targetProperty : scope.heap.get o "TargetProperty" reading = .ok (.ofString? p.targetProperty)

variable {scope : Scope} {reading : Nat} {options : Options} {a : Animation} {base : String}
  {o : Object} {p : AnimationParts}

/-- The ends of an animation are copied in the order in which they are listed. -/
theorem Of.map_field (h : p.Of scope reading options a base o) : p.ends.map Copied.field = a.ends := by
  have hfields : List.Forall₂ (fun f c => f = Copied.field c) a.ends p.ends :=
    h.ends.imp fun _ _ hc => hc.field_eq
  rw [← List.forall₂_map_right_iff, List.forall₂_eq_eq_eq] at hfields
  exact hfields.symm

/-- No end of an animation is a duration. -/
theorem Of.member_ne (h : p.Of scope reading options a base o) :
    ∀ x ∈ p.ends.filterMap Copied.member?, x.1 ≠ "Duration" := by
  intro x hx
  obtain ⟨c, hc, hmember⟩ := List.mem_filterMap.mp hx
  obtain ⟨value, -, rfl⟩ := Option.map_eq_some_iff.mp hmember
  have hfield : c.field ∈ a.ends := h.map_field ▸ List.mem_map_of_mem hc
  simp only [Animation.ends, List.mem_cons, List.not_mem_nil, or_false] at hfield
  rcases hfield with hfield | hfield <;> simp [hfield]

/-- Of the statements about the animation itself, one assigns the duration when there is one. -/
theorem Of.filter_own (h : p.Of scope reading options a base o) :
    (p.own a base).filter (fun s => s.assigned? = some "Duration") =
      (p.seconds.map fun s => .setMember base "Duration" (.lasting s.toDouble)).toList := by
  have hends : ((p.ends.filterMap Copied.member?).map fun x =>
      Statement.setMember base x.1 x.2).filter (fun s => s.assigned? = some "Duration") = [] := by
    rw [List.filter_eq_nil_iff, List.forall_mem_map]
    intro x hx
    simpa [Statement.setMember, Statement.assigned?] using h.member_ne x hx
  have hseconds : ((p.seconds.map fun s => ("Duration", Animation.duration s)).toList.map fun x =>
      Statement.setMember base x.1 x.2).filter (fun s => s.assigned? = some "Duration") =
        (p.seconds.map fun s => .setMember base "Duration" (.lasting s.toDouble)).toList := by
    cases p.seconds <;> simp [Statement.setMember, Statement.assigned?, Animation.duration, Expr.lasting]
  have hcalls (method : String) (text : Option String) :
      (text.map (Animation.storyboard method base)).toList.filter
        (fun s => s.assigned? = some "Duration") = [] := by
    cases text <;> rfl
  rw [own, members, List.filter_cons_of_neg (by simp [Statement.assigned?])]
  simp only [List.map_append, List.filter_append, hends, hseconds, hcalls, List.nil_append,
    List.append_nil]

end AnimationParts

namespace Recipe.Gives

variable {depth : Nat} {scope : Scope} {w w' : Workshop} {entries : List Entry} {o : Object}
  {base : String} {options : Options} {e : Expr} {reading : Nat}

/-- An emitted field comes from a copied one: it is written before the declaration, and gives its member. -/
theorem of_field {f : Field} {x : Option (String × Expr)}
    (hw : w.generator.inProgress.length = reading)
    (h : (f.recipe options o base).Gives depth scope w x entries w') :
    ∃ c, Copied.Of scope reading options base o f c ∧ x = c.member? ∧
      entries = c.product.toList.map Product.entry := by
  subst hw
  unfold Field.recipe at h
  cases hkind : f.kind with
  | single =>
    rw [hkind] at h
    obtain ⟨x, hx, hdone⟩ := of_reading_bind (isReading_getSingle? o f.property) h
    obtain ⟨rfl, rfl, -⟩ := hdone.of_done
    obtain ⟨v, hv, hsingle⟩ := hx.of_getSingle?
    exact ⟨_, .single hkind hv hsingle, by simp [Copied.member?, Function.comp_def], rfl⟩
  | value =>
    rw [hkind] at h
    obtain ⟨x, first, u, rest, hx, hdone, rfl⟩ := of_bind h
    obtain ⟨rfl, rfl, -⟩ := hdone.of_done
    obtain ⟨v, p, hv, hp, rfl, rfl⟩ := hx.of_emitted?
    exact ⟨_, .value hkind hv hp, rfl, List.append_nil _⟩

/-- Emitted fields are copied one by one, in order. -/
theorem of_members {fields : List Field} {members : List (String × Expr)}
    (h : (Field.members options o base fields).Gives depth scope w members entries w') :
    ∃ copies,
      List.Forall₂ (Copied.Of scope w.generator.inProgress.length options base o) fields copies ∧
      members = copies.filterMap Copied.member? ∧
      entries = (copies.flatMap fun c => c.product.toList).map Product.entry := by
  obtain ⟨xs, first, u, rest, hxs, hdone, rfl⟩ := of_bind h
  obtain ⟨rfl, rfl, -⟩ := hdone.of_done
  obtain ⟨copies, hcopies, rfl, rfl⟩ := of_forEach_products _ Copied.member? _
    (fun _ _ _ _ _ => of_field) rfl hxs
  exact ⟨copies, hcopies, List.filterMap_map, List.append_nil _⟩

/-- An emitted animation writes its two ends, then the declaration, then how long it lasts and what it
animates. -/
theorem of_animation {a : Animation} {v : Value}
    (h : (a.recipe options v base).Gives depth scope w e entries w') :
    ∃ (o : Object) (p : AnimationParts), v = .object o ∧
      p.Of scope w.generator.inProgress.length options a base o ∧ e = .var base ∧
      entries = p.products.map Product.entry ++ (p.own a base).map .own := by
  obtain ⟨o, ho, h⟩ := of_reading_bind (isReading_asObject v) h
  obtain ⟨members, first, w₁, rest, hmembers, hrest, rfl⟩ := of_bind h
  obtain ⟨seconds, hseconds, hrest⟩ := of_reading_bind (isReading_getSingle? o "Duration") hrest
  obtain ⟨targetName, hname, hrest⟩ := of_reading_bind (isReading_getString? o "TargetName") hrest
  obtain ⟨targetProperty, hproperty, hrest⟩ :=
    of_reading_bind (isReading_getString? o "TargetProperty") hrest
  obtain ⟨rfl, rfl⟩ := hrest.of_build
  have hw₁ := hmembers.inProgress
  obtain ⟨ends, hends, rfl, rfl⟩ := of_members hmembers
  have hread := hseconds.of_getSingle?
  have hname := hname.of_getString?
  have hproperty := hproperty.of_getString?
  rw [hw₁] at hread hname hproperty
  exact ⟨o, ⟨ends, seconds, targetName, targetProperty⟩, ho.of_asObject,
    ⟨hends, hread, hname, hproperty⟩, rfl, rfl⟩

end Recipe.Gives

namespace Generator

variable {depth : Nat} {scope : Scope} {o : Object} {base : String} {w w' : Workshop} {e : Expr}
  {more : List (TypeName × Emitter)} {a : Animation} {v : Value} {d : Double}

/-- An animation with a duration gets one statement that assigns it, with the duration rounded to four bytes. It is the
duration itself exactly when a four-byte number stands for it. -/
theorem emitWithin_duration
    (hw : w.generator.registry.entries = Registry.builtin.entries ++ more)
    (ho : o.type.name = a.type.typeName)
    (hv : scope.heap.get o "Duration" (w.generator.inProgress.length + 1) = .ok v)
    (hd : v.asDouble? = some d)
    (h : emitWithin depth scope (.object o) base w = some (.ok e, w')) :
    e = .var base ∧ ∃ p : AnimationParts,
      p.Of scope (w.generator.inProgress.length + 1) w.generator.options a base o ∧
      w.Assembles depth scope (.animation a) o base p.products (p.own a base) w' ∧
      (p.own a base).filter (fun s => s.assigned? = some "Duration") =
        [.setMember base "Duration" (.lasting d.toSingle.toDouble)] ∧
      d.toSingle.toDouble.isNaN = d.isNaN ∧
      (d.isNaN = false → (d.toSingle.toDouble = d ↔ ∃ x : Single, x.toDouble = d)) := by
  obtain ⟨depth, u, entries, hgives, hassembles⟩ := gives_of_builtin (b := .animation a) hw ho h
  obtain ⟨o', p, heq, hp, rfl, hentries⟩ := Recipe.Gives.of_animation hgives
  cases heq
  obtain ⟨v', hv', hseconds⟩ := hp.seconds
  cases hv.symm.trans hv'
  have hfilter := hp.filter_own
  rw [hseconds.eq_some hd] at hfilter
  exact ⟨rfl, p, hp, hassembles _ _ hentries, hfilter,
    by rw [Single.isNaN_toDouble, Double.isNaN_toSingle], Double.toDouble_toSingle_eq_iff⟩

/-- An animation of a brush from a brush of its own to a colour, which lasts for the greatest of the unsigned eight-byte
integers, and an animation which lasts for a tenth of a second. -/
def fadingHeap : Heap :=
  ⟨#[{ values := [("From", .object { cell := 1, type := KnownType.solidColorBrush.descriptor }),
        ("To", .string "red"), ("Duration", .literal (.uint64 18446744073709551615)),
        ("TargetName", .string "panel")] },
    { values := [("Color", .string "blue")] },
    { values := [("Duration", .literal (.double ⟨0x3FB999999999999A⟩))] }]⟩

def brushFade : Object := { cell := 0, type := KnownType.solidColorBrushAnimation.descriptor }

def tenthFade : Object := { cell := 2, type := KnownType.doubleAnimation.descriptor }

theorem emitWithin_duration_brushFade :
    ∃ e w', emitWithin 3 { heap := fadingHeap } (.object brushFade) "fade" resourceWorkshop =
        some (.ok e, w') ∧ w'.current.body.length = 7 ∧
      fadingHeap.get brushFade "Duration" 1 = .ok (.literal (.uint64 18446744073709551615)) ∧
      (Value.literal (.uint64 18446744073709551615)).asDouble? = some ⟨0x43F0000000000000⟩ ∧
      e = .var "fade" ∧ ∃ p : AnimationParts,
        p.Of { heap := fadingHeap } 1 {} .solidColorBrush "fade" brushFade ∧
        resourceWorkshop.Assembles 3 { heap := fadingHeap } (.animation .solidColorBrush) brushFade "fade"
          p.products (p.own .solidColorBrush "fade") w' ∧
        (p.own .solidColorBrush "fade").filter (fun s => s.assigned? = some "Duration") =
          [.setMember "fade" "Duration" (.lasting ⟨0x43F0000000000000⟩)] ∧
        ∃ x : Single, x.toDouble = ⟨0x43F0000000000000⟩ := by
  have hsome : (emitWithin 3 { heap := fadingHeap } (.object brushFade) "fade"
      resourceWorkshop).any (fun x => x.1.isOk && x.2.current.body.length == 7) = true := by
    decide +kernel
  have hregistry : resourceWorkshop.generator.registry.entries = Registry.builtin.entries ++ [] :=
    (List.append_nil _).symm
  have hvalue : (Value.literal (.uint64 18446744073709551615)).asDouble? =
      some ⟨0x43F0000000000000⟩ := by decide +kernel
  have hexact : (⟨0x43F0000000000000⟩ : Double).toSingle.toDouble = ⟨0x43F0000000000000⟩ := by
    decide +kernel
  obtain ⟨e, w', hw', hlength⟩ := exists_ok_of_any hsome
  obtain ⟨he, p, hp, hassembles, hfilter, -, hiff⟩ :=
    emitWithin_duration (a := .solidColorBrush) hregistry rfl rfl hvalue hw'
  rw [hexact] at hfilter
  exact ⟨e, w', hw', hlength, rfl, hvalue, he, p, hp, hassembles, hfilter, (hiff rfl).mp hexact⟩

/-- No four-byte number stands for a tenth of a second. -/
theorem duration_rounded :
    ¬ ∀ (depth : Nat) (scope : Scope) (a : Animation) (o : Object) (base : String) (w w' : Workshop)
      (e : Expr) (d : Double),
      w.generator.registry.entries = Registry.builtin.entries → o.type.name = a.type.typeName →
      scope.heap.get o "Duration" (w.generator.inProgress.length + 1) = .ok (.literal (.double d)) →
      emitWithin depth scope (.object o) base w = some (.ok e, w') →
      d ∈ w'.current.body.filterMap Statement.seconds? := by
  intro hall
  have hsome : (emitWithin 2 { heap := fadingHeap } (.object tenthFade) "fade" resourceWorkshop).any
      (fun x => x.1.isOk &&
        x.2.current.body.filterMap Statement.seconds? == [⟨0x3FB99999A0000000⟩]) = true := by
    decide +kernel
  obtain ⟨⟨r, w'⟩, hw', hresult⟩ := (Option.any_eq_true _ _).mp hsome
  simp only [Bool.and_eq_true, beq_iff_eq] at hresult
  obtain ⟨hok, hseconds⟩ := hresult
  cases r with
  | error x => cases hok
  | ok e =>
    have hmem := hall 2 { heap := fadingHeap } .double tenthFade "fade" resourceWorkshop w' e _
      rfl rfl rfl hw'
    rw [hseconds] at hmem
    exact absurd hmem (by decide)

end Generator

end ResourceCode
