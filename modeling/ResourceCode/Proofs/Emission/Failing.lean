import ResourceCode.Proofs.Emission.Collections
import ResourceCode.Proofs.Recipe.Withholding

/-!
What an emitter leaves behind when it fails. The statements that have been added are those of the emissions that it has
asked for, and nothing is said about the value itself. The exception is an opacity that is not a number: it is read when
the brush has been declared.
-/

namespace ResourceCode

/-- The property cannot be read, or what it holds is neither null nor a number. -/
inductive Heap.DeniesNumber (heap : Heap) (o : Object) (property : String) (reading : Nat) :
    EmitError → Prop
  | access {e} : heap.get o property reading = .error e →
      DeniesNumber heap o property reading (.propertyAccess o.type.name.full property e)
  | mismatch {v} : heap.get o property reading = .ok v → v.isNull = false → v.asDouble? = none →
      DeniesNumber heap o property reading (.mismatch o property "a number")

namespace Recipe

open Generator (emitWithin runWithin)

variable {depth : Nat} {scope : Scope} {w w' : Workshop} {o : Object} {base : String} {x : EmitError}

/-- Reading a number fails only when the property denies one. -/
theorem deniesNumber_of_getSingle? {emit : Emission} {run : Emitter → Emission} {property : String}
    (h : (getSingle? o property).follow emit run scope w = some (.error x, w')) :
    scope.heap.DeniesNumber o property w.generator.inProgress.length x := by
  simp only [getSingle?, bind_eq, get, bind, follow] at h
  cases hread : scope.heap.get o property w.generator.inProgress.length with
  | error e =>
    rw [hread] at h
    cases h
    exact .access hread
  | ok v =>
    rw [hread] at h
    simp only [bind_done] at h
    by_cases hnull : v.isNull = true
    · rw [if_pos hnull] at h
      cases h
    rw [if_neg hnull] at h
    cases hnumber : v.asDouble? with
    | some d =>
      rw [hnumber] at h
      cases h
    | none =>
      rw [hnumber] at h
      cases h
      exact .mismatch hread (Bool.eq_false_iff.mpr hnull) hnumber

/-- When writing the opacity fails, it has been denied, and nothing has been written for it. -/
theorem deniesNumber_of_addOpacity
    (h : (addOpacity o base).follow (emitWithin depth) (runWithin depth) scope w =
      some (.error x, w')) :
    scope.heap.DeniesNumber o "Opacity" w.generator.inProgress.length x ∧
      (addOpacity o base).journal (emitWithin depth) (runWithin depth) scope w = [] := by
  rw [addOpacity_eq] at h ⊢
  obtain ⟨hread, hjournal⟩ | ⟨opacity, first, u, hread, hwrites, hjournal⟩ := Gives.of_bind_error h
  · exact ⟨deniesNumber_of_getSingle? hread,
      hjournal.trans (isReading_getSingle? o "Opacity").journal_eq⟩
  · have hwriting := isWriting_addAll (opacityAssignment base opacity)
    obtain ⟨a, u', hok⟩ := hwriting.follow_ok (emitWithin depth) (runWithin depth) scope u
    cases hwrites.symm.trans hok

/-- Once it has come to a result, a local of type `t` stands behind what was emitted, and its members are assigned. -/
def Draws (t : TypeRef) (base : String) (r : Recipe Expr) : Prop :=
  ∀ ⦃depth scope w e entries w'⦄, r.Gives depth scope w e entries w' →
    ∃ (products : List Product) (rest : List Statement), entries =
      products.map Product.entry ++ (.declare base t (some (.new t [])) :: rest).map .own

/-- A brush of one colour is drawn before its opacity is looked at. -/
theorem draws_solidColor (options : Options) (o : Object) (base : String) :
    (solidColor options o base).Draws (.named "SolidColorBrush") base := by
  intro depth scope w e entries w' h
  obtain ⟨current, hcurrent, h⟩ := Gives.of_reading_bind (isReading_get o "Color") h
  obtain ⟨color, first, u, rest, hcolor, hrest, rfl⟩ := h.of_bind
  obtain rfl := hcolor.of_nested
  obtain ⟨-, rfl⟩ := hrest.of_build
  exact ⟨[_], _, rfl⟩

/-- So is a gradient, with its stops. -/
theorem draws_linearGradient (options : Options) (o : Object) (base : String) :
    (linearGradient options o base).Draws (.named "LinearGradientBrush") base := by
  intro depth scope w e entries w' h
  obtain ⟨g, -, -, rfl⟩ := h.of_linearGradient
  exact ⟨g.products, _, rfl⟩

/-- The opacity of the brush is read when the brush stands already. -/
def IsBrush (t : TypeRef) (o : Object) (base : String) (r : Recipe Expr) : Prop :=
  ∃ drawing : Recipe Expr, drawing.Withholds ∧ drawing.Draws t base ∧
    r = drawing.bind fun brush => (addOpacity o base).bind fun _ => .done brush

theorem isBrush_solidColorBrush (options : Options) (o : Object) (base : String) :
    (solidColorBrush options (.object o) base).IsBrush (.named "SolidColorBrush") o base :=
  ⟨solidColor options o base, withholds_solidColor options base o,
    draws_solidColor options o base, solidColorBrush_eq options o base⟩

theorem isBrush_linearGradientBrush (options : Options) (o : Object) (base : String) :
    (linearGradientBrush options (.object o) base).IsBrush (.named "LinearGradientBrush") o base :=
  ⟨linearGradient options o base, withholds_linearGradient options base o,
    draws_linearGradient options o base, linearGradientBrush_eq options o base⟩

/-- When a brush fails, it has written nothing, or it stands already and its opacity is at fault. -/
theorem IsBrush.journal_of_error {t : TypeRef} {r : Recipe Expr} (hr : r.IsBrush t o base)
    (h : r.follow (emitWithin depth) (runWithin depth) scope w = some (.error x, w')) :
    (∀ entry ∈ r.journal (emitWithin depth) (runWithin depth) scope w, entry.IsNested) ∨
    (scope.heap.DeniesNumber o "Opacity" w.generator.inProgress.length x ∧
      ∃ (products : List Product) (rest : List Statement),
        r.journal (emitWithin depth) (runWithin depth) scope w =
          products.map Product.entry ++ (.declare base t (some (.new t [])) :: rest).map .own) := by
  obtain ⟨drawing, hwithholds, hdraws, rfl⟩ := hr
  obtain ⟨hfails, hjournal⟩ | ⟨brush, first, u, hdrawn, hrest, hjournal⟩ := Gives.of_bind_error h
  · left
    rw [hjournal]
    exact hwithholds.journal_of_error hfails
  · -- the brush stands, and there is only its opacity left to fail
    right
    obtain ⟨hfails, hlast⟩ | ⟨_, _, _, _, hdone, -⟩ := Gives.of_bind_error hrest
    · obtain ⟨hdenies, hnothing⟩ := deniesNumber_of_addOpacity hfails
      obtain ⟨products, rest, hentries⟩ := hdraws hdrawn
      rw [hdrawn.inProgress] at hdenies
      exact ⟨hdenies, products, rest, by rw [hjournal, hlast, hnothing, List.append_nil, hentries]⟩
    · cases hdone

end Recipe

namespace Emitter

/-- The type of the local, for the emitters that read the opacity when the brush stands already. -/
def brush? : Emitter → Option TypeRef
  | .builtin .solidColorBrush => some (.named "SolidColorBrush")
  | .builtin .linearGradientBrush => some (.named "LinearGradientBrush")
  | _ => none

/-- Every emitter but a custom one holds its statements back, or emits a brush. -/
theorem withholds_or_isBrush {e : Emitter} (he : e.IsOwn) (options : Options) (v : Value)
    (base : String) :
    (e.recipe options v base).Withholds ∨
      ∃ t o, e.brush? = some t ∧ v = .object o ∧ (e.recipe options v base).IsBrush t o base := by
  cases e with
  | custom => exact he.elim
  | drafted b => exact .inl (Recipe.withholds_blueprint options v base b)
  | builtin b =>
    cases b with
    | primitive p => exact .inl (Recipe.withholds_primitive v p)
    | construction c => exact .inl (Recipe.withholds_construction v c)
    | initializer i => exact .inl (Recipe.withholds_initializer options v base i)
    | template t => exact .inl (Recipe.withholds_template options v base t)
    | animation a => exact .inl (Recipe.withholds_animation options v base a)
    | resourceReference => exact .inl (Recipe.withholds_resourceReference v)
    | style => exact .inl (Recipe.withholds_style options v base)
    | fontFamily => exact .inl (Recipe.withholds_fontFamily v)
    | fontWeight => exact .inl (Recipe.withholds_fontWeight v)
    | list => exact .inl (Recipe.withholds_list options v base)
    | solidColorBrush =>
      cases v with
      | object o => exact .inr ⟨_, o, rfl, rfl, Recipe.isBrush_solidColorBrush options o base⟩
      | _ => exact .inl trivial
    | linearGradientBrush =>
      cases v with
      | object o => exact .inr ⟨_, o, rfl, rfl, Recipe.isBrush_linearGradientBrush options o base⟩
      | _ => exact .inl trivial

end Emitter

namespace Generator

/-- An emitter that fails has said nothing of its own: all that it has added comes from the emissions it has asked for.
Only a brush whose opacity is denied has already been declared. -/
theorem runWithin_error {depth : Nat} {e : Emitter} {scope : Scope} {v : Value} {base : String}
    {w w' : Workshop} {x : EmitError} (he : e.IsOwn)
    (h : runWithin depth e scope v base w = some (.error x, w')) :
    w'.current.body =
      w.current.body ++ (e.journal depth scope v base w).flatMap Entry.statements ∧
    ((∀ entry ∈ e.journal depth scope v base w, entry.IsNested) ∨
      ∃ (t : TypeRef) (o : Object) (products : List Product) (rest : List Statement),
        e.brush? = some t ∧ v = .object o ∧
        scope.heap.DeniesNumber o "Opacity" w.generator.inProgress.length x ∧
        e.journal depth scope v base w =
          products.map Product.entry ++ (.declare base t (some (.new t [])) :: rest).map .own) := by
  refine ⟨runWithin_body h, ?_⟩
  cases depth with
  | zero => cases h
  | succ depth =>
    obtain hr | ⟨t, o, ht, rfl, hr⟩ := e.withholds_or_isBrush he w.generator.options v base
    · exact .inl (hr.journal_of_error h)
    · obtain hnested | ⟨hdenies, products, rest, hjournal⟩ := hr.journal_of_error h
      · exact .inl hnested
      · exact .inr ⟨t, o, products, rest, ht, rfl, hdenies, hjournal⟩

/-- A style with a list for one property and, for another one, a brush whose opacity is a text. -/
def textOpacityScope : Scope where
  heap := ⟨#[
    { values := [("Setters", .list [.object { cell := 1, type := KnownType.setter.descriptor },
        .object { cell := 2, type := KnownType.setter.descriptor }])] },
    { values := [("Property", .string "Tag"), ("Value", .list [.literal (.int32 1)])] },
    { values := [("Property", .string "Background"),
        ("Value", .object { cell := 3, type := KnownType.solidColorBrush.descriptor })] },
    { values := [("Color", .string "red"), ("Opacity", .string "half")] }]⟩

def textOpacityStyle : Object := { cell := 0, type := KnownType.style.descriptor }

def textOpacityBrush : Object := { cell := 3, type := KnownType.solidColorBrush.descriptor }

/-- The style has not been declared when its second setter fails: the statements are those of the list and the brush. -/
theorem runWithin_error_style :
    ∃ x w', runWithin 3 (.builtin .style) textOpacityScope (.object textOpacityStyle) "style"
        resourceWorkshop = some (.error x, w') ∧ w'.current.body.length = 4 ∧
      w'.current.body = [] ++ ((Emitter.builtin .style).journal 3 textOpacityScope
        (.object textOpacityStyle) "style" resourceWorkshop).flatMap Entry.statements ∧
      ∀ entry ∈ (Emitter.builtin .style).journal 3 textOpacityScope (.object textOpacityStyle)
        "style" resourceWorkshop, entry.IsNested := by
  have hsome : (runWithin 3 (.builtin .style) textOpacityScope (.object textOpacityStyle) "style"
      resourceWorkshop).any (fun x => !x.1.isOk && x.2.current.body.length == 4) = true := by
    decide +kernel
  obtain ⟨⟨r, w'⟩, hw, hcounts⟩ := (Option.any_eq_true _ _).mp hsome
  simp only [Bool.and_eq_true, beq_iff_eq] at hcounts
  obtain ⟨herror, hlength⟩ := hcounts
  cases r with
  | ok e => cases herror
  | error x =>
    have hstyle : (Emitter.builtin .style).IsOwn := trivial
    obtain ⟨hbody, hnested | ⟨t, o, products, rest, ht, -⟩⟩ := runWithin_error hstyle hw
    · exact ⟨x, w', hw, hlength, hbody, hnested⟩
    · cases ht

/-- A brush has been declared when its opacity turns out to be a text. -/
theorem runWithin_error_brush :
    ¬ ∀ (depth : Nat) (e : Emitter) (scope : Scope) (v : Value) (base : String) (w w' : Workshop)
      (x : EmitError), e.IsOwn → runWithin depth e scope v base w = some (.error x, w') →
      ∀ entry ∈ e.journal depth scope v base w, entry.IsNested := by
  intro hall
  have hsome : (runWithin 2 (.builtin .solidColorBrush) textOpacityScope (.object textOpacityBrush)
      "brush" resourceWorkshop).any (fun x => !x.1.isOk) = true := by decide +kernel
  obtain ⟨⟨r, w'⟩, hw, herror⟩ := (Option.any_eq_true _ _).mp hsome
  cases r with
  | ok e => cases herror
  | error x =>
    have hbrush : (Emitter.builtin .solidColorBrush).IsOwn := trivial
    have hnested := hall _ _ _ _ _ _ _ _ hbrush hw
    have hown : ¬ ∀ entry ∈ (Emitter.builtin .solidColorBrush).journal 2 textOpacityScope
        (.object textOpacityBrush) "brush" resourceWorkshop, entry.IsNested := by
      decide +kernel
    exact hown hnested

end Generator

end ResourceCode
