import ResourceCode.Proofs.Emission.Opening
import ResourceCode.Proofs.Options.Naming
import ResourceCode.Proofs.Recipe.Journal

/-!
Styles and gradients are written item by item. First the values in them are emitted, in the order in which they are
read; then the object is declared, and it is given one item after another, each with the expression that its own value
has been emitted as.
-/

namespace ResourceCode

open Number (Single)

/-- The owner and the name that the property of a setter stands for. They stand before and after the last point; a
text without a point is the name of a property of the target type. -/
inductive Recipe.Targets (target : Option TypeRef) : String → TypeRef → String → Prop
  | dotted (owner name : String) : '.' ∉ name.toList →
      Targets target (owner ++ "." ++ name) (.named owner) name
  | bare (name : String) : '.' ∉ name.toList →
      Targets target name (target.getD (.named "UIElement")) name

/-- A setter's name is split at its last dot into owner and property, or belongs to the default owner. -/
theorem Recipe.targets_setterTarget (target : Option TypeRef) (property : String) :
    Targets target property (setterTarget target property).1 (setterTarget target property).2 := by
  unfold setterTarget Text.splitLast
  cases hsplit : Text.splitAtLast '.' property.toList with
  | none => exact .bare property (Text.splitAtLast_eq_none_iff.mp hsplit)
  | some parts =>
    obtain ⟨before, after⟩ := parts
    obtain ⟨hproperty, hafter⟩ := Text.splitAtLast_eq_some hsplit
    have hparts : property = String.ofList before ++ "." ++ String.ofList after := by
      rw [← String.toList_inj]
      simp [hproperty]
    have hname : '.' ∉ (String.ofList after).toList := by simpa using hafter
    exact hparts ▸ .dotted (String.ofList before) (String.ofList after) hname

/-- What becomes of one setter. -/
structure Setting where
  object : Object
  property : String
  owner : TypeRef
  name : String
  value : Product

namespace Setting

def expr (s : Setting) : Expr :=
  .new (.named "Setter") [.field (.type s.owner) (s.name ++ "Property"), s.value.expr]

/-- The setting belongs to a setter of a style that is emitted under the name `base`. -/
structure Of (scope : Scope) (reading : Nat) (options : Options) (target : Option TypeRef)
    (base : String) (setter : Value) (s : Setting) : Prop where
  object : setter = .object s.object
  property : scope.heap.get s.object "Property" reading = .ok (.string s.property)
  targets : Recipe.Targets target s.property s.owner s.name
  value : scope.heap.get s.object "Value" reading = .ok s.value.value
  base : s.value.base = options.nestedName base (Text.identifier s.name)

end Setting

/-- What a style is made from. -/
structure StyleParts where
  target : Option String
  basedOn : Option Product
  settings : List Setting

namespace StyleParts

/-- The target type is referred to by the text behind the last dot of its name. -/
def type? (s : StyleParts) : Option TypeRef :=
  s.target.map fun name => .named (Text.afterLastDot name)

theorem type?_eq (s : StyleParts) : s.type? = s.target.map fun name => TypeRef.ofName ⟨name⟩ := by
  simp only [type?, TypeRef.ofName_eq]

/-- What is emitted for a style, in order. -/
def products (s : StyleParts) : List Product := s.basedOn.toList ++ s.settings.map Setting.value

/-- What is then written about it. -/
def own (s : StyleParts) (base : String) : List Statement :=
  .declare base (.named "Style") (some (.new (.named "Style")
    ((s.type?.map Expr.typeOf).toList ++ (s.basedOn.map Product.expr).toList)))
  :: s.settings.map fun setting =>
    .expr (.call (.field (.var base) "Setters") "Add" [setting.expr])

/-- The parts belong to a style that is emitted under the name `base`. -/
structure Of (scope : Scope) (reading : Nat) (options : Options) (base : String) (o : Object)
    (s : StyleParts) : Prop where
  target : scope.heap.get o "TargetType" reading = .ok (.ofString? s.target)
  basedOn : ∃ v, scope.heap.get o "BasedOn" reading = .ok v ∧
    v.HasProduct (options.nestedName base "BasedOn") s.basedOn
  settings : ∃ v setters, scope.heap.get o "Setters" reading = .ok v ∧ v.HasItems setters ∧
    List.Forall₂ (Setting.Of scope reading options s.type? base) setters s.settings

end StyleParts

/-- What becomes of one stop of a gradient. -/
structure Stop where
  object : Object
  color : Product
  offset : Single

namespace Stop

def expr (s : Stop) : Expr :=
  .new (.named "GradientStop") [s.color.expr, .literal (.single s.offset)]

/-- The stop, which comes with its place in the list, belongs to a gradient that is emitted under the name `base`. -/
structure Of (scope : Scope) (reading : Nat) (options : Options) (base : String)
    (stop : Value × Nat) (s : Stop) : Prop where
  object : stop.1 = .object s.object
  color : scope.heap.get s.object "Color" reading = .ok s.color.value
  base : s.color.base = options.nestedName base ("Stop" ++ toString stop.2)
  offset : ∃ v, scope.heap.get s.object "Offset" reading = .ok v ∧ v.HasSingle (some s.offset)

end Stop

/-- What a linear gradient is made from; its opacity stands apart. -/
structure GradientParts where
  startPoint : Option Product
  endPoint : Option Product
  stops : List Stop

namespace GradientParts

/-- What is emitted for a gradient, in order. -/
def products (g : GradientParts) : List Product :=
  g.startPoint.toList ++ (g.endPoint.toList ++ g.stops.map Stop.color)

/-- The assignment to a member, when there is something to assign. -/
def assignment (base member : String) (p : Option Product) : List Statement :=
  (p.map fun p => .assign (.field (.var base) member) p.expr).toList

/-- What is then written about it. -/
def outline (g : GradientParts) (base : String) : List Statement :=
  .declare base (.named "LinearGradientBrush") (some (.new (.named "LinearGradientBrush") []))
  :: (assignment base "StartPoint" g.startPoint ++ assignment base "EndPoint" g.endPoint
    ++ g.stops.map fun s => .expr (.call (.field (.var base) "GradientStops") "Add" [s.expr]))

/-- The parts belong to a gradient that is emitted under the name `base`. -/
structure Of (scope : Scope) (reading : Nat) (options : Options) (base : String) (o : Object)
    (g : GradientParts) : Prop where
  startPoint : ∃ v, scope.heap.get o "StartPoint" reading = .ok v ∧
    v.HasProduct (options.nestedName base "StartPoint") g.startPoint
  endPoint : ∃ v, scope.heap.get o "EndPoint" reading = .ok v ∧
    v.HasProduct (options.nestedName base "EndPoint") g.endPoint
  stops : ∃ v stops, scope.heap.get o "GradientStops" reading = .ok v ∧ v.HasItems stops ∧
    List.Forall₂ (Stop.Of scope reading options base) stops.zipIdx g.stops

end GradientParts

namespace Recipe

namespace Gives

variable {depth : Nat} {scope : Scope} {w w' : Workshop} {entries : List Entry} {o : Object}
  {base : String} {options : Options} {e : Expr} {reading : Nat}

/-- An emitted setter comes from a setting: its value is written first, and its expression is made of what
that gave. -/
theorem of_setter {target : Option TypeRef} {v : Value}
    (hw : w.generator.inProgress.length = reading)
    (h : (setter options base target v).Gives depth scope w e entries w') :
    ∃ s, Setting.Of scope reading options target base v s ∧ e = s.expr ∧
      entries = [s.value.entry] := by
  subst hw
  obtain ⟨o, ho, h⟩ := of_reading_bind (isReading_asObject v) h
  obtain ⟨property, hproperty, h⟩ := of_reading_bind (isReading_getString o "Property") h
  obtain ⟨current, hcurrent, h⟩ := of_reading_bind (isReading_get o "Value") h
  obtain ⟨x, first, u, rest, hx, hdone, rfl⟩ := of_bind h
  obtain ⟨rfl, rfl, rfl⟩ := hdone.of_done
  obtain rfl := hx.of_nested
  exact ⟨⟨o, property, (setterTarget target property).1, (setterTarget target property).2, _⟩,
    ⟨ho.of_asObject, hproperty.of_getString, targets_setterTarget target property, hcurrent.of_get,
      rfl⟩, rfl, List.append_nil _⟩

/-- An emitted style writes the values of its settings one after another, and then its own statements. -/
theorem of_style {v : Value} (h : (style options v base).Gives depth scope w e entries w') :
    ∃ (o : Object) (s : StyleParts), v = .object o ∧
      s.Of scope w.generator.inProgress.length options base o ∧ e = .var base ∧
      entries = s.products.map Product.entry ++ (s.own base).map .own := by
  obtain ⟨o, ho, h⟩ := of_reading_bind (isReading_asObject v) h
  obtain ⟨target, htarget, h⟩ := of_reading_bind (isReading_getString? o "TargetType") h
  obtain ⟨basedOn, first, u, rest, hbasedOn, hrest, rfl⟩ := of_bind h
  have hu := hbasedOn.inProgress
  obtain ⟨items, hitems, hrest⟩ := of_reading_bind (isReading_getList o "Setters") hrest
  obtain ⟨exprs, second, u', last, hexprs, hlast, rfl⟩ := of_bind hrest
  obtain ⟨rfl, rfl⟩ := hlast.of_build
  obtain ⟨v, product, hv, hproduct, rfl, rfl⟩ := hbasedOn.of_emitted?
  obtain ⟨setters, hsetters, hlist⟩ := hitems.of_getList
  obtain ⟨settings, hsettings, rfl, rfl⟩ := of_forEach _ Setting.expr Setting.value
    (fun _ _ _ _ _ => of_setter) (congrArg List.length hu) hexprs
  rw [hu] at hsetters
  rw [← StyleParts.type?_eq ⟨target, product, settings⟩] at hsettings
  refine ⟨o, ⟨target, product, settings⟩, ho.of_asObject, ⟨htarget.of_getString?, ⟨v, hv, hproduct⟩,
    ⟨setters, items, hsetters, hlist, hsettings⟩⟩, rfl, ?_⟩
  simp [StyleParts.products, StyleParts.own, StyleParts.type?_eq, Statement.add]

/-- An end of a gradient is written when the brush holds a value there, and gives a member of the declaration.
-/
theorem of_gradientEnd {member : String} {x : Option (String × Expr)}
    (h : (gradientEnd options o base member).Gives depth scope w x entries w') :
    ∃ v p, scope.heap.get o member w.generator.inProgress.length = .ok v ∧
      v.HasProduct (options.nestedName base member) p ∧ x = (p.map Product.expr).map (member, ·) ∧
      entries = p.toList.map Product.entry := by
  obtain ⟨e, first, u, rest, he, hdone, rfl⟩ := of_bind h
  obtain ⟨rfl, rfl, rfl⟩ := hdone.of_done
  obtain ⟨v, p, hv, hp, rfl, rfl⟩ := he.of_emitted?
  exact ⟨v, p, hv, hp, rfl, List.append_nil _⟩

/-- An emitted stop writes its colour, and its expression is made of the colour and the offset. -/
theorem of_gradientStop {stop : Value × Nat} (hw : w.generator.inProgress.length = reading)
    (h : (gradientStop options base stop).Gives depth scope w e entries w') :
    ∃ s, Stop.Of scope reading options base stop s ∧ e = s.expr ∧ entries = [s.color.entry] := by
  subst hw
  obtain ⟨o, ho, h⟩ := of_reading_bind (isReading_asObject stop.1) h
  obtain ⟨current, hcurrent, h⟩ := of_reading_bind (isReading_get o "Color") h
  obtain ⟨x, first, u, rest, hx, hrest, rfl⟩ := of_bind h
  obtain ⟨offset, hoffset, hdone⟩ := of_reading_bind (isReading_getSingle o "Offset") hrest
  obtain ⟨rfl, rfl, -⟩ := hdone.of_done
  obtain ⟨v, hv, hsingle⟩ := hoffset.of_getSingle
  rw [hx.inProgress] at hv
  obtain rfl := hx.of_nested
  exact ⟨⟨o, _, offset⟩, ⟨ho.of_asObject, hcurrent.of_get, rfl, ⟨v, hv, hsingle⟩⟩, rfl,
    List.append_nil _⟩

/-- An emitted gradient writes its ends and colours in order, then the declaration, then one statement for
each stop. -/
theorem of_linearGradient (h : (linearGradient options o base).Gives depth scope w e entries w') :
    ∃ g : GradientParts, g.Of scope w.generator.inProgress.length options base o ∧
      e = .var base ∧ entries = g.products.map Product.entry ++ (g.outline base).map .own := by
  obtain ⟨x, first, w₁, rest₁, hx, h₁, rfl⟩ := of_bind h
  obtain ⟨y, second, w₂, rest₂, hy, h₂, rfl⟩ := of_bind h₁
  obtain ⟨items, hitems, h₂⟩ := of_reading_bind (isReading_getList o "GradientStops") h₂
  obtain ⟨exprs, third, w₃, rest₃, hexprs, h₃, rfl⟩ := of_bind h₂
  obtain ⟨rfl, rfl⟩ := h₃.of_build
  -- what has been emitted by then does not change how the later properties are read
  have hw₁ := hx.inProgress
  have hw₂ := hy.inProgress.trans hw₁
  obtain ⟨v, start, hv, hstart, rfl, rfl⟩ := hx.of_gradientEnd
  obtain ⟨v', finish, hv', hfinish, rfl, rfl⟩ := hy.of_gradientEnd
  obtain ⟨list, hlist, hitems⟩ := hitems.of_getList
  obtain ⟨stops, hstops, rfl, rfl⟩ := of_forEach _ Stop.expr Stop.color
    (fun _ _ _ _ _ => of_gradientStop) (congrArg List.length hw₂) hexprs
  rw [hw₁] at hv'
  rw [hw₂] at hlist
  refine ⟨⟨start, finish, stops⟩, ⟨⟨v, hv, hstart⟩, ⟨v', hv', hfinish⟩,
    ⟨list, items, hlist, hitems, hstops⟩⟩, rfl, ?_⟩
  cases start <;> cases finish <;>
    simp [GradientParts.products, GradientParts.outline, GradientParts.assignment,
      Statement.setMember, Statement.add]

/-- The opacity is read last and assigned when it differs from one. -/
theorem of_addOpacity {u : Unit} (h : (addOpacity o base).Gives depth scope w u entries w') :
    ∃ v opacity, scope.heap.get o "Opacity" w.generator.inProgress.length = .ok v ∧
      v.HasSingle opacity ∧ entries = (opacityAssignment base opacity).map .own := by
  rw [addOpacity_eq] at h
  obtain ⟨opacity, hopacity, h⟩ := of_reading_bind (isReading_getSingle? o "Opacity") h
  obtain ⟨v, hv, hsingle⟩ := hopacity.of_getSingle?
  exact ⟨v, opacity, hv, hsingle, h.of_addAll⟩

end Gives

end Recipe

/-- An object is emitted one product after another, and what is written about it stands behind all of them. -/
structure Workshop.Assembles (w : Workshop) (depth : Nat) (scope : Scope) (b : Builtin) (o : Object)
    (base : String) (products : List Product) (own : List Statement) (w' : Workshop) : Prop where
  journal : (Emitter.builtin b).journal depth scope (.object o) base
    (w.withGenerator (w.generator.entered (.object o))) = products.map Product.entry ++ own.map .own
  body : w'.current.body = w.current.body ++ (products.flatMap Product.statements ++ own)

namespace Generator

variable {depth : Nat} {scope : Scope} {o : Object} {base : String} {w w' : Workshop} {e : Expr}
  {more : List (TypeName × Emitter)}

/-- A successful emission of an object with a built-in emitter follows the recipe of that emitter, with the object in
progress, and what the recipe gives is assembled. -/
theorem gives_of_builtin (hw : w.generator.registry.entries = Registry.builtin.entries ++ more)
    {b : Builtin} (ho : o.type.name = b.typeName)
    (h : emitWithin depth scope (.object o) base w = some (.ok e, w')) :
    ∃ d u entries, (b.recipe w.generator.options (.object o) base).Gives d scope
        (w.withGenerator (w.generator.entered (.object o))) e entries u ∧
      ∀ products own, entries = products.map Product.entry ++ own.map .own →
        w.Assembles depth scope b o base products own w' := by
  obtain ⟨x, hx, -⟩ | ⟨u, rfl, hu⟩ := emitVia_builtin hw ho h
  · cases hx
  cases depth with
  | zero => cases hu
  | succ d =>
    refine ⟨d, u, _, ⟨hu, rfl⟩, fun products own hentries => ⟨hentries, ?_⟩⟩
    have hjournal : (Emitter.builtin b).journal (d + 1) scope (.object o) base
        (w.withGenerator (w.generator.entered (.object o))) = _ := hentries
    have hbody := runWithin_body hu
    rw [hjournal] at hbody
    change u.current.body = w.current.body ++ _
    simpa [List.flatMap_map, Workshop.withGenerator] using hbody

/-- Styles and linear gradients are emitted item by item, however many setters or stops they have. -/
theorem emitWithin_collection
    (hw : w.generator.registry.entries = Registry.builtin.entries ++ more)
    (h : emitWithin depth scope (.object o) base w = some (.ok e, w')) :
    (o.type.name = KnownType.style.typeName → e = .var base ∧
      ∃ s : StyleParts, s.Of scope (w.generator.inProgress.length + 1) w.generator.options base o ∧
        w.Assembles depth scope .style o base s.products (s.own base) w') ∧
    (o.type.name = KnownType.linearGradientBrush.typeName → e = .var base ∧
      ∃ (g : GradientParts) (v : Value) (opacity : Option Single),
        g.Of scope (w.generator.inProgress.length + 1) w.generator.options base o ∧
        scope.heap.get o "Opacity" (w.generator.inProgress.length + 1) = .ok v ∧
        v.HasSingle opacity ∧
        w.Assembles depth scope .linearGradientBrush o base g.products
          (g.outline base ++ opacityAssignment base opacity) w') := by
  refine ⟨fun ho => ?_, fun ho => ?_⟩
  · obtain ⟨d, u, entries, hgives, hassembles⟩ := gives_of_builtin (b := .style) hw ho h
    obtain ⟨o', s, heq, hs, he, hentries⟩ := Recipe.Gives.of_style hgives
    cases heq
    exact ⟨he, s, hs, hassembles _ _ hentries⟩
  · obtain ⟨d, u, entries, hgives, hassembles⟩ := gives_of_builtin (b := .linearGradientBrush) hw ho h
    have hgives : (Recipe.linearGradientBrush _ (.object o) base).Gives d scope _ _ _ _ := hgives
    rw [Recipe.linearGradientBrush_eq] at hgives
    obtain ⟨brush, first, w₁, rest, hbrush, hrest, rfl⟩ := hgives.of_bind
    obtain ⟨g, hg, rfl, rfl⟩ := hbrush.of_linearGradient
    obtain ⟨x, last, w₂, none, hopacity, hdone, rfl⟩ := hrest.of_bind
    obtain ⟨rfl, rfl, rfl⟩ := hdone.of_done
    obtain ⟨v, opacity, hv, hsingle, rfl⟩ := hopacity.of_addOpacity
    rw [hbrush.inProgress] at hv
    exact ⟨rfl, g, v, opacity, hg, hv, hsingle, hassembles _ _ (by simp)⟩

/-- A style for buttons, whose second setter names the owner of its property and has a gradient of two stops. -/
def gradientStyleHeap : Heap :=
  ⟨#[{ values := [("TargetType", .string "App.Button"),
        ("Setters", .list [.object { cell := 1, type := KnownType.setter.descriptor },
          .object { cell := 2, type := KnownType.setter.descriptor }])] },
    { values := [("Property", .string "Width"), ("Value", .literal (.int32 120))] },
    { values := [("Property", .string "Controls.Control.Background"),
        ("Value", .object { cell := 3, type := KnownType.linearGradientBrush.descriptor })] },
    { values := [("EndPoint", .string "corner"), ("Opacity", .literal (.int32 0)),
        ("GradientStops", .list [.object { cell := 4, type := KnownType.gradientStop.descriptor },
          .object { cell := 5, type := KnownType.gradientStop.descriptor }])] },
    { values := [("Color", .string "red"), ("Offset", .literal (.int32 0))] },
    { values := [("Color", .string "blue"), ("Offset", .literal (.int32 1))] }]⟩

def gradientStyle : Object := { cell := 0, type := KnownType.style.descriptor }

def styledGradient : Object := { cell := 3, type := KnownType.linearGradientBrush.descriptor }

def resourceWorkshop : Workshop where
  current := { name := "InitializeResources" }
  target := { name := "Dictionary1" }

/-- A result that has been checked by running is one that has been reached. -/
theorem exists_ok_of_any {x : Option (Outcome Expr)} {n : Nat}
    (h : x.any (fun y => y.1.isOk && y.2.current.body.length == n) = true) :
    ∃ e w, x = some (.ok e, w) ∧ w.current.body.length = n := by
  obtain ⟨⟨r, w⟩, rfl, hcounts⟩ := (Option.any_eq_true _ _).mp h
  simp only [Bool.and_eq_true, beq_iff_eq] at hcounts
  obtain ⟨hok, hlength⟩ := hcounts
  cases r with
  | error x => cases hok
  | ok e => exact ⟨e, w, rfl, hlength⟩

theorem emitWithin_collection_gradientStyle :
    (∃ e w, emitWithin 3 { heap := gradientStyleHeap } (.object gradientStyle) "style" resourceWorkshop =
        some (.ok e, w) ∧ w.current.body.length = 8 ∧ e = .var "style" ∧
      ∃ s : StyleParts, s.Of { heap := gradientStyleHeap } 1 {} "style" gradientStyle ∧
        resourceWorkshop.Assembles 3 { heap := gradientStyleHeap } .style gradientStyle "style" s.products
          (s.own "style") w) ∧
    ∃ e w, emitWithin 3 { heap := gradientStyleHeap } (.object styledGradient) "brush" resourceWorkshop =
        some (.ok e, w) ∧ w.current.body.length = 5 ∧ e = .var "brush" ∧
      ∃ (g : GradientParts) (v : Value) (opacity : Option Single),
        g.Of { heap := gradientStyleHeap } 1 {} "brush" styledGradient ∧
        gradientStyleHeap.get styledGradient "Opacity" 1 = .ok v ∧ v.HasSingle opacity ∧
        resourceWorkshop.Assembles 3 { heap := gradientStyleHeap } .linearGradientBrush styledGradient
          "brush" g.products (g.outline "brush" ++ opacityAssignment "brush" opacity) w := by
  have hstyle : (emitWithin 3 { heap := gradientStyleHeap } (.object gradientStyle) "style"
      resourceWorkshop).any (fun x => x.1.isOk && x.2.current.body.length == 8) = true := by
    decide +kernel
  have hgradient : (emitWithin 3 { heap := gradientStyleHeap } (.object styledGradient) "brush"
      resourceWorkshop).any (fun x => x.1.isOk && x.2.current.body.length == 5) = true := by
    decide +kernel
  have hregistry : resourceWorkshop.generator.registry.entries = Registry.builtin.entries ++ [] :=
    (List.append_nil _).symm
  obtain ⟨e, w, hw, hlength⟩ := exists_ok_of_any hstyle
  obtain ⟨e', w', hw', hlength'⟩ := exists_ok_of_any hgradient
  exact ⟨⟨e, w, hw, hlength, (emitWithin_collection hregistry hw).1 rfl⟩,
    e', w', hw', hlength', (emitWithin_collection hregistry hw').2 rfl⟩

end Generator

end ResourceCode
