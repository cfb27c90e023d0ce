import ResourceCode.Catalog
import ResourceCode.Recipe

/-!
Emitters. An emitter handles the values of one type and has a recipe for each of them. The built-in ones
cover the primitive types, the known types and lists; a drafted one follows the blueprint of its type; a
custom one follows any program.

Literals, fonts, references to resources and lists need no members. Brushes read their opacity last, after the
rest has been written. A setter of a style names its property as `Owner.Name`, or as a bare name whose owner is
the style's target type, or `UIElement` when the style has none. The content of a template is built by a factory
method of its own. The other known types are emitted by a table: a `Construction` passes properties to a
constructor, an `Initializer` declares an object and copies properties to its members, and an `Animation` does
that with its two ends, and then says how long it lasts and what it animates.
-/

namespace ResourceCode

namespace Recipe

def primitive (p : Primitive) (v : Value) : Recipe Expr :=
  if v.literal?.bind Literal.primitive? = some p then
    match v.literal? with
    | some l => done (.literal l)
    | none => fail (.unsupported v "not a literal")
  else fail (.unsupported v ("expected a " ++ p.typeName.full ++ " value"))

def fontFamily (v : Value) : Recipe Expr := do
  let o ← asObject v
  return .construct "FontFamily" [.string (← getString o "Source")]

/-- A weight that has a name is written by it. -/
def fontWeightExpr (weight : Int32) : Expr :=
  match namedFontWeights.find? (·.2 = weight) with
  | some (name, _) => .static "FontWeights" name
  | none => .call (.type (.named "FontWeight")) "FromOpenTypeWeight" [.literal (.int32 weight)]

def fontWeight (v : Value) : Recipe Expr := do
  let o ← asObject v
  return fontWeightExpr (← getInt32 o "Weight")

/-- The recorded expression of the resource, or else a look-up when the code runs. -/
def resourceReference (v : Value) : Recipe Expr := do
  let o ← asObject v
  let key ← getString o "ResourceKey"
  recorded key fun
    | some e => done e
    | none => done (.construct "ResourceReferenceExpression" [.string key])

def listItem (options : Options) (base : String) (item : Value × Nat) : Recipe Expr :=
  nested item.1 (options.nestedName base (toString item.2))

def list (options : Options) (v : Value) (base : String) : Recipe Expr := do
  match v with
  | .list items =>
    let items ← forEach (listItem options base) items.zipIdx
    build base (.generic "List" [.object]) [] (items.map (.add (.var base)))
  | v => fail (.unsupported v "expected a list")

def addOpacity (o : Object) (name : String) : Recipe Unit := do
  let opacity ← getSingle? o "Opacity"
  match opacity with
  | some x => if x.isOffOne then add (.setMember name "Opacity" (.literal (.single x))) else done ()
  | none => done ()

def solidColorBrush (options : Options) (v : Value) (base : String) : Recipe Expr := do
  let o ← asObject v
  let current ← get o "Color"
  let color ← nested current (options.nestedName base "Color")
  let brush ← buildMembers base (.named "SolidColorBrush") [("Color", color)]
  addOpacity o base
  return brush

/-- One end of the gradient; null gives none. -/
def gradientEnd (options : Options) (o : Object) (base member : String) :
    Recipe (Option (String × Expr)) := do
  return (← emitted? o member (options.nestedName base member)).map (member, ·)

def gradientStop (options : Options) (base : String) (stop : Value × Nat) : Recipe Expr := do
  let o ← asObject stop.1
  let current ← get o "Color"
  let color ← nested current (options.nestedName base ("Stop" ++ toString stop.2))
  let offset ← getSingle o "Offset"
  return .construct "GradientStop" [color, .literal (.single offset)]

def linearGradientBrush (options : Options) (v : Value) (base : String) : Recipe Expr := do
  let o ← asObject v
  let ends ← forEach (gradientEnd options o base) ["StartPoint", "EndPoint"]
  let stops ← getList o "GradientStops"
  let stops ← forEach (gradientStop options base) stops.zipIdx
  let brush ← build base (.named "LinearGradientBrush") []
    ((ends.filterMap id).map (fun (member, value) => .setMember base member value)
      ++ stops.map (.add (.field (.var base) "GradientStops")))
  addOpacity o base
  return brush

/-- The owner and the name of the property that a setter sets. -/
def setterTarget (target : Option TypeRef) (property : String) : TypeRef × String :=
  match Text.splitLast '.' property with
  | some (owner, name) => (.named owner, name)
  | none => (target.getD (.named "UIElement"), property)

def setter (options : Options) (base : String) (target : Option TypeRef) (v : Value) :
    Recipe Expr := do
  let o ← asObject v
  let property ← getString o "Property"
  let (owner, name) := setterTarget target property
  let current ← get o "Value"
  let value ← nested current (options.nestedName base (Text.identifier name))
  return .construct "Setter" [.field (.type owner) (name ++ "Property"), value]

def style (options : Options) (v : Value) (base : String) : Recipe Expr := do
  let o ← asObject v
  let target := (← getString? o "TargetType").map fun name => TypeRef.ofName ⟨name⟩
  let basedOn ← emitted? o "BasedOn" (options.nestedName base "BasedOn")
  let setters ← getList o "Setters"
  let setters ← forEach (setter options base target) setters
  build base (.named "Style") ((target.map Expr.typeOf).toList ++ basedOn.toList)
    (setters.map (.add (.field (.var base) "Setters")))

end Recipe

section

open Recipe

inductive Template where
  | data | control | itemsPanel
  deriving DecidableEq, Repr

namespace Template

def all : List Template := [data, control, itemsPanel]

def type : Template → KnownType
  | data => .dataTemplate
  | control => .controlTemplate
  | itemsPanel => .itemsPanelTemplate

def target : Template → String
  | data => "DataTemplate"
  | control | itemsPanel => "ControlTemplate"

/-- The property that names the type the template applies to. -/
def typeProperty? : Template → Option String
  | data => some "DataType"
  | control => some "TargetType"
  | itemsPanel => none

/-- The name of the type the template applies to. -/
def appliesTo (t : Template) (o : Object) : Recipe (Option String) :=
  match t.typeProperty? with
  | some property => getString? o property
  | none => done none

def recipe (t : Template) (options : Options) (v : Value) (base : String) : Recipe Expr := do
  let o ← asObject v
  let type ← t.appliesTo o
  let content ← get o "VisualTree"
  let name ← factory (base ++ "_Factory") content (options.nestedName base "Root") ofExcept
  return .construct t.target
    ((type.map fun name => Expr.typeOf (.ofName ⟨name⟩)).toList ++ [.methodGroup name])

end Template

end

section

open Recipe

/-- A constructor argument: the property it is read from and the kind of number it is. -/
inductive Argument where
  | integer (property : String)
  | single (property : String)
  deriving DecidableEq, Repr

def Argument.recipe (o : Object) : Argument → Recipe Expr
  | integer property => do return .literal (.int32 (← getInt32 o property))
  | single property => do return .literal (.single (← getSingle o property))

inductive Construction where
  | color | point | rect | thickness
  deriving DecidableEq, Repr

namespace Construction

def all : List Construction := [color, point, rect, thickness]

def type : Construction → KnownType
  | color => .color
  | point => .point
  | rect => .rect
  | thickness => .thickness

/-- The type that is constructed. -/
def target : Construction → String
  | color => "ColorW"
  | point => "PointF"
  | rect => "Rect"
  | thickness => "Thickness"

def arguments : Construction → List Argument
  | color => [.integer "R", .integer "G", .integer "B", .integer "A"]
  | point => [.single "X", .single "Y"]
  | rect => [.single "X", .single "Y", .single "Width", .single "Height"]
  | thickness => [.single "Left", .single "Top", .single "Right", .single "Bottom"]

def recipe (c : Construction) (v : Value) : Recipe Expr := do
  let o ← asObject v
  let args ← forEach (Argument.recipe o) c.arguments
  return .construct c.target args

end Construction

/-- How a copied property is written: emitted as a value, or as a four-byte number. -/
inductive FieldKind where
  | value
  | single
  deriving DecidableEq, Repr

/-- A property, and the member that it is copied to. -/
structure Field where
  property : String
  member : String := property
  kind : FieldKind := .value
  deriving DecidableEq, Repr

def Field.single (property : String) : Field := { property, kind := .single }

/-- The member and its value; a null property gives none. -/
def Field.recipe (options : Options) (o : Object) (base : String) (f : Field) :
    Recipe (Option (String × Expr)) := do
  match f.kind with
  | .single => return (← getSingle? o f.property).map fun x => (f.member, .literal (.single x))
  | .value =>
    return (← emitted? o f.property (options.nestedName base f.member)).map (f.member, ·)

/-- The members for the properties that are not null. -/
def Field.members (options : Options) (o : Object) (base : String) (fields : List Field) :
    Recipe (List (String × Expr)) := do
  return (← forEach (Field.recipe options o base) fields).filterMap id

inductive Initializer where
  | imageBrush | bitmapImage | soundSource | rectangleGeometry | ellipseGeometry | lineGeometry
  | directionalBlurEffect | customEffect
  deriving DecidableEq, Repr

namespace Initializer

def all : List Initializer :=
  [imageBrush, bitmapImage, soundSource, rectangleGeometry, ellipseGeometry, lineGeometry,
    directionalBlurEffect, customEffect]

def type : Initializer → KnownType
  | imageBrush => .imageBrush
  | bitmapImage => .bitmapImage
  | soundSource => .soundSource
  | rectangleGeometry => .rectangleGeometry
  | ellipseGeometry => .ellipseGeometry
  | lineGeometry => .lineGeometry
  | directionalBlurEffect => .directionalBlurEffect
  | customEffect => .customEffect

def target : Initializer → String
  | imageBrush => "ImageBrush"
  | bitmapImage => "BitmapImage"
  | soundSource => "SoundSource"
  | rectangleGeometry => "RectangleGeometry"
  | ellipseGeometry => "EllipseGeometry"
  | lineGeometry => "LineGeometry"
  | directionalBlurEffect => "DirectionalBlurEffect"
  | customEffect => "CustomEffect"

/-- The copied properties, in the order of assignment. -/
def fields : Initializer → List Field
  | imageBrush => [{ property := "ImageSource" }, { property := "Stretch" }, .single "Opacity"]
  | bitmapImage => [{ property := "UriSource", member := "TextureAsset" }]
  | soundSource => [{ property := "SoundAsset" }, .single "Volume"]
  | rectangleGeometry => [{ property := "Rect" }, .single "RadiusX", .single "RadiusY"]
  | ellipseGeometry => [{ property := "Center" }, .single "RadiusX", .single "RadiusY"]
  | lineGeometry => [{ property := "StartPoint" }, { property := "EndPoint" }]
  | directionalBlurEffect => [.single "Angle", .single "BlurAmount"]
  | customEffect => [{ property := "EffectAsset" }]

def recipe (i : Initializer) (options : Options) (v : Value) (base : String) : Recipe Expr := do
  let o ← asObject v
  let members ← Field.members options o base i.fields
  buildMembers base (.named i.target) members

end Initializer

inductive Animation where
  | double | solidColorBrush | thickness
  deriving DecidableEq, Repr

namespace Animation

def all : List Animation := [double, solidColorBrush, thickness]

def type : Animation → KnownType
  | double => .doubleAnimation
  | solidColorBrush => .solidColorBrushAnimation
  | thickness => .thicknessAnimation

def target : Animation → String
  | double => "FloatAnimation"
  | solidColorBrush => "SolidColorBrushAnimation"
  | thickness => "ThicknessAnimation"

/-- How the two ends are written. -/
def endKind : Animation → FieldKind
  | double => .single
  | solidColorBrush | thickness => .value

def ends (a : Animation) : List Field :=
  [{ property := "From", kind := a.endKind }, { property := "To", kind := a.endKind }]

/-- A time span of that many seconds. -/
def duration (seconds : Number.Single) : Expr :=
  .construct "Duration"
    [.call (.type (.named "TimeSpan")) "FromSeconds" [.literal (.double seconds.toDouble)]]

/-- Tells the storyboard something about an animation. -/
def storyboard (method name : String) (text : String) : Statement :=
  .expr (.call (.type (.named "Storyboard")) method [.var name, .string text])

def recipe (a : Animation) (options : Options) (v : Value) (base : String) : Recipe Expr := do
  let o ← asObject v
  let ends ← Field.members options o base a.ends
  let seconds ← getSingle? o "Duration"
  let targetName ← getString? o "TargetName"
  let targetProperty ← getString? o "TargetProperty"
  let members := ends ++ (seconds.map fun s => ("Duration", duration s)).toList
  build base (.named a.target) []
    (members.map (fun (member, value) => .setMember base member value)
      ++ (targetName.map (storyboard "SetTargetName" base)).toList
      ++ (targetProperty.map (storyboard "SetTargetProperty" base)).toList)

end Animation

end

inductive Builtin where
  | primitive (p : Primitive)
  | construction (c : Construction)
  | initializer (i : Initializer)
  | template (t : Template)
  | animation (a : Animation)
  | solidColorBrush
  | linearGradientBrush
  | resourceReference
  | style
  | fontFamily
  | fontWeight
  | list
  deriving DecidableEq, Repr

namespace Builtin

/-- Every built-in emitter, in the order in which they are registered. -/
def all : List Builtin :=
  Primitive.all.map primitive ++ Construction.all.map construction ++ Initializer.all.map initializer
    ++ Template.all.map template ++ Animation.all.map animation
    ++ [solidColorBrush, linearGradientBrush, resourceReference, style, fontFamily, fontWeight, list]

def typeName : Builtin → TypeName
  | primitive p => p.typeName
  | construction c => c.type.typeName
  | initializer i => i.type.typeName
  | template t => t.type.typeName
  | animation a => a.type.typeName
  | solidColorBrush => KnownType.solidColorBrush.typeName
  | linearGradientBrush => KnownType.linearGradientBrush.typeName
  | resourceReference => KnownType.resourceReference.typeName
  | style => KnownType.style.typeName
  | fontFamily => KnownType.fontFamily.typeName
  | fontWeight => KnownType.fontWeight.typeName
  | list => listTypeName

def recipe (options : Options) (v : Value) (base : String) : Builtin → Recipe Expr
  | primitive p => Recipe.primitive p v
  | construction c => c.recipe v
  | initializer i => i.recipe options v base
  | template t => t.recipe options v base
  | animation a => a.recipe options v base
  | solidColorBrush => Recipe.solidColorBrush options v base
  | linearGradientBrush => Recipe.linearGradientBrush options v base
  | resourceReference => Recipe.resourceReference v
  | style => Recipe.style options v base
  | fontFamily => Recipe.fontFamily v
  | fontWeight => Recipe.fontWeight v
  | list => Recipe.list options v base

theorem mem_all (b : Builtin) : b ∈ all := by
  cases b with
  | primitive p => cases p <;> decide
  | construction c => cases c <;> decide
  | initializer i => cases i <;> decide
  | template t => cases t <;> decide
  | animation a => cases a <;> decide
  | _ => decide

end Builtin

inductive Emitter where
  | builtin (b : Builtin)
  | drafted (b : Blueprint)
  | custom (typeName : TypeName) (program : Options → Value → String → Recipe Expr)

namespace Emitter

/-- The type whose values the emitter is made for. -/
def typeName : Emitter → TypeName
  | builtin b => b.typeName
  | drafted b => b.type.name
  | custom typeName _ => typeName

/-- How the emitter turns a value into code, with `base` as the name of the local it may declare. -/
def recipe (options : Options) (v : Value) (base : String) : Emitter → Recipe Expr
  | builtin b => b.recipe options v base
  | drafted b => b.recipe options v base
  | custom _ program => program options v base

/-- Always the same expression. -/
def fixed (typeName : TypeName) (e : Expr) : Emitter := custom typeName fun _ _ _ => .done e

/-- Leaves the work to the emitter registered for another type. -/
def forward (typeName other : TypeName) : Emitter :=
  custom typeName fun _ v base => .delegate other v base .ofExcept

/-- Emits one property and calls `Touch` on it. -/
def touch (typeName : TypeName) (property : String) : Emitter :=
  custom typeName fun options v base =>
    match v with
    | .object o => do
      let current ← Recipe.get o property
      let e ← Recipe.nested current (options.nestedName base property)
      Recipe.add (.expr (.call e "Touch" []))
      return e
    | v => .fail (.unsupported v "custom emitter wants an object")

end Emitter

end ResourceCode
