import ResourceCode.Value

/-!
The framework types that resource dictionaries are mostly made of, with their full names and the properties
their values are read by, and values of these types, put together from their parts. A `Builder` makes objects
that stand in the heap for good, or belong to a copy when they are part of what a live cell answers.
-/

namespace ResourceCode

inductive KnownType where
  | color | point | rect | thickness
  | solidColorBrush | linearGradientBrush | gradientStop | imageBrush | stretch | bitmapImage
  | resourceReference | dataTemplate | controlTemplate | itemsPanelTemplate | style | setter
  | soundSource | doubleAnimation | solidColorBrushAnimation | thicknessAnimation
  | rectangleGeometry | ellipseGeometry | lineGeometry | fontFamily | fontWeight
  | directionalBlurEffect | customEffect
  deriving DecidableEq, Repr

namespace KnownType

def all : List KnownType :=
  [color, point, rect, thickness, solidColorBrush, linearGradientBrush, gradientStop, imageBrush,
    stretch, bitmapImage, resourceReference, dataTemplate, controlTemplate, itemsPanelTemplate, style,
    setter, soundSource, doubleAnimation, solidColorBrushAnimation, thicknessAnimation,
    rectangleGeometry, ellipseGeometry, lineGeometry, fontFamily, fontWeight, directionalBlurEffect,
    customEffect]

def fullName : KnownType → String
  | color => "System.Windows.Media.Color"
  | point => "System.Windows.Point"
  | rect => "System.Windows.Rect"
  | thickness => "System.Windows.Thickness"
  | solidColorBrush => "System.Windows.Media.SolidColorBrush"
  | linearGradientBrush => "System.Windows.Media.LinearGradientBrush"
  | gradientStop => "System.Windows.Media.GradientStop"
  | imageBrush => "System.Windows.Media.ImageBrush"
  | stretch => "System.Windows.Media.Stretch"
  | bitmapImage => "System.Windows.Media.Imaging.BitmapImage"
  | resourceReference => "System.Windows.ResourceReferenceExpression"
  | dataTemplate => "System.Windows.DataTemplate"
  | controlTemplate => "System.Windows.Controls.ControlTemplate"
  | itemsPanelTemplate => "System.Windows.Controls.ItemsPanelTemplate"
  | style => "System.Windows.Style"
  | setter => "System.Windows.Setter"
  | soundSource => "UserInterface.Media.SoundSource"
  | doubleAnimation => "System.Windows.Media.Animation.DoubleAnimation"
  | solidColorBrushAnimation => "UserInterface.Media.Animation.SolidColorBrushAnimation"
  | thicknessAnimation => "System.Windows.Media.Animation.ThicknessAnimation"
  | rectangleGeometry => "System.Windows.Media.RectangleGeometry"
  | ellipseGeometry => "System.Windows.Media.EllipseGeometry"
  | lineGeometry => "System.Windows.Media.LineGeometry"
  | fontFamily => "System.Windows.Media.FontFamily"
  | fontWeight => "System.Windows.FontWeight"
  | directionalBlurEffect => "UserInterface.Media.Effects.DirectionalBlurEffect"
  | customEffect => "UserInterface.Media.Effects.CustomEffect"

def typeName (k : KnownType) : TypeName := ⟨k.fullName⟩

/-- The members of the enumeration that says how an image fills its area. -/
def stretchMembers : List String := ["None", "Fill", "Uniform", "UniformToFill"]

/-- The properties that can be read and written. -/
def properties : KnownType → List String
  | color => ["A", "R", "G", "B"]
  | point => ["X", "Y"]
  | rect => ["X", "Y", "Width", "Height"]
  | thickness => ["Left", "Top", "Right", "Bottom"]
  | solidColorBrush => ["Color", "Opacity"]
  | linearGradientBrush => ["StartPoint", "EndPoint", "Opacity"]
  | gradientStop => ["Color", "Offset"]
  | imageBrush => ["ImageSource", "Stretch", "Opacity"]
  | stretch => []
  | bitmapImage => ["UriSource"]
  | resourceReference => ["ResourceKey"]
  | dataTemplate => ["DataType", "VisualTree"]
  | controlTemplate => ["TargetType", "VisualTree"]
  | itemsPanelTemplate => ["VisualTree"]
  | style => ["TargetType", "BasedOn"]
  | setter => ["Property", "Value"]
  | soundSource => ["SoundAsset", "Volume"]
  | doubleAnimation | solidColorBrushAnimation | thicknessAnimation =>
    ["From", "To", "Duration", "TargetName", "TargetProperty"]
  | rectangleGeometry => ["Rect", "RadiusX", "RadiusY"]
  | ellipseGeometry => ["Center", "RadiusX", "RadiusY"]
  | lineGeometry => ["StartPoint", "EndPoint"]
  | fontFamily => ["Source"]
  | fontWeight => ["Weight"]
  | directionalBlurEffect => ["Angle", "BlurAmount"]
  | customEffect => ["EffectAsset"]

/-- The property, if any, that can only be read: a collection that is filled in place. -/
def collection? : KnownType → Option String
  | linearGradientBrush => some "GradientStops"
  | style => some "Setters"
  | _ => none

def descriptor (k : KnownType) : Descriptor :=
  { name := k.typeName
    kind := if k = stretch then .enumeration stretchMembers else .plain
    properties :=
      k.properties.map (fun name => { name }) ++ (k.collection?.map Property.readOnly).toList }

/-- The known type of that full name. -/
def find? (full : String) : Option KnownType := all.find? (·.fullName = full)

theorem mem_all (k : KnownType) : k ∈ all := by cases k <;> decide

end KnownType

/-- The font weights that have a name, with their numbers. -/
def namedFontWeights : List (String × Int32) :=
  [("Thin", 100), ("ExtraLight", 200), ("Light", 300), ("Normal", 400), ("Medium", 500),
    ("SemiBold", 600), ("Bold", 700), ("ExtraBold", 800), ("Black", 900)]

section

open Number (Double)

/-- Makes values in a heap; `copy` is what the new objects are marked with. -/
abbrev Builder := ReaderT (Option Nat) (StateM Heap)

namespace Builder

def object (type : Descriptor) (values : List (String × Value)) : Builder Value :=
  fun copy heap =>
    let (o, heap) := heap.allocate type { values } copy
    (.object o, heap)

def known (k : KnownType) (values : List (String × Value)) : Builder Value :=
  object k.descriptor values

def double (x : Double) : Value := .literal (.double x)

def color (a r g b : UInt8) : Builder Value :=
  known .color [("A", .literal (.byte a)), ("R", .literal (.byte r)), ("G", .literal (.byte g)),
    ("B", .literal (.byte b))]

def point (x y : Double) : Builder Value := known .point [("X", double x), ("Y", double y)]

def rect (x y width height : Double) : Builder Value :=
  known .rect [("X", double x), ("Y", double y), ("Width", double width), ("Height", double height)]

def thickness (left top right bottom : Double) : Builder Value :=
  known .thickness [("Left", double left), ("Top", double top), ("Right", double right),
    ("Bottom", double bottom)]

def solidColorBrush (color : Value) : Builder Value :=
  known .solidColorBrush [("Color", color), ("Opacity", double .one)]

def gradientStop (color : Value) (offset : Double) : Builder Value :=
  known .gradientStop [("Color", color), ("Offset", double offset)]

def linearGradientBrush (start stop : Value) (stops : List Value) : Builder Value :=
  known .linearGradientBrush [("StartPoint", start), ("EndPoint", stop),
    ("GradientStops", .list stops), ("Opacity", double .one)]

/-- A way to fill an area, if there is one of that name. -/
def stretch? (member : String) : Option Value := Value.member? KnownType.stretch.descriptor member

def fontFamily (source : String) : Builder Value := known .fontFamily [("Source", .string source)]

def fontWeight (weight : Int32) : Builder Value :=
  known .fontWeight [("Weight", .literal (.int32 weight))]

def setter (property : String) (value : Value) : Builder Value :=
  known .setter [("Property", .string property), ("Value", value)]

def resourceReference (key : String) : Builder Value :=
  known .resourceReference [("ResourceKey", .string key)]

end Builder

end

end ResourceCode
