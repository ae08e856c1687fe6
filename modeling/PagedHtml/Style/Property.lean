/-
**The closed vocabulary of style properties.**

A style only ever speaks of these properties. Each has a name in the output, where the words after
the first start with a capital (`borderTopWidth`), and a name in style sheets, where they start with
a hyphen (`border-top-width`). The key in the JSON form of a style comes from a table of its own.
The order of the constructors is the order in which styles list them.

* `mem_all`: `all` leaves no property out;
* `ofName?_name`, `ofKey?_key`: a property is found by its name and by its key;
* `key_eq_name`: the key is the name.
-/

namespace PagedHtml.Style

inductive Property where
  -- Flexbox
  | alignContent | alignItems | alignSelf | flex | flexDirection | flexWrap | flexFlow | flexGrow
  | flexShrink | flexBasis | justifyContent | gap | rowGap | columnGap | order
  -- Layout
  | bottom | display | left | position | right | top | overflow | zIndex
  -- Dimension
  | height | maxHeight | maxWidth | minHeight | minWidth | width
  -- Color
  | backgroundColor | color | opacity
  -- Text
  | fontSize | fontFamily | fontStyle | fontWeight | letterSpacing | lineHeight | maxLines
  | textAlign | textDecoration | textDecorationColor | textDecorationStyle | textIndent
  | textOverflow | textTransform | verticalAlign
  -- Sizing/positioning
  | objectFit | objectPosition | objectPositionX | objectPositionY
  -- Margin/padding
  | margin | marginHorizontal | marginVertical | marginTop | marginRight | marginBottom
  | marginLeft | padding | paddingHorizontal | paddingVertical | paddingTop | paddingRight
  | paddingBottom | paddingLeft
  -- Transformations
  | transform | transformOrigin | transformOriginX | transformOriginY
  -- Borders
  | border | borderWidth | borderColor | borderStyle | borderTop | borderTopColor | borderTopStyle
  | borderTopWidth | borderRight | borderRightColor | borderRightStyle | borderRightWidth
  | borderBottom | borderBottomColor | borderBottomStyle | borderBottomWidth | borderLeft
  | borderLeftColor | borderLeftStyle | borderLeftWidth | borderTopLeftRadius
  | borderTopRightRadius | borderBottomRightRadius | borderBottomLeftRadius | borderRadius
  -- Tables
  | borderCollapse | borderSpacing
  deriving DecidableEq, Repr

namespace Property

def all : List Property :=
  [.alignContent, .alignItems, .alignSelf, .flex, .flexDirection, .flexWrap, .flexFlow, .flexGrow,
   .flexShrink, .flexBasis, .justifyContent, .gap, .rowGap, .columnGap, .order, .bottom, .display,
   .left, .position, .right, .top, .overflow, .zIndex, .height, .maxHeight, .maxWidth, .minHeight,
   .minWidth, .width, .backgroundColor, .color, .opacity, .fontSize, .fontFamily, .fontStyle,
   .fontWeight, .letterSpacing, .lineHeight, .maxLines, .textAlign, .textDecoration,
   .textDecorationColor, .textDecorationStyle, .textIndent, .textOverflow, .textTransform,
   .verticalAlign, .objectFit, .objectPosition, .objectPositionX, .objectPositionY, .margin,
   .marginHorizontal, .marginVertical, .marginTop, .marginRight, .marginBottom, .marginLeft,
   .padding, .paddingHorizontal, .paddingVertical, .paddingTop, .paddingRight, .paddingBottom,
   .paddingLeft, .transform, .transformOrigin, .transformOriginX, .transformOriginY, .border,
   .borderWidth, .borderColor, .borderStyle, .borderTop, .borderTopColor, .borderTopStyle,
   .borderTopWidth, .borderRight, .borderRightColor, .borderRightStyle, .borderRightWidth,
   .borderBottom, .borderBottomColor, .borderBottomStyle, .borderBottomWidth, .borderLeft,
   .borderLeftColor, .borderLeftStyle, .borderLeftWidth, .borderTopLeftRadius,
   .borderTopRightRadius, .borderBottomRightRadius, .borderBottomLeftRadius, .borderRadius,
   .borderCollapse, .borderSpacing]

/-- The name in the output. -/
def name : Property → String
  | alignContent => "alignContent"
  | alignItems => "alignItems"
  | alignSelf => "alignSelf"
  | flex => "flex"
  | flexDirection => "flexDirection"
  | flexWrap => "flexWrap"
  | flexFlow => "flexFlow"
  | flexGrow => "flexGrow"
  | flexShrink => "flexShrink"
  | flexBasis => "flexBasis"
  | justifyContent => "justifyContent"
  | gap => "gap"
  | rowGap => "rowGap"
  | columnGap => "columnGap"
  | order => "order"
  | bottom => "bottom"
  | display => "display"
  | left => "left"
  | position => "position"
  | right => "right"
  | top => "top"
  | overflow => "overflow"
  | zIndex => "zIndex"
  | height => "height"
  | maxHeight => "maxHeight"
  | maxWidth => "maxWidth"
  | minHeight => "minHeight"
  | minWidth => "minWidth"
  | width => "width"
  | backgroundColor => "backgroundColor"
  | color => "color"
  | opacity => "opacity"
  | fontSize => "fontSize"
  | fontFamily => "fontFamily"
  | fontStyle => "fontStyle"
  | fontWeight => "fontWeight"
  | letterSpacing => "letterSpacing"
  | lineHeight => "lineHeight"
  | maxLines => "maxLines"
  | textAlign => "textAlign"
  | textDecoration => "textDecoration"
  | textDecorationColor => "textDecorationColor"
  | textDecorationStyle => "textDecorationStyle"
  | textIndent => "textIndent"
  | textOverflow => "textOverflow"
  | textTransform => "textTransform"
  | verticalAlign => "verticalAlign"
  | objectFit => "objectFit"
  | objectPosition => "objectPosition"
  | objectPositionX => "objectPositionX"
  | objectPositionY => "objectPositionY"
  | margin => "margin"
  | marginHorizontal => "marginHorizontal"
  | marginVertical => "marginVertical"
  | marginTop => "marginTop"
  | marginRight => "marginRight"
  | marginBottom => "marginBottom"
  | marginLeft => "marginLeft"
  | padding => "padding"
  | paddingHorizontal => "paddingHorizontal"
  | paddingVertical => "paddingVertical"
  | paddingTop => "paddingTop"
  | paddingRight => "paddingRight"
  | paddingBottom => "paddingBottom"
  | paddingLeft => "paddingLeft"
  | transform => "transform"
  | transformOrigin => "transformOrigin"
  | transformOriginX => "transformOriginX"
  | transformOriginY => "transformOriginY"
  | border => "border"
  | borderWidth => "borderWidth"
  | borderColor => "borderColor"
  | borderStyle => "borderStyle"
  | borderTop => "borderTop"
  | borderTopColor => "borderTopColor"
  | borderTopStyle => "borderTopStyle"
  | borderTopWidth => "borderTopWidth"
  | borderRight => "borderRight"
  | borderRightColor => "borderRightColor"
  | borderRightStyle => "borderRightStyle"
  | borderRightWidth => "borderRightWidth"
  | borderBottom => "borderBottom"
  | borderBottomColor => "borderBottomColor"
  | borderBottomStyle => "borderBottomStyle"
  | borderBottomWidth => "borderBottomWidth"
  | borderLeft => "borderLeft"
  | borderLeftColor => "borderLeftColor"
  | borderLeftStyle => "borderLeftStyle"
  | borderLeftWidth => "borderLeftWidth"
  | borderTopLeftRadius => "borderTopLeftRadius"
  | borderTopRightRadius => "borderTopRightRadius"
  | borderBottomRightRadius => "borderBottomRightRadius"
  | borderBottomLeftRadius => "borderBottomLeftRadius"
  | borderRadius => "borderRadius"
  | borderCollapse => "borderCollapse"
  | borderSpacing => "borderSpacing"

/-- The key in JSON. This table and that of the names are two, and agree (`key_eq_name`). -/
def key : Property → String
  | alignContent => "alignContent"
  | alignItems => "alignItems"
  | alignSelf => "alignSelf"
  | flex => "flex"
  | flexDirection => "flexDirection"
  | flexWrap => "flexWrap"
  | flexFlow => "flexFlow"
  | flexGrow => "flexGrow"
  | flexShrink => "flexShrink"
  | flexBasis => "flexBasis"
  | justifyContent => "justifyContent"
  | gap => "gap"
  | rowGap => "rowGap"
  | columnGap => "columnGap"
  | order => "order"
  | bottom => "bottom"
  | display => "display"
  | left => "left"
  | position => "position"
  | right => "right"
  | top => "top"
  | overflow => "overflow"
  | zIndex => "zIndex"
  | height => "height"
  | maxHeight => "maxHeight"
  | maxWidth => "maxWidth"
  | minHeight => "minHeight"
  | minWidth => "minWidth"
  | width => "width"
  | backgroundColor => "backgroundColor"
  | color => "color"
  | opacity => "opacity"
  | fontSize => "fontSize"
  | fontFamily => "fontFamily"
  | fontStyle => "fontStyle"
  | fontWeight => "fontWeight"
  | letterSpacing => "letterSpacing"
  | lineHeight => "lineHeight"
  | maxLines => "maxLines"
  | textAlign => "textAlign"
  | textDecoration => "textDecoration"
  | textDecorationColor => "textDecorationColor"
  | textDecorationStyle => "textDecorationStyle"
  | textIndent => "textIndent"
  | textOverflow => "textOverflow"
  | textTransform => "textTransform"
  | verticalAlign => "verticalAlign"
  | objectFit => "objectFit"
  | objectPosition => "objectPosition"
  | objectPositionX => "objectPositionX"
  | objectPositionY => "objectPositionY"
  | margin => "margin"
  | marginHorizontal => "marginHorizontal"
  | marginVertical => "marginVertical"
  | marginTop => "marginTop"
  | marginRight => "marginRight"
  | marginBottom => "marginBottom"
  | marginLeft => "marginLeft"
  | padding => "padding"
  | paddingHorizontal => "paddingHorizontal"
  | paddingVertical => "paddingVertical"
  | paddingTop => "paddingTop"
  | paddingRight => "paddingRight"
  | paddingBottom => "paddingBottom"
  | paddingLeft => "paddingLeft"
  | transform => "transform"
  | transformOrigin => "transformOrigin"
  | transformOriginX => "transformOriginX"
  | transformOriginY => "transformOriginY"
  | border => "border"
  | borderWidth => "borderWidth"
  | borderColor => "borderColor"
  | borderStyle => "borderStyle"
  | borderTop => "borderTop"
  | borderTopColor => "borderTopColor"
  | borderTopStyle => "borderTopStyle"
  | borderTopWidth => "borderTopWidth"
  | borderRight => "borderRight"
  | borderRightColor => "borderRightColor"
  | borderRightStyle => "borderRightStyle"
  | borderRightWidth => "borderRightWidth"
  | borderBottom => "borderBottom"
  | borderBottomColor => "borderBottomColor"
  | borderBottomStyle => "borderBottomStyle"
  | borderBottomWidth => "borderBottomWidth"
  | borderLeft => "borderLeft"
  | borderLeftColor => "borderLeftColor"
  | borderLeftStyle => "borderLeftStyle"
  | borderLeftWidth => "borderLeftWidth"
  | borderTopLeftRadius => "borderTopLeftRadius"
  | borderTopRightRadius => "borderTopRightRadius"
  | borderBottomRightRadius => "borderBottomRightRadius"
  | borderBottomLeftRadius => "borderBottomLeftRadius"
  | borderRadius => "borderRadius"
  | borderCollapse => "borderCollapse"
  | borderSpacing => "borderSpacing"

def ofName? (name : String) : Option Property := all.find? fun property => property.name == name

def ofKey? (key : String) : Option Property := all.find? fun property => property.key == key

/-- The words of an output name in the form of style sheets: a capital becomes a hyphen and the
small letter. -/
def hyphenate : List Char → List Char
  | [] => []
  | c :: rest => if c.isUpper then '-' :: c.toLower :: hyphenate rest else c :: hyphenate rest

/-- The name in style sheets. -/
def cssName (property : Property) : String := String.ofList (hyphenate property.name.toList)

/-- The properties for which a host's computed style is asked. Shorthands that a host resolves into
their longhands are not among them, and neither is the spacing of letters. -/
def computed : List Property :=
  [.alignContent, .alignItems, .alignSelf, .flexDirection, .flexWrap, .flexFlow, .flexGrow,
   .flexShrink, .flexBasis, .justifyContent, .order, .bottom, .display, .left, .position, .right,
   .top, .overflow, .zIndex, .height, .maxHeight, .maxWidth, .minHeight, .minWidth, .width,
   .backgroundColor, .color, .opacity, .fontSize, .fontFamily, .fontStyle, .fontWeight,
   .lineHeight, .maxLines, .textAlign, .textDecoration, .textDecorationColor, .textDecorationStyle,
   .textIndent, .textOverflow, .textTransform, .objectFit, .objectPosition, .objectPositionX,
   .objectPositionY, .marginHorizontal, .marginVertical, .marginTop, .marginRight, .marginBottom,
   .marginLeft, .paddingHorizontal, .paddingVertical, .paddingTop, .paddingRight, .paddingBottom,
   .paddingLeft, .transform, .transformOrigin, .transformOriginX, .transformOriginY, .borderWidth,
   .borderColor, .borderStyle, .borderTopColor, .borderTopStyle, .borderTopWidth,
   .borderRightColor, .borderRightStyle, .borderRightWidth, .borderBottomColor, .borderBottomStyle,
   .borderBottomWidth, .borderLeftColor, .borderLeftStyle, .borderLeftWidth, .borderTopLeftRadius,
   .borderTopRightRadius, .borderBottomRightRadius, .borderBottomLeftRadius, .borderRadius]

theorem mem_all (property : Property) : property ∈ all := by
  cases property <;> decide

theorem ofName?_name (property : Property) : ofName? property.name = some property := by
  have every : ∀ p ∈ all, ofName? p.name = some p := by decide +kernel
  exact every property (mem_all property)

/-- **The two tables of names agree.** -/
theorem key_eq_name (property : Property) : property.key = property.name := by
  cases property <;> rfl

theorem ofKey?_key (property : Property) : ofKey? property.key = some property := by
  have same : ofKey? = ofName? := by
    funext key
    simp only [ofKey?, ofName?, key_eq_name]
  rw [same, key_eq_name, ofName?_name]

end Property

end PagedHtml.Style
