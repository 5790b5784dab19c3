/-
# `Declaration.Table` — the properties and descriptors that are known

A property is known by its name, its value kind and the contexts it is
recognized in; the other contexts have descriptors of their own.
`Table.entries` gives both in one form: the names of a context with their
value kinds, in canonical order.
-/
import StyleTree.Declaration.Context
import StyleTree.Declaration.ValueKind

namespace StyleTree.Table

/-- A property: its name, what its values look like, and where it is recognized. -/
structure Property where
  name : String
  kind : ValueKind
  contexts : List DeclarationContext

/-! ## Groups of contexts -/

def styled : List DeclarationContext := [.style]

def animatable : List DeclarationContext := [.style, .keyframe]

/-- Properties that also apply to pages and their margins. -/
def paged : List DeclarationContext := [.style, .keyframe, .page, .margin]

/-- Properties that place a box. -/
def placed : List DeclarationContext := [.style, .keyframe, .positionTry]

/-- Properties that size a box. -/
def sized : List DeclarationContext := paged ++ [.positionTry]

def pageOnly : List DeclarationContext := [.page]

/-- Properties of boxes that may be generated in a margin. -/
def generated : List DeclarationContext := [.style, .keyframe, .margin]

/-! ## Kinds with a name -/

/-- The width of a line. -/
def lineWidth : ValueKind := .length ["thin", "medium", "thick"]

/-- An offset or a margin. -/
def autoLength : ValueKind := .lengthPercentage ["auto"]

/-- An inner distance. -/
def padding : ValueKind := .nonnegative []

/-- A width or a height. -/
def size : ValueKind :=
  .nonnegative ["auto", "min-content", "max-content", "fit-content", "stretch"]

/-- An upper bound of a size. -/
def maxSize : ValueKind :=
  .nonnegative ["none", "min-content", "max-content", "fit-content", "stretch"]

/-- A list of times. -/
def times : ValueKind := .commaList .time

/-- The radius of a corner: one value, or one for each axis. -/
def radius : ValueKind := .repeated padding 2

/-- The style of a line. -/
def borderStyle : ValueKind :=
  .keyword ["none", "hidden", "dotted", "dashed", "solid", "double", "groove", "ridge", "inset",
    "outset"]

/-- The distance between rows or columns. -/
def gap : ValueKind := .nonnegative ["normal"]

/-- What happens to content that does not fit. -/
def overflow : ValueKind := .keyword ["visible", "hidden", "clip", "scroll", "auto"]

/-- How a box aligns itself. -/
def selfAlignment : ValueKind :=
  .keyword ["auto", "normal", "stretch", "baseline", "center", "start", "end", "self-start",
    "self-end", "flex-start", "flex-end", "anchor-center"]

/-- How the content of a box is distributed. -/
def contentAlignment : ValueKind :=
  .keyword ["normal", "center", "start", "end", "flex-start", "flex-end", "space-between",
    "space-around", "space-evenly", "stretch"]

/-- How the items in a box align. -/
def itemAlignment : ValueKind :=
  .keyword ["normal", "stretch", "baseline", "center", "start", "end", "self-start", "self-end",
    "flex-start", "flex-end"]

/-- The name of keyframes, or none. -/
def animationName : ValueKind := .either (.keyword ["none"]) (.either (.customIdent []) .string)

def lineHeight : ValueKind := .either (.number []) (.nonnegative ["normal"])

def opacity : ValueKind := .either (.number []) .percentage

def fontSize : ValueKind :=
  .nonnegative ["xx-small", "x-small", "small", "medium", "large", "x-large", "xx-large",
    "xxx-large", "larger", "smaller", "math"]

def fontWeight : ValueKind := .number ["normal", "bold", "bolder", "lighter"]

def fontStretch : ValueKind :=
  .either .percentage (.keyword ["normal", "ultra-condensed", "extra-condensed", "condensed",
    "semi-condensed", "semi-expanded", "expanded", "extra-expanded", "ultra-expanded"])

def verticalAlign : ValueKind :=
  .either (.keyword ["baseline", "sub", "super", "text-top", "text-bottom", "middle", "top",
    "bottom"]) (.lengthPercentage [])

/-! ## Properties -/

/-- The properties in canonical order. -/
def properties : List Property :=
  [⟨"align-content", contentAlignment, animatable⟩,
   ⟨"align-items", itemAlignment, animatable⟩,
   ⟨"align-self", selfAlignment, placed⟩,
   ⟨"animation", .any, styled⟩,
   ⟨"animation-composition", .commaList (.keyword ["replace", "add", "accumulate"]), animatable⟩,
   ⟨"animation-delay", times, styled⟩,
   ⟨"animation-direction", .commaList (.keyword ["normal", "reverse", "alternate",
     "alternate-reverse"]), styled⟩,
   ⟨"animation-duration", .commaList (.either (.keyword ["auto"]) .time), styled⟩,
   ⟨"animation-fill-mode", .commaList (.keyword ["none", "forwards", "backwards", "both"]),
     styled⟩,
   ⟨"animation-iteration-count", .commaList (.number ["infinite"]), styled⟩,
   ⟨"animation-name", .commaList animationName, styled⟩,
   ⟨"animation-play-state", .commaList (.keyword ["running", "paused"]), styled⟩,
   ⟨"animation-timing-function", .any, animatable⟩,
   ⟨"aspect-ratio", .any, animatable⟩,
   ⟨"background", .any, paged⟩,
   ⟨"background-attachment", .commaList (.keyword ["scroll", "fixed", "local"]), paged⟩,
   ⟨"background-clip", .commaList (.keyword ["border-box", "padding-box", "content-box",
     "text"]), paged⟩,
   ⟨"background-color", .color, paged⟩,
   ⟨"background-image", .any, paged⟩,
   ⟨"background-origin", .commaList (.keyword ["border-box", "padding-box", "content-box"]),
     paged⟩,
   ⟨"background-position", .any, paged⟩,
   ⟨"background-repeat", .any, paged⟩,
   ⟨"background-size", .any, paged⟩,
   ⟨"bleed", .length ["auto"], pageOnly⟩,
   ⟨"block-size", size, placed⟩,
   ⟨"border", .any, paged⟩,
   ⟨"border-bottom", .any, paged⟩,
   ⟨"border-bottom-color", .color, paged⟩,
   ⟨"border-bottom-left-radius", radius, paged⟩,
   ⟨"border-bottom-right-radius", radius, paged⟩,
   ⟨"border-bottom-style", borderStyle, paged⟩,
   ⟨"border-bottom-width", lineWidth, paged⟩,
   ⟨"border-collapse", .keyword ["collapse", "separate"], animatable⟩,
   ⟨"border-color", .repeated .color 4, paged⟩,
   ⟨"border-left", .any, paged⟩,
   ⟨"border-left-color", .color, paged⟩,
   ⟨"border-left-style", borderStyle, paged⟩,
   ⟨"border-left-width", lineWidth, paged⟩,
   ⟨"border-radius", .any, paged⟩,
   ⟨"border-right", .any, paged⟩,
   ⟨"border-right-color", .color, paged⟩,
   ⟨"border-right-style", borderStyle, paged⟩,
   ⟨"border-right-width", lineWidth, paged⟩,
   ⟨"border-spacing", .repeated (.length []) 2, animatable⟩,
   ⟨"border-style", .repeated borderStyle 4, paged⟩,
   ⟨"border-top", .any, paged⟩,
   ⟨"border-top-color", .color, paged⟩,
   ⟨"border-top-left-radius", radius, paged⟩,
   ⟨"border-top-right-radius", radius, paged⟩,
   ⟨"border-top-style", borderStyle, paged⟩,
   ⟨"border-top-width", lineWidth, paged⟩,
   ⟨"border-width", .repeated lineWidth 4, paged⟩,
   ⟨"bottom", autoLength, placed⟩,
   ⟨"box-shadow", .any, paged⟩,
   ⟨"box-sizing", .keyword ["content-box", "border-box"], animatable⟩,
   ⟨"clear", .keyword ["none", "left", "right", "both", "inline-start", "inline-end"],
     animatable⟩,
   ⟨"clip-path", .any, animatable⟩,
   ⟨"color", .color, paged⟩,
   ⟨"column-gap", gap, animatable⟩,
   ⟨"content", .content, generated⟩,
   ⟨"counter-increment", .any, paged⟩,
   ⟨"counter-reset", .any, paged⟩,
   ⟨"cursor", .any, animatable⟩,
   ⟨"direction", .keyword ["ltr", "rtl"], paged⟩,
   ⟨"display", .keyword ["none", "block", "inline", "inline-block", "flex", "inline-flex",
     "grid", "inline-grid", "flow-root", "contents", "table", "table-row", "table-cell",
     "list-item"], animatable⟩,
   ⟨"fill", .any, animatable⟩,
   ⟨"filter", .any, animatable⟩,
   ⟨"flex", .any, animatable⟩,
   ⟨"flex-basis", .nonnegative ["auto", "content", "min-content", "max-content", "fit-content"],
     animatable⟩,
   ⟨"flex-direction", .keyword ["row", "row-reverse", "column", "column-reverse"], animatable⟩,
   ⟨"flex-grow", .number [], animatable⟩,
   ⟨"flex-shrink", .number [], animatable⟩,
   ⟨"flex-wrap", .keyword ["nowrap", "wrap", "wrap-reverse"], animatable⟩,
   ⟨"float", .keyword ["left", "right", "none", "inline-start", "inline-end"], animatable⟩,
   ⟨"font", .any, paged⟩,
   ⟨"font-family", .families, paged⟩,
   ⟨"font-feature-settings", .any, paged⟩,
   ⟨"font-kerning", .keyword ["auto", "normal", "none"], paged⟩,
   ⟨"font-size", fontSize, paged⟩,
   ⟨"font-stretch", fontStretch, paged⟩,
   ⟨"font-style", .any, paged⟩,
   ⟨"font-variant", .any, paged⟩,
   ⟨"font-variant-alternates", .any, paged⟩,
   ⟨"font-variant-numeric", .any, paged⟩,
   ⟨"font-weight", fontWeight, paged⟩,
   ⟨"gap", .repeated gap 2, animatable⟩,
   ⟨"grid-area", .any, animatable⟩,
   ⟨"grid-column", .any, animatable⟩,
   ⟨"grid-row", .any, animatable⟩,
   ⟨"grid-template-areas", .any, animatable⟩,
   ⟨"grid-template-columns", .any, animatable⟩,
   ⟨"grid-template-rows", .any, animatable⟩,
   ⟨"height", size, sized⟩,
   ⟨"inline-size", size, placed⟩,
   ⟨"inset", .repeated autoLength 4, placed⟩,
   ⟨"inset-block", .repeated autoLength 2, placed⟩,
   ⟨"inset-block-end", autoLength, placed⟩,
   ⟨"inset-block-start", autoLength, placed⟩,
   ⟨"inset-inline", .repeated autoLength 2, placed⟩,
   ⟨"inset-inline-end", autoLength, placed⟩,
   ⟨"inset-inline-start", autoLength, placed⟩,
   ⟨"justify-content", contentAlignment, animatable⟩,
   ⟨"justify-items", itemAlignment, animatable⟩,
   ⟨"justify-self", selfAlignment, placed⟩,
   ⟨"left", autoLength, placed⟩,
   ⟨"letter-spacing", .length ["normal"], paged⟩,
   ⟨"line-height", lineHeight, paged⟩,
   ⟨"list-style", .any, animatable⟩,
   ⟨"list-style-type", .any, animatable⟩,
   ⟨"margin", .repeated autoLength 4, sized⟩,
   ⟨"margin-block", .repeated autoLength 2, placed⟩,
   ⟨"margin-bottom", autoLength, sized⟩,
   ⟨"margin-inline", .repeated autoLength 2, placed⟩,
   ⟨"margin-left", autoLength, sized⟩,
   ⟨"margin-right", autoLength, sized⟩,
   ⟨"margin-top", autoLength, sized⟩,
   ⟨"marks", .any, pageOnly⟩,
   ⟨"max-block-size", maxSize, placed⟩,
   ⟨"max-height", maxSize, sized⟩,
   ⟨"max-inline-size", maxSize, placed⟩,
   ⟨"max-width", maxSize, sized⟩,
   ⟨"min-block-size", size, placed⟩,
   ⟨"min-height", size, sized⟩,
   ⟨"min-inline-size", size, placed⟩,
   ⟨"min-width", size, sized⟩,
   ⟨"object-fit", .keyword ["fill", "contain", "cover", "none", "scale-down"], animatable⟩,
   ⟨"opacity", opacity, paged⟩,
   ⟨"outline", .any, paged⟩,
   ⟨"outline-color", .color, paged⟩,
   ⟨"outline-offset", .length [], paged⟩,
   ⟨"outline-style", .either (.keyword ["auto"]) borderStyle, paged⟩,
   ⟨"outline-width", lineWidth, paged⟩,
   ⟨"overflow", .repeated overflow 2, animatable⟩,
   ⟨"overflow-x", overflow, animatable⟩,
   ⟨"overflow-y", overflow, animatable⟩,
   ⟨"padding", .repeated padding 4, paged⟩,
   ⟨"padding-block", .repeated padding 2, animatable⟩,
   ⟨"padding-bottom", padding, paged⟩,
   ⟨"padding-inline", .repeated padding 2, animatable⟩,
   ⟨"padding-left", padding, paged⟩,
   ⟨"padding-right", padding, paged⟩,
   ⟨"padding-top", padding, paged⟩,
   ⟨"page", .either (.keyword ["auto"]) (.customIdent []), styled⟩,
   ⟨"page-orientation", .keyword ["upright", "rotate-left", "rotate-right"], pageOnly⟩,
   ⟨"pointer-events", .any, animatable⟩,
   ⟨"position", .keyword ["static", "relative", "absolute", "fixed", "sticky"], animatable⟩,
   ⟨"position-anchor", .either (.keyword ["auto"]) .dashedIdent, placed⟩,
   ⟨"position-area", .any, placed⟩,
   ⟨"quotes", .any, paged⟩,
   ⟨"right", autoLength, placed⟩,
   ⟨"rotate", .any, animatable⟩,
   ⟨"row-gap", gap, animatable⟩,
   ⟨"scale", .any, animatable⟩,
   ⟨"size", .any, pageOnly⟩,
   ⟨"stroke", .any, animatable⟩,
   ⟨"stroke-width", padding, animatable⟩,
   ⟨"text-align", .keyword ["start", "end", "left", "right", "center", "justify",
     "match-parent"], paged⟩,
   ⟨"text-decoration", .any, paged⟩,
   ⟨"text-indent", .lengthPercentage [], paged⟩,
   ⟨"text-overflow", .keyword ["clip", "ellipsis"], animatable⟩,
   ⟨"text-shadow", .any, paged⟩,
   ⟨"text-transform", .keyword ["none", "capitalize", "uppercase", "lowercase", "full-width",
     "full-size-kana"], paged⟩,
   ⟨"top", autoLength, placed⟩,
   ⟨"transform", .any, animatable⟩,
   ⟨"transform-origin", .any, animatable⟩,
   ⟨"transition", .any, styled⟩,
   ⟨"transition-behavior", .any, styled⟩,
   ⟨"transition-delay", times, styled⟩,
   ⟨"transition-duration", times, styled⟩,
   ⟨"transition-property", .any, styled⟩,
   ⟨"transition-timing-function", .any, styled⟩,
   ⟨"translate", .any, animatable⟩,
   ⟨"user-select", .keyword ["auto", "text", "none", "contain", "all"], animatable⟩,
   ⟨"vertical-align", verticalAlign, generated⟩,
   ⟨"visibility", .keyword ["visible", "hidden", "collapse"], paged⟩,
   ⟨"white-space", .keyword ["normal", "pre", "nowrap", "pre-wrap", "break-spaces", "pre-line"],
     animatable⟩,
   ⟨"width", size, sized⟩,
   ⟨"will-change", .any, animatable⟩,
   ⟨"word-break", .keyword ["normal", "break-all", "keep-all", "break-word"], animatable⟩,
   ⟨"word-spacing", .length ["normal"], paged⟩,
   ⟨"z-index", .integer ["auto"], paged⟩]

/-! ## Descriptors -/

/-- The descriptors of a context in canonical order. -/
def descriptors : DeclarationContext → List (String × ValueKind)
  | .fontFace =>
    [("font-family", .families),
     ("src", .fontSources),
     ("font-style", .any),
     ("font-weight", .any),
     ("font-stretch", .any),
     ("font-display", .keyword ["auto", "block", "swap", "fallback", "optional"]),
     ("unicode-range", .unicodeRange),
     ("font-feature-settings", .any),
     ("font-variation-settings", .any),
     ("font-named-instance", .any),
     ("ascent-override", .any),
     ("descent-override", .any),
     ("line-gap-override", .any),
     ("size-adjust", .percentage)]
  | .fontFeatureValues =>
    [("font-display", .keyword ["auto", "block", "swap", "fallback", "optional"])]
  | .fontPaletteValues =>
    [("font-family", .families),
     ("base-palette", .either (.keyword ["light", "dark"]) (.integer [])),
     ("override-colors", .any)]
  | .counterStyle =>
    [("system", .counterSystem),
     ("symbols", .any),
     ("additive-symbols", .any),
     ("negative", .any),
     ("prefix", .any),
     ("suffix", .any),
     ("range", .any),
     ("pad", .any),
     ("speak-as", .either (.keyword ["auto", "bullets", "numbers", "words", "spell-out"])
       (.customIdent ["none"])),
     ("fallback", .customIdent ["none"])]
  | .property =>
    [("syntax", .string),
     ("inherits", .keyword ["true", "false"]),
     ("initial-value", .any)]
  | .colorProfile =>
    [("src", .url),
     ("rendering-intent", .keyword ["relative-colorimetric", "absolute-colorimetric",
       "perceptual", "saturation"]),
     ("components", .any)]
  | .viewTransition =>
    [("navigation", .keyword ["auto", "none"]),
     ("types", .any)]
  | _ => []

/-! ## The names of a context -/

/-- The names that a context knows, with the kinds of their values, in canonical order. -/
def entries (c : DeclarationContext) : List (String × ValueKind) :=
  if c.holdsProperties then
    (properties.filter (c ∈ ·.contexts)).map (fun p => (p.name, p.kind))
  else descriptors c

/-- The value kind of a name in a context. -/
def kind? (c : DeclarationContext) (name : String) : Option ValueKind := (entries c).lookup name

/-- The place of a name in the canonical order of a context. -/
def rank? (c : DeclarationContext) (name : String) : Option Nat :=
  (entries c).findIdx? (·.1 == name)

def isRecognized (c : DeclarationContext) (name : String) : Bool := (kind? c name).isSome

end StyleTree.Table
