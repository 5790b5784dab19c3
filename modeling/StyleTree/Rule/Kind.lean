/-
# `Rule.Kind` — the kinds of rules and where they may stand

`RuleKind` lists the rules a sheet can hold and `RuleContext` the lists
they can stand in.  A context says which kinds it admits, how the contents
of its blocks are split, and what a rule without an at-keyword is there.
The block of a rule has a context of its own, which for grouping rules
depends on where the rule stands.
-/
import StyleTree.Statement
import StyleTree.Selector.Read

namespace StyleTree

inductive RuleKind where
  | style
  | importRule
  | namespaceRule
  | layerStatement
  | layerBlock
  | media
  | supports
  | container
  | page
  | margin
  | keyframes
  | keyframe
  | fontFace
  | fontFeatureValues
  /-- A block of one kind of feature values. -/
  | featureBlock
  | fontPaletteValues
  | counterStyle
  | property
  | positionTry
  | scope
  | startingStyle
  | colorProfile
  | viewTransition
  deriving DecidableEq, Inhabited

/-- The list a rule stands in. -/
inductive RuleContext where
  | stylesheet
  /-- The block of a grouping rule outside of style rules. -/
  | group
  | styleBlock
  /-- The block of a grouping rule inside a style rule. -/
  | nestedGroup
  | scope
  | keyframes
  | page
  | fontFeatureValues
  /-- A block that holds declarations only. -/
  | declarations
  deriving DecidableEq, Inhabited

namespace RuleKind

/-- A short name. -/
def name : RuleKind → String
  | style => "style"
  | importRule => "@import"
  | namespaceRule => "@namespace"
  | layerStatement => "@layer statement"
  | layerBlock => "@layer block"
  | media => "@media"
  | supports => "@supports"
  | container => "@container"
  | page => "@page"
  | margin => "margin"
  | keyframes => "@keyframes"
  | keyframe => "keyframe"
  | fontFace => "@font-face"
  | fontFeatureValues => "@font-feature-values"
  | featureBlock => "feature value block"
  | fontPaletteValues => "@font-palette-values"
  | counterStyle => "@counter-style"
  | property => "@property"
  | positionTry => "@position-try"
  | scope => "@scope"
  | startingStyle => "@starting-style"
  | colorProfile => "@color-profile"
  | viewTransition => "@view-transition"

/-- Grouping rules: their block is a list of rules that apply under a condition or in a layer. -/
def isGroup : RuleKind → Bool
  | layerBlock | media | supports | container | startingStyle => true
  | _ => false

/-- Rules that have rules inside. -/
def hasChildren : RuleKind → Bool
  | style | page | keyframes | fontFeatureValues | scope => true
  | k => k.isGroup

/-- Rules that always have a set of declarations. -/
def hasDeclarations : RuleKind → Bool
  | style | page | margin | keyframe | fontFace | fontFeatureValues | fontPaletteValues => true
  | counterStyle | property | positionTry | colorProfile | viewTransition => true
  | _ => false

/-- The context of a grouping rule's block. -/
def groupContext : RuleContext → RuleContext
  | .styleBlock | .nestedGroup => .nestedGroup
  | _ => .group

/-- The context of the block of a rule that stands in `context`. -/
def blockContext (k : RuleKind) (context : RuleContext) : RuleContext :=
  if k.isGroup then groupContext context
  else
    match k with
    | style => .styleBlock
    | scope => .scope
    | keyframes => .keyframes
    | page => .page
    | fontFeatureValues => .fontFeatureValues
    | _ => .declarations

/-- The kinds that the top level of a sheet admits. -/
def statements : List RuleKind :=
  [style, importRule, namespaceRule, layerStatement, layerBlock, media, supports, container, page,
   keyframes, fontFace, fontFeatureValues, fontPaletteValues, counterStyle, property, positionTry,
   scope, startingStyle, colorProfile, viewTransition]

/-- The kinds that may stand under a style rule. -/
def nested : List RuleKind :=
  [style, layerStatement, layerBlock, media, supports, container, scope, startingStyle]

end RuleKind

namespace RuleContext

/-- Whether a rule of this kind may stand here. -/
def allows (c : RuleContext) (k : RuleKind) : Bool :=
  match c with
  | stylesheet => k ∈ RuleKind.statements
  | group => k ∈ RuleKind.statements && k != .importRule && k != .namespaceRule
  | styleBlock | nestedGroup | scope => k ∈ RuleKind.nested
  | keyframes => k = .keyframe
  | page => k = .margin
  | fontFeatureValues => k = .featureBlock
  | declarations => false

/-- How the contents of a block are split. -/
def contentForm : RuleContext → ContentForm
  | stylesheet => .stylesheet
  | group | keyframes => .ruleList
  | _ => .declarations

/-- What a rule without an at-keyword is here. -/
def qualifiedKind? : RuleContext → Option RuleKind
  | stylesheet | group | styleBlock | nestedGroup | scope => some .style
  | keyframes => some .keyframe
  | _ => none

/-- How the selectors of style rules are read here. -/
def selectorMode : RuleContext → SelectorMode
  | styleBlock | nestedGroup => .nested
  | scope => .relative
  | _ => .absolute

end RuleContext

end StyleTree
