/-
# `Rule.AtRule` — which rule a statement is

The name of an at-rule decides its kind together with whether it has a
block.  Names are compared in lower case; the mark of a vendor is
understood in front of `keyframes` alone.  A statement without a name is
what its context makes of it.
-/
import StyleTree.Rule.Kind
import StyleTree.Name.Page

namespace StyleTree

/-- Why a statement is no rule here. -/
inductive Rejection where
  /-- Known, but never kept. -/
  | ignored
  | unknownRule
  /-- A block is missing, or there is one too many. -/
  | invalidBlock
  | invalidPrelude
  /-- The kind may not stand in this list. -/
  | notAllowed
  /-- The kind may not stand at this place of the list. -/
  | invalidPosition
  deriving DecidableEq, Inhabited

namespace AtRule

/-- Whether an at-rule has a block, and its kind. -/
inductive Shape where
  | block (k : RuleKind)
  | statement (k : RuleKind)
  | either (block statement : RuleKind)

/-- The at-rules by their names. -/
def table : List (String × Shape) :=
  [("color-profile", .block .colorProfile),
   ("container", .block .container),
   ("counter-style", .block .counterStyle),
   ("font-face", .block .fontFace),
   ("font-feature-values", .block .fontFeatureValues),
   ("font-palette-values", .block .fontPaletteValues),
   ("import", .statement .importRule),
   ("keyframes", .block .keyframes),
   ("layer", .either .layerBlock .layerStatement),
   ("media", .block .media),
   ("namespace", .statement .namespaceRule),
   ("page", .block .page),
   ("position-try", .block .positionTry),
   ("property", .block .property),
   ("scope", .block .scope),
   ("starting-style", .block .startingStyle),
   ("supports", .block .supports),
   ("view-transition", .block .viewTransition),
   ("annotation", .block .featureBlock),
   ("character-variant", .block .featureBlock),
   ("ornaments", .block .featureBlock),
   ("styleset", .block .featureBlock),
   ("stylistic", .block .featureBlock),
   ("swash", .block .featureBlock)]

/-- Names of keyframes with the mark of a vendor. -/
def vendorKeyframes : List String :=
  ["-webkit-keyframes", "-moz-keyframes", "-o-keyframes", "-ms-keyframes"]

/-- The name of an at-rule as the table has it. -/
def canonicalName (name : String) : String :=
  let n := Text.foldCase name
  if n ∈ vendorKeyframes then "keyframes" else n

/-- The kind of an at-rule by its canonical name. -/
def kindOf (name : String) (hasBlock : Bool) : Except Rejection RuleKind :=
  if name = "charset" then .error .ignored
  else if (MarginBox.index? name).isSome then
    if hasBlock then .ok .margin else .error .invalidBlock
  else
    match table.lookup name, hasBlock with
    | none, _ => .error .unknownRule
    | some (.block k), true => .ok k
    | some (.statement k), false => .ok k
    | some (.either k _), true => .ok k
    | some (.either _ k), false => .ok k
    | some _, _ => .error .invalidBlock

end AtRule

/-- The kind of a statement in a context. -/
def Statement.classify (s : Statement) (context : RuleContext) : Except Rejection RuleKind :=
  match s.name with
  | some n => AtRule.kindOf (AtRule.canonicalName n) s.block.isSome
  | none =>
    match context.qualifiedKind? with
    | some k => .ok k
    | none => .error .notAllowed

end StyleTree
