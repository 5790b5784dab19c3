/-
# `Rule.Head` — what a rule says besides its block

`RuleHead` has one constructor for each kind of rule and holds what was
read from its prelude.  A block of feature values has nothing but its
values, which are therefore part of it.
-/
import StyleTree.Rule.Kind
import StyleTree.Name.Layer
import StyleTree.Name.Family
import StyleTree.Name.Page
import StyleTree.Name.Key
import StyleTree.Condition.Media
import StyleTree.Feature.Values

namespace StyleTree

/-- The layer of an imported sheet. -/
inductive ImportLayer where
  | anonymous
  | named (name : LayerName)
  deriving DecidableEq, Inhabited

/-- What is imported, into which layer, and on which conditions. -/
structure ImportPrelude where
  href : String
  layer : Option ImportLayer
  supports : Option String
  media : MediaList
  deriving DecidableEq, Inhabited

/-- The name of a layer; an anonymous one has the empty name. -/
def ImportLayer.name : ImportLayer → String
  | .anonymous => ""
  | .named n => n.text

inductive RuleHead where
  | style (selectors : List Selector)
  | importRule (clauses : ImportPrelude)
  | namespaceRule (name : Option String) (uri : String)
  | layerStatement (names : List LayerName)
  | layerBlock (name : Option LayerName)
  | media (queries : MediaList)
  | supports (condition : String)
  | container (name : Option String) (query : Option String)
  | page (selectors : List PageSelector)
  /-- A margin box, by its place in the order. -/
  | margin (index : Nat)
  | keyframes (name : String)
  | keyframe (key : KeyframeKey)
  | fontFace
  | fontFeatureValues (families : List FamilyName)
  | featureBlock (values : FeatureValues)
  | fontPaletteValues (name : String)
  | counterStyle (name : String)
  | property (name : String)
  | positionTry (name : String)
  | scope (start : Option (List Selector)) (stop : Option (List Selector))
  | startingStyle
  | colorProfile (name : String)
  | viewTransition
  deriving Inhabited

namespace RuleHead

def kind : RuleHead → RuleKind
  | style _ => .style
  | importRule _ => .importRule
  | namespaceRule _ _ => .namespaceRule
  | layerStatement _ => .layerStatement
  | layerBlock _ => .layerBlock
  | media _ => .media
  | supports _ => .supports
  | container _ _ => .container
  | page _ => .page
  | margin _ => .margin
  | keyframes _ => .keyframes
  | keyframe _ => .keyframe
  | fontFace => .fontFace
  | fontFeatureValues _ => .fontFeatureValues
  | featureBlock _ => .featureBlock
  | fontPaletteValues _ => .fontPaletteValues
  | counterStyle _ => .counterStyle
  | property _ => .property
  | positionTry _ => .positionTry
  | scope _ _ => .scope
  | startingStyle => .startingStyle
  | colorProfile _ => .colorProfile
  | viewTransition => .viewTransition

/-- The condition of a conditional rule as text. -/
def condition? : RuleHead → Option String
  | media l => some l.text
  | supports c => some c
  | container n q => some (Text.joined " " (n.toList ++ q.toList))
  | _ => none

/-- The name of the margin box. -/
def marginName : RuleHead → String
  | margin i => (MarginBox.name? i).getD ""
  | _ => ""

/-- The values of a block of feature values. -/
def features? : RuleHead → Option FeatureValues
  | featureBlock m => some m
  | _ => none

/-- The place among siblings that keep a fixed order. -/
def rank? : RuleHead → Option Nat
  | margin i => some i
  | featureBlock m => some m.feature.rank
  | _ => none

/-- The text of selectors: those of a style rule or of a page. -/
def selectors? : RuleHead → Option String
  | style l => some (Selector.listText l)
  | page l => some (PageSelector.listText l)
  | _ => none

/-- The name by which a rule is referred to; an anonymous layer has the empty name. -/
def name? : RuleHead → Option String
  | keyframes n | counterStyle n | property n | fontPaletteValues n => some n
  | positionTry n | colorProfile n => some n
  | margin i => MarginBox.name? i
  | layerBlock n => some ((n.map LayerName.text).getD "")
  | _ => none

end RuleHead

end StyleTree
