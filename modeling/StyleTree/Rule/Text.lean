/-
# `Rule.Text` — rules as text

The text of a rule is that of its head, followed by a semicolon if rules of the
kind have no block, or else by its declarations and children in braces.
It depends on the tree of the rule alone.
-/
import StyleTree.Rule.Basic
import StyleTree.Tree

namespace StyleTree

/-- The layer of an import as text. -/
def ImportLayer.text : ImportLayer → String
  | .anonymous => " layer"
  | .named n => " layer(" ++ n.text ++ ")"

/-- Media queries behind a blank; nothing if there are none. -/
def MediaList.suffix (l : MediaList) : String := if l.isEmpty then "" else " " ++ l.text

namespace RuleHead

/-- A name in an at-rule. -/
def namedHead (keyword name : String) : String := "@" ++ keyword ++ " " ++ Text.identifier name

/-- An optional part with text around it. -/
def around {α : Type} (before : String) (f : α → String) (after : String) : Option α → String
  | some a => before ++ f a ++ after
  | none => ""

/-- A head as text: what stands before the block, or before the semicolon. -/
def text : RuleHead → String
  | style l => Selector.listText l
  | importRule i =>
    "@import " ++ Text.url i.href ++ around "" ImportLayer.text "" i.layer ++
      around " supports(" id ")" i.supports ++ i.media.suffix
  | namespaceRule n u => "@namespace " ++ around "" Text.identifier " " n ++ Text.url u
  | layerStatement ns => "@layer " ++ Text.joined ", " (ns.map LayerName.text)
  | layerBlock n => "@layer" ++ around " " LayerName.text "" n
  | media l => "@media" ++ l.suffix
  | supports c => "@supports " ++ c
  | container n q => "@container" ++ around " " id "" n ++ around " " id "" q
  | page [] => "@page"
  | page l => "@page " ++ PageSelector.listText l
  | margin i => "@" ++ (margin i).marginName
  | keyframes n => "@keyframes " ++ Name.keyframesText n
  | keyframe k => k.text
  | fontFace => "@font-face"
  | fontFeatureValues fs => "@font-feature-values " ++ FamilyName.listText fs
  | featureBlock m => "@" ++ m.feature.name
  | fontPaletteValues n => namedHead "font-palette-values" n
  | counterStyle n => namedHead "counter-style" n
  | property n => namedHead "property" n
  | positionTry n => namedHead "position-try" n
  | scope start stop =>
    "@scope" ++ around " (" Selector.listText ")" start ++ around " to (" Selector.listText ")" stop
  | startingStyle => "@starting-style"
  | colorProfile n => namedHead "color-profile" n
  | viewTransition => "@view-transition"

/-- Whether the rule ends in a semicolon. -/
def isStatement : RuleHead → Bool
  | importRule _ | namespaceRule _ _ | layerStatement _ => true
  | _ => false

end RuleHead

namespace Rule

/-- The declarations in front of the children, unless there are none. -/
def declarationText (r : Rule) : List String :=
  match r.declarations with
  | some b => if b.entries.isEmpty then [] else [b.text]
  | none => []

/-- Parts in braces. -/
def blockText (parts : List String) : String :=
  if parts.isEmpty then " \x7b\x7d" else " \x7b " ++ Text.joined " " parts ++ " \x7d"

/-- A rule with the texts of its children. -/
def textWith (r : Rule) (children : List String) : String :=
  match r.head with
  | .featureBlock m => m.text
  | head =>
    if head.isStatement then head.text ++ ";"
    else head.text ++ blockText (r.declarationText ++ children)

mutual

/-- A rule and all below it as text. -/
def text : Tree Rule → String
  | .node r ts => r.textWith (texts ts)

def texts : List (Tree Rule) → List String
  | [] => []
  | t :: ts => text t :: texts ts

end

/-- Rules as text, one a line. -/
def listText (ts : List (Tree Rule)) : String := Text.joined "\n" (texts ts)

end Rule

end StyleTree
