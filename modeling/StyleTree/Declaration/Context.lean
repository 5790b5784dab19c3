/-
# `Declaration.Context` — where declarations stand

Each kind of rule with declarations has a context that says which names it
knows and whether importance and custom properties are admitted.  Names
are kept in lower case, but for custom properties, whose case matters.
-/
import StyleTree.Rule.Kind

namespace StyleTree

inductive DeclarationContext where
  | style
  | keyframe
  | page
  | margin
  | fontFace
  | fontFeatureValues
  | fontPaletteValues
  | counterStyle
  | property
  | positionTry
  | colorProfile
  | viewTransition
  deriving DecidableEq, Inhabited

namespace DeclarationContext

/-- The context of the declarations in a rule; grouping rules pass on the one of style rules. -/
def ofKind? : RuleKind → Option DeclarationContext
  | .style | .scope => some style
  | .keyframe => some keyframe
  | .page => some page
  | .margin => some margin
  | .fontFace => some fontFace
  | .fontFeatureValues => some fontFeatureValues
  | .fontPaletteValues => some fontPaletteValues
  | .counterStyle => some counterStyle
  | .property => some property
  | .positionTry => some positionTry
  | .colorProfile => some colorProfile
  | .viewTransition => some viewTransition
  | k => if k.isGroup then some style else none

/-- Contexts that hold properties, the others holding descriptors. -/
def holdsProperties : DeclarationContext → Bool
  | style | keyframe | page | margin | positionTry => true
  | _ => false

def admitsImportance : DeclarationContext → Bool
  | style | page | margin => true
  | _ => false

def admitsCustomProperties : DeclarationContext → Bool
  | style | keyframe | page | margin => true
  | _ => false

end DeclarationContext

/-- Names of custom properties. -/
def isCustomProperty (name : String) : Bool := Text.beginsWith "--" name

/-- The name under which a declaration is kept. -/
def canonicalName (name : String) : String :=
  if isCustomProperty name then name else Text.foldCase name

end StyleTree
