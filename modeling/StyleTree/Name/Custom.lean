/-
# `Name.Custom` — names that authors choose

A custom identifier is any identifier but the keywords that every property
understands and `default`.  A dashed identifier starts with two dashes and
has something behind them.
-/
import StyleTree.Text.Keyword
import StyleTree.Text.Quoted

namespace StyleTree.Name

/-- The keywords that every property understands. -/
def wideKeywords : List String := ["initial", "inherit", "unset", "revert", "revert-layer"]

def isCustom (s : String) : Bool := !s.isEmpty && !Text.isAmong (wideKeywords ++ ["default"]) s

def isDashed (s : String) : Bool :=
  match s.toList with
  | '-' :: '-' :: _ :: _ => true
  | _ => false

/-- Counter styles that cannot be defined anew. -/
def predefinedCounters : List String :=
  ["none", "decimal", "disc", "square", "circle", "disclosure-open", "disclosure-closed"]

/-- Names that a counter style may be given. -/
def isCounterStyle (s : String) : Bool := isCustom s && !Text.isAmong predefinedCounters s

/-- Names of keyframes that may be written as an identifier. -/
def isKeyframes (s : String) : Bool := isCustom s && !Text.sameWord s "none"

/-- The name of keyframes as text: an identifier where that reads back, else a string. -/
def keyframesText (s : String) : String := if isKeyframes s then Text.identifier s else Text.quoted s

end StyleTree.Name
