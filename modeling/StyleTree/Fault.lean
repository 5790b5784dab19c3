/-
# `Fault` — why an edit was refused

Reading a style sheet drops what it cannot use; only an edit can fail.
`Fault` has one constructor per cause, and `Fault.message` is the wording.
-/
import StyleTree.Number.Decimal

namespace StyleTree

/-- The causes for which an edit is refused. -/
inductive Fault where
  /-- The rules of the sheet may be neither read nor changed. -/
  | accessDenied
  /-- A replacement is under way, or the sheet cannot be replaced. -/
  | locked
  | missingRule
  | extraRule
  | invalidSyntax
  | invalidIndex (index length : Nat)
  /-- The rule may not stand in this list, or not at this place. -/
  | invalidPosition
  /-- Namespace rules are fixed once the sheet holds ordinary rules. -/
  | namespacesFixed
  | importForbidden
  | invalidKey (text : String)
  | invalidFeatureValue (name : String)
  | invalidName (name : String)
  | invalidDeclaration (name : String)
  /-- The rule is not in the sheet, or is of another kind. -/
  | unknownRule
  deriving DecidableEq, Inhabited

namespace Fault

/-- The number of a position, in decimal. -/
def index (n : Nat) : String := String.ofList (Number.numeral n)

def message : Fault → String
  | accessDenied => "Access to the rules of a non-origin-clean stylesheet is denied"
  | locked => "The stylesheet is locked"
  | missingRule => "No rule found in the given text"
  | extraRule => "Unexpected content after the rule"
  | invalidSyntax => "Invalid rule syntax"
  | invalidIndex i length =>
    "Index " ++ index i ++ " is out of bounds for a rule list of length " ++ index length
  | invalidPosition => "The rule is not permitted at this position"
  | namespacesFixed =>
    "Namespace rules cannot be changed once the stylesheet contains other rules"
  | importForbidden => "Import rules cannot be inserted into a constructed stylesheet"
  | invalidKey text => "Invalid keyframe selector '" ++ text ++ "'"
  | invalidFeatureValue name => "Invalid values for feature '" ++ name ++ "'"
  | invalidName name => "Invalid rule name '" ++ name ++ "'"
  | invalidDeclaration name => "Invalid declaration for '" ++ name ++ "'"
  | unknownRule => "The rule is not attached to this stylesheet or has the wrong kind"

end Fault

end StyleTree
