/-
# `Name.Family` — names of font families

A family is named by a string or by identifiers.  A single identifier has
to be a custom one; several may be any.
-/
import StyleTree.Name.Custom
import StyleTree.ComponentValue.Text

namespace StyleTree

open ComponentValue

inductive FamilyName where
  | quoted (name : String)
  | words (idents : List String)
  deriving DecidableEq, Inhabited

namespace FamilyName

def text : FamilyName → String
  | .quoted n => Text.quoted n
  | .words ws => Text.joined " " (ws.map Text.identifier)

/-- The identifiers of an unquoted name. -/
def ofWords : List String → Option FamilyName
  | [] => none
  | [w] => if Name.isCustom w then some (.words [w]) else none
  | ws => some (.words ws)

/-- A trimmed run that holds one family name. -/
def ofValues? (vs : List ComponentValue) : Option FamilyName :=
  match vs with
  | [.token (.string n)] => some (.quoted n)
  | _ => ((withoutBlanks vs).mapM ident?).bind ofWords

/-- A run of family names between commas. -/
def listOfValues? (vs : List ComponentValue) : Option (List FamilyName) :=
  (commaParts vs).mapM ofValues?

def listText (fs : List FamilyName) : String := Text.joined ", " (fs.map text)

end FamilyName

end StyleTree
