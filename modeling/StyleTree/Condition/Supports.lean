/-
# `Condition.Supports` — conditions on what is supported

Parentheses hold a condition or a declaration.  In the clause of an import
a declaration may stand without them.
-/
import StyleTree.Condition.Basic
import StyleTree.Statement

namespace StyleTree.Condition

open ComponentValue

/-- The name of a declaration in lower case, unless the author chose it. -/
def declaredName (n : String) : String := if Text.beginsWith "--" n then n else Text.foldCase n

/-- A declaration as text. -/
def declaration (vs : List ComponentValue) : Option String :=
  (WrittenDeclaration.ofValues? (trim vs)).map fun d =>
    declaredName d.name ++ ": " ++ textOf d.value ++ (if d.important then " !important" else "")

/-- What conditions on support understand. -/
def supports : Vocabulary :=
  ⟨fun vs => (declaration vs).map (fun t => "(" ++ t ++ ")"), fun _ _ => none⟩

/-- The text of a condition on support; `bare` allows a declaration without parentheses. -/
def supports? (bare : Bool) (vs : List ComponentValue) : Option String :=
  match ofValues? supports true vs with
  | some t => some t
  | none => if bare then declaration vs else none

end StyleTree.Condition
