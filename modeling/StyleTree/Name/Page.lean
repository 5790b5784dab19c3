/-
# `Name.Page` — selectors of pages, and the boxes in their margins

A page selector is a name, pseudo-classes of pages, or a name with
pseudo-classes behind it, without blanks.  The margin boxes have a fixed
order, clockwise by side; a box is known by its place in it.
-/
import StyleTree.Text.Keyword
import StyleTree.ComponentValue.Text

namespace StyleTree

open ComponentValue

structure PageSelector where
  name : Option String
  pseudoClasses : List String
  deriving DecidableEq, Inhabited

namespace PageSelector

/-- The pseudo-classes of pages. -/
def knownClasses : List String := ["left", "right", "first", "blank"]

def text (s : PageSelector) : String :=
  (match s.name with
    | some n => Text.identifier n
    | none => "") ++ Text.joined "" (s.pseudoClasses.map (":" ++ ·))

/-- Pseudo-classes of pages, each behind a colon, up to the end of the run. -/
def classesOf : List ComponentValue → Option (List String)
  | [] => some []
  | .token .colon :: .token (.ident n) :: vs =>
    let n := Text.foldCase n
    if n ∈ knownClasses then (classesOf vs).map (n :: ·) else none
  | _ => none

/-- A trimmed run that holds one page selector. -/
def ofValues? (vs : List ComponentValue) : Option PageSelector :=
  match vs with
  | [] => none
  | .token (.ident n) :: rest => (classesOf rest).map (⟨some n, ·⟩)
  | _ => (classesOf vs).map (⟨none, ·⟩)

/-- A run of page selectors between commas; an empty run selects every page. -/
def listOfValues? (vs : List ComponentValue) : Option (List PageSelector) :=
  if vs.all isBlank then some [] else (commaParts vs).mapM ofValues?

def listText (list : List PageSelector) : String := Text.joined ", " (list.map text)

end PageSelector

namespace MarginBox

/-- The margin boxes in their order. -/
def names : List String :=
  ["top-left-corner", "top-left", "top-center", "top-right", "top-right-corner",
   "bottom-left-corner", "bottom-left", "bottom-center", "bottom-right", "bottom-right-corner",
   "left-top", "left-middle", "left-bottom", "right-top", "right-middle", "right-bottom"]

/-- The place of a margin box in the order. -/
def index? (name : String) : Option Nat := names.findIdx? (Text.sameWord name)

/-- The margin box at a place of the order. -/
def name? (index : Nat) : Option String := names[index]?

end MarginBox

end StyleTree
