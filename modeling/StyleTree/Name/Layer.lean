/-
# `Name.Layer` — names of cascade layers

A layer name is a path of custom identifiers with points between them and
no blanks.
-/
import StyleTree.Name.Custom
import StyleTree.Cursor

namespace StyleTree

open ComponentValue

/-- A path of custom identifiers. -/
structure LayerName where
  segments : List String
  deriving DecidableEq, Inhabited

namespace LayerName

def text (n : LayerName) : String := Text.joined "." (n.segments.map Text.identifier)

/-- A custom identifier. -/
def segment? (v : ComponentValue) : Option String :=
  match v with
  | .token (.ident n) => if Name.isCustom n then some n else none
  | _ => none

/-- The segments behind the first, each behind a point. -/
def moreSegments : List ComponentValue → Option (List String × List ComponentValue)
  | .token (.delim '.') :: v :: vs =>
    match segment? v with
    | some s => (moreSegments vs).map (fun r => (s :: r.1, r.2))
    | none => none
  | .token (.delim '.') :: [] => none
  | vs => some ([], vs)

/-- The layer name at the front of a run. -/
def production : Production LayerName := do
  let s ← Production.taken segment?
  let more ← moreSegments
  pure ⟨s :: more⟩

/-- A run that holds one layer name. -/
def ofValues? (vs : List ComponentValue) : Option LayerName := production.whole vs

end LayerName

end StyleTree
