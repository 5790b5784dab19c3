/-
# `Feature.Type` — the kinds of font features

Each kind of font feature has a name, a place in a fixed order, and a
contract on the lists of values it takes.
-/
import StyleTree.Text.Keyword

namespace StyleTree

inductive FeatureType where
  | annotate
  | characterVariant
  | ornaments
  | styleset
  | stylistic
  | swash
  deriving DecidableEq, Inhabited

namespace FeatureType

/-- The kinds in their order. -/
def all : List FeatureType :=
  [.annotate, .characterVariant, .ornaments, .styleset, .stylistic, .swash]

def name : FeatureType → String
  | .annotate => "annotation"
  | .characterVariant => "character-variant"
  | .ornaments => "ornaments"
  | .styleset => "styleset"
  | .stylistic => "stylistic"
  | .swash => "swash"

/-- The place in the order. -/
def rank : FeatureType → Nat
  | .annotate => 0
  | .characterVariant => 1
  | .ornaments => 2
  | .styleset => 3
  | .stylistic => 4
  | .swash => 5

def ofName? (s : String) : Option FeatureType := all.find? (fun f => Text.sameWord f.name s)

/-- A style set takes one or more values up to 20, a character variant two values up to 99, and any
other kind one value up to 99. -/
def accepts : FeatureType → List Nat → Bool
  | .characterVariant, vs => vs.length == 2 && vs.all (· ≤ 99)
  | .styleset, vs => !vs.isEmpty && vs.all (· ≤ 20)
  | _, vs => vs.length == 1 && vs.all (· ≤ 99)

end FeatureType

end StyleTree
