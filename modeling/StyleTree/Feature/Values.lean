/-
# `Feature.Values` — named lists of feature values

A block of feature values gives each of its names a list of numbers that
keeps the contract of the block's kind.  The names are kept in the order
of their code points.
-/
import StyleTree.Feature.Type
import StyleTree.SortedMap
import StyleTree.Statement
import StyleTree.Fault

namespace StyleTree

/-- The values of one kind of font feature. -/
structure FeatureValues where
  feature : FeatureType
  entries : List (String × List Nat)
  deriving DecidableEq, Inhabited

namespace FeatureValues

def empty (f : FeatureType) : FeatureValues := ⟨f, []⟩

def size (m : FeatureValues) : Nat := m.entries.length

def get? (m : FeatureValues) (name : String) : Option (List Nat) := SortedMap.find? name m.entries

/-- The map with values under a name, whatever the contract says. -/
def put (m : FeatureValues) (name : String) (values : List Nat) : FeatureValues :=
  { m with entries := SortedMap.insert (· < ·) name values m.entries }

/-- The map with values under a name, if they keep the contract. -/
def set (m : FeatureValues) (name : String) (values : List Nat) : Except Fault FeatureValues :=
  if m.feature.accepts values then .ok (m.put name values) else .error (.invalidFeatureValue name)

def erase (m : FeatureValues) (name : String) : FeatureValues :=
  { m with entries := SortedMap.erase name m.entries }

/-- The map with the entries of another; those win. -/
def merge (m other : FeatureValues) : FeatureValues :=
  other.entries.foldl (fun m e => m.put e.1 e.2) m

/-- A natural number written without a sign. -/
def value? : ComponentValue → Option Nat
  | .token (.number ⟨_, some i, false⟩) => if 0 ≤ i then some i.toNat else none
  | _ => none

/-- The numbers of a run with blanks between them. -/
def ofValues? (vs : List ComponentValue) : Option (List Nat) :=
  (ComponentValue.withoutBlanks vs).mapM value?

/-- The map with a declaration, if that is valid here. -/
def declare? (m : FeatureValues) (d : WrittenDeclaration) : Option FeatureValues :=
  if d.important then none
  else (ofValues? d.value).bind (fun vs => (m.set d.name vs).toOption)

/-- One entry as text. -/
def entryText (e : String × List Nat) : String :=
  " " ++ Text.identifier e.1 ++ ":" ++
    Text.joined "" (e.2.map fun v => " " ++ String.ofList (Number.numeral v)) ++ ";"

def text (m : FeatureValues) : String :=
  "@" ++ m.feature.name ++ " \x7b" ++ Text.joined "" (m.entries.map entryText) ++
    (if m.entries.isEmpty then "\x7d" else " \x7d")

end FeatureValues

end StyleTree
