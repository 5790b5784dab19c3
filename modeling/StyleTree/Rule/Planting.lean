/-
# `Rule.Planting` — drafts take their place in an arena

Planting a draft adds a node for the rule and then, one after the other,
plants its children and links them.  A child goes behind its siblings,
with three exceptions: the rule for the declarations of a scope goes in
front; margin boxes and blocks of feature values keep their fixed order;
and a second block of one kind of feature values is merged into the first.
-/
import StyleTree.Rule.Draft
import StyleTree.Arena.Subtree

namespace StyleTree.Arena

/-- The place of a rule among siblings that keep a fixed order. -/
def rank? (a : Arena Rule) (id : RuleId) : Option Nat := (a.value? id).bind (·.head.rank?)

/-- The place that a rule takes among the children of a parent if it has to keep a fixed order:
behind all rules of its rank. -/
def canonicalIndex? (a : Arena Rule) (parent child : RuleId) : Option Nat :=
  (a.rank? child).map fun r => (a.children parent).findIdx (fun s => (a.rank? s).any (r < ·))

/-- The values of a block of feature values. -/
def features? (a : Arena Rule) (id : RuleId) : Option FeatureValues :=
  (a.value? id).bind (·.head.features?)

/-- The block of one kind of feature values among the children of a rule. -/
def featureBlock? (a : Arena Rule) (parent : RuleId) (f : FeatureType) : Option RuleId :=
  (a.children parent).find? (fun c => (a.features? c).any (·.feature = f))

/-- The arena with other values in a block of feature values. -/
def setFeatures (a : Arena Rule) (id : RuleId) (m : FeatureValues) : Arena Rule :=
  a.modify id (fun n => { n with value := { n.value with head := .featureBlock m } })

/-- Links a rule to a parent behind its siblings, or where the fixed order puts it. -/
def attachInOrder (a : Arena Rule) (parent child : RuleId) : Arena Rule :=
  a.attach parent ((a.canonicalIndex? parent child).getD (a.children parent).length) child

/-- Links a planted rule to its parent, or merges it into a block of the same feature values. -/
def settle (a : Arena Rule) (first : Bool) (parent child : RuleId) : Arena Rule :=
  if first then a.attach parent 0 child
  else
    match a.features? child with
    | none => a.attachInOrder parent child
    | some m =>
      match a.featureBlock? parent m.feature with
      | none => a.attachInOrder parent child
      | some b =>
        match a.features? b with
        | some old => (a.removeSubtree child).setFeatures b (old.merge m)
        | none => a

mutual

/-- Adds a rule and all below it; the rule has no parent. -/
def plant (a : Arena Rule) : Draft → Arena Rule × RuleId
  | .rule _ r children =>
    let (a, id) := a.insert r
    (plantUnder a id children, id)

/-- Adds rules and all below them as children of a rule. -/
def plantUnder (a : Arena Rule) (parent : RuleId) : List Draft → Arena Rule
  | [] => a
  | .rule first r children :: ds =>
    let (a, child) := plant a (.rule first r children)
    plantUnder (a.settle first parent child) parent ds

end

/-- Adds rules without a parent and gives their ids. -/
def plantAll (a : Arena Rule) : List Draft → Arena Rule × List RuleId
  | [] => (a, [])
  | d :: ds =>
    let (a, id) := a.plant d
    let (a, ids) := plantAll a ds
    (a, id :: ids)

end StyleTree.Arena
