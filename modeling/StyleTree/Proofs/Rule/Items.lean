/-
# `Proofs.Rule.Items` — a rule with the items of its block

A block is split into items before any of them is read, and what becomes of
the rule depends on the items alone.  `Draft.ofItems` says how, item by
item, and `ofStatement_eq` that statements are read in this way, however
deep they stand.  So two runs of reading can be compared by their items.
-/
import StyleTree.Proofs.Rule.Growth

namespace StyleTree

variable {o : ReadOptions} {ns : Namespaces} {c : RuleContext} {head : RuleHead} {st : Statement}

namespace Draft

/-- What an item is in a block; none if it is no rule there. -/
def part? (o : ReadOptions) (ns : Namespaces) (c : RuleContext) : Item → Option Part
  | .declaration _ => some .declaration
  | .rule st =>
    match st.read c ns with
    | .ok head => some (.child (ofStatement o ns c head st))
    | .error _ => none

/-- A rule with the items of its block. -/
def ofItems (o : ReadOptions) (ns : Namespaces) (r : Rule) (items : List Item) : Draft :=
  let ds := items.filterMap Item.declaration?
  rule false (r.withDeclarations o ds)
    (childrenOf (scopeDraft o r.blockContext ds) (items.filterMap (part? o ns r.blockContext)))

theorem ofStatement_eq {vs : List ComponentValue} (h : st.block = some vs) :
    ofStatement o ns c head st =
      ofItems o ns (Rule.fresh head c)
        (Statement.split (Rule.fresh head c).blockContext.contentForm vs) := by
  rw [ofStatement]
  split
  · next hs => cases h.symm.trans hs
  · next vs' hs =>
      cases h.symm.trans hs
      refine congrArg (fun ps => rule false _ (childrenOf _ ps)) ?_
      rw [List.filterMap_subtype (g := part? o ns (Rule.fresh head c).blockContext), List.unattach_attach]
      intro item _
      cases item <;> rfl

theorem ofItems_congr {r : Rule} {items items' : List Item}
    (hds : items'.filterMap Item.declaration? = items.filterMap Item.declaration?)
    (hparts : items'.filterMap (part? o ns r.blockContext) = items.filterMap (part? o ns r.blockContext)) :
    ofItems o ns r items' = ofItems o ns r items := by
  rw [ofItems, ofItems, hds, hparts]

end Draft

end StyleTree
