/-
# `Proofs.Rule.Interleaving` — a block built item by item

A rule is read with all declarations of its block at once, and its children
beside them.  It can as well be built by a machine that takes the items of
the block one at a time, in the order in which they stand (`OpenBlock`):

    declaration, in a scope             to the rule for declarations, which
                                        is made in front of all children
                                        when the first declaration comes
    declaration, elsewhere              to the rule itself
    statement that is a rule            settles among the children
    statement that is none              nothing

What the machine has built after some items depends on the declarations
among them and on the rules among them, each in their order, and on nothing
else (`foldl_add`).  The step that shows it is `add_built`; what carries it
is that the rule for declarations has no place in any fixed order, so that
the children settle behind it as they would without it.
-/
import StyleTree.Proofs.Rule.Declarations
import StyleTree.Proofs.Sheet.Appending
import Mathlib.Data.List.Induction

namespace StyleTree

variable {o : ReadOptions} {ns : Namespaces} {c : RuleContext} {r : Rule}
variable {d : WrittenDeclaration} {ds : List WrittenDeclaration}

/-! ## The machine -/

/-- A block that is being built. -/
structure OpenBlock where
  rule : Rule
  /-- Whether the first child is the rule that was made for declarations. -/
  placed : Bool
  children : List (Tree Rule)

namespace OpenBlock

open Draft (child? childTree? scopeTrees settle settleAll)

/-- The rule with nothing in its block. -/
def start (r : Rule) : OpenBlock := ⟨r, false, []⟩

/-- The rule with the children it has when the block ends. -/
def close (b : OpenBlock) : Tree Rule := .node b.rule b.children

/-- The children with one more declaration in the first of them. -/
def declareFirst (o : ReadOptions) (d : WrittenDeclaration) : List (Tree Rule) → List (Tree Rule)
  | [] => []
  | .node r us :: ts => .node (r.withDeclarations o [d]) us :: ts

/-- The block with one more declaration. -/
def declare (o : ReadOptions) (b : OpenBlock) (d : WrittenDeclaration) : OpenBlock :=
  if b.rule.blockContext = .scope then
    if b.placed then { b with children := declareFirst o d b.children }
    else { b with placed := true, children := .node (Rule.ofScope o [d]) [] :: b.children }
  else { b with rule := b.rule.withDeclarations o [d] }

/-- The block with one more item. -/
def add (o : ReadOptions) (ns : Namespaces) (b : OpenBlock) : Item → OpenBlock
  | .declaration d => b.declare o d
  | .rule st =>
    match child? o ns b.rule.blockContext (.rule st) with
    | some d => { b with children := settle false d.tree b.children }
    | none => b

/-- What the declarations and the children of a block make, if they are told apart. -/
def built (o : ReadOptions) (r : Rule) (ds : List WrittenDeclaration) (children : List (Tree Rule)) : OpenBlock where
  rule := r.withDeclarations o ds
  placed := r.blockContext = .scope ∧ ds ≠ []
  children := scopeTrees o r.blockContext ds ++ settleAll [] children

theorem built_nil (o : ReadOptions) (r : Rule) (children : List (Tree Rule)) :
    built o r [] children = ⟨r, false, settleAll [] children⟩ := by
  have hnone : scopeTrees o r.blockContext [] = [] := if_neg fun h => h.2 rfl
  rw [built, Rule.withDeclarations_nil, hnone, decide_eq_false fun h => h.2 rfl, List.nil_append]

theorem built_scope (o : ReadOptions) (children : List (Tree Rule)) (hscope : r.blockContext = .scope)
    (hds : ds ≠ []) :
    built o r ds children = ⟨r, true, .node (Rule.ofScope o ds) [] :: settleAll [] children⟩ := by
  have hone : scopeTrees o r.blockContext ds = [.node (Rule.ofScope o ds) []] := if_pos ⟨hscope, hds⟩
  rw [built, Rule.withDeclarations_scope o ds hscope, hone, decide_eq_true ⟨hscope, hds⟩, List.singleton_append]

theorem built_of_ne (o : ReadOptions) (ds : List WrittenDeclaration) (children : List (Tree Rule))
    (hscope : r.blockContext ≠ .scope) :
    built o r ds children = ⟨r.withDeclarations o ds, false, settleAll [] children⟩ := by
  have hnone : scopeTrees o r.blockContext ds = [] := if_neg fun h => hscope h.1
  rw [built, hnone, decide_eq_false fun h => hscope h.1, List.nil_append]

/-- One declaration more, after whatever was built. -/
theorem declare_built (o : ReadOptions) (r : Rule) (ds : List WrittenDeclaration) (children : List (Tree Rule))
    (d : WrittenDeclaration) : (built o r ds children).declare o d = built o r (ds ++ [d]) children := by
  have hmore : ds ++ [d] ≠ [] := List.append_ne_nil_of_right_ne_nil _ (List.cons_ne_nil _ _)
  by_cases hscope : r.blockContext = .scope
  · rw [built_scope o children hscope hmore]
    by_cases hds : ds = []
    · rw [hds, built_nil, declare, if_pos hscope]
      rfl
    · rw [built_scope o children hscope hds, declare, if_pos hscope, Rule.ofScope_append]
      rfl
  · have hblock := Rule.blockContext_withDeclarations o r ds
    rw [built_of_ne o _ children hscope, built_of_ne o _ children hscope, declare,
      if_neg (hblock.trans_ne hscope), Rule.withDeclarations_append]

/-- The children settle behind the rule for declarations as they would without it. -/
theorem settle_scopeTrees (o : ReadOptions) (c : RuleContext) (ds : List WrittenDeclaration) (t : Tree Rule)
    (ts : List (Tree Rule)) :
    settle false t (scopeTrees o c ds ++ ts) = scopeTrees o c ds ++ settle false t ts := by
  unfold scopeTrees
  split
  · exact Draft.settle_cons rfl rfl t ts
  · rfl

theorem settleAll_concat (ts cs : List (Tree Rule)) (t : Tree Rule) :
    settleAll ts (cs ++ [t]) = settle false t (settleAll ts cs) :=
  List.foldl_concat _ _ _ _

/-- One item more, after whatever was built. -/
theorem add_built (o : ReadOptions) (ns : Namespaces) (r : Rule) (ds : List WrittenDeclaration)
    (children : List (Tree Rule)) (item : Item) :
    (built o r ds children).add o ns item =
      built o r (ds ++ item.declaration?.toList) (children ++ (childTree? o ns r.blockContext item).toList) := by
  have hblock : (built o r ds children).rule.blockContext = r.blockContext :=
    Rule.blockContext_withDeclarations o r ds
  cases item with
  | declaration d =>
      rw [add, declare_built]
      simp only [Item.declaration?, childTree?, child?, Option.map_none, Option.toList_some, Option.toList_none,
        List.append_nil]
  | rule st =>
      rw [add, hblock, childTree?]
      cases child? o ns r.blockContext (.rule st) with
      | none =>
          simp only [Item.declaration?, Option.map_none, Option.toList_none, List.append_nil]
      | some t =>
          simp only [Item.declaration?, Option.map_some, Option.toList_none, List.append_nil, Option.toList_some, built,
            settleAll_concat, settle_scopeTrees]

theorem filterMap_concat {α β : Type} (f : α → Option β) (l : List α) (x : α) :
    (l ++ [x]).filterMap f = l.filterMap f ++ (f x).toList := by
  rw [List.filterMap_append]
  cases hx : f x <;> simp [hx]

/-- A block is built from its declarations and its rules, however they are mixed. -/
theorem foldl_add (o : ReadOptions) (ns : Namespaces) (r : Rule) (items : List Item) :
    items.foldl (add o ns) (start r) =
      built o r (items.filterMap Item.declaration?) (items.filterMap (childTree? o ns r.blockContext)) := by
  induction items using List.reverseRecOn with
  | nil =>
      exact (built_nil o r []).symm
  | append_singleton items item ih =>
      rw [List.foldl_append, ih, List.foldl_cons, List.foldl_nil, add_built, filterMap_concat, filterMap_concat]

/-- The machine builds what is read. -/
theorem close_foldl_add (o : ReadOptions) (ns : Namespaces) (r : Rule) (items : List Item) :
    (items.foldl (add o ns) (start r)).close = (Draft.ofItems o ns r items).tree := by
  rw [foldl_add, Draft.tree_ofItems_settled]
  rfl

end OpenBlock

/-! ## Items in another order -/

namespace Arena

/-- What comes of planting a draft: the rule and all below it, without ids. -/
def planted? (a : Arena Rule) (d : Draft) : Option (Tree Rule) :=
  ((a.plant d).1.tree? (a.plant d).2).map Tree.bare

theorem planted?_eq {a : Arena Rule} {us : List (Tree (RuleId × Rule))} (h : Forest a us) (d : Draft) :
    a.planted? d = some d.tree := by
  obtain ⟨t, hroot, hbare, hf⟩ := forest_plant d h
  rw [planted?, ← hroot, hf.tree?_eq List.mem_cons_self, Option.map_some, hbare]

end Arena

namespace Draft

open OpenBlock (add start close_foldl_add)
open StyleTree.Arena (Forest)

/-- The rules among some items are those of the statements among them. -/
theorem children_eq (o : ReadOptions) (ns : Namespaces) (c : RuleContext) (items : List Item) :
    items.filterMap (child? o ns c) =
      (items.filterMap Item.statement?).filterMap fun st => child? o ns c (.rule st) := by
  rw [List.filterMap_filterMap]
  refine List.filterMap_congr fun item _ => ?_
  cases item <;> rfl

/-- Two runs of items with the same declarations and the same statements, however they are mixed, build the
same rule: the same declarations, the same children in the same order, the same text.  It does not matter
where they are planted, and whether the machine builds them item by item or they are read as the contents of
statements.  In a scope the rule for declarations is the first child. -/
theorem interleaving_leaves_no_trace (o : ReadOptions) (ns : Namespaces) (r : Rule) (items items' : List Item)
    (hds : items'.filterMap Item.declaration? = items.filterMap Item.declaration?)
    (hsts : items'.filterMap Item.statement? = items.filterMap Item.statement?)
    {a a' : Arena Rule} {us us' : List (Tree (RuleId × Rule))} (ha : Forest a us) (ha' : Forest a' us') :
    ∃ t : Tree Rule,
      (a.planted? (ofItems o ns r items) = some t ∧ a'.planted? (ofItems o ns r items') = some t) ∧
      (a.planted? (ofItems o ns r items)).map Rule.text =
        (a'.planted? (ofItems o ns r items')).map Rule.text ∧
      ((items.foldl (add o ns) (start r)).close = t ∧ (items'.foldl (add o ns) (start r)).close = t) ∧
      (∀ head c st st' vs vs', r = Rule.fresh head c → st.block = some vs → st'.block = some vs' →
        Statement.split r.blockContext.contentForm vs = items →
        Statement.split r.blockContext.contentForm vs' = items' →
          a.planted? (ofStatement o ns c head st) = some t ∧
            a'.planted? (ofStatement o ns c head st') = some t) ∧
      (r.blockContext = .scope → items.filterMap Item.declaration? ≠ [] →
        t.children.head? = some (.node (Rule.ofScope o (items.filterMap Item.declaration?)) [])) := by
  have hchildren : items'.filterMap (child? o ns r.blockContext) = items.filterMap (child? o ns r.blockContext) := by
    rw [children_eq, hsts, ← children_eq]
  have htree : (ofItems o ns r items').tree = (ofItems o ns r items).tree := by
    rw [tree_ofItems, tree_ofItems, hds, hchildren]
  have hfirst := Arena.planted?_eq ha (ofItems o ns r items)
  have hsecond := Arena.planted?_eq ha' (ofItems o ns r items')
  rw [htree] at hsecond
  refine ⟨(ofItems o ns r items).tree, ⟨hfirst, hsecond⟩, by rw [hfirst, hsecond], ⟨?_, ?_⟩, ?_, ?_⟩
  · exact close_foldl_add o ns r items
  · rw [close_foldl_add, htree]
  · rintro head c st st' vs vs' rfl hst hst' rfl rfl
    rw [ofStatement_eq hst, ofStatement_eq hst']
    exact ⟨hfirst, hsecond⟩
  · intro hscope hne
    rw [tree_ofItems, scopeTrees, if_pos ⟨hscope, hne⟩]
    rfl

/-- The declarations of a scope behind its rules and in front of them. -/
theorem interleaving_leaves_no_trace_scope :
    let color : Item := .declaration ⟨"color", [.token (.ident "red")], false⟩
    let display : Item := .declaration ⟨"display", [.token (.ident "block")], false⟩
    let nested : Item := .rule ⟨none, [.token (.delim '&')], some []⟩
    let starting : Item := .rule ⟨some "starting-style", [], some []⟩
    let r := Rule.fresh (.scope none none) .stylesheet
    let text := "@scope \x7b :scope \x7b color: red; display: block; \x7d & \x7b\x7d @starting-style \x7b\x7d \x7d"
    ∃ t, Arena.empty.planted? (ofItems ⟨.basic, false⟩ .empty r [nested, color, starting, display]) = some t ∧
      Arena.empty.planted? (ofItems ⟨.basic, false⟩ .empty r [color, display, nested, starting]) = some t ∧
      Rule.text t = text := by
  intro color display nested starting r text
  obtain ⟨t, ⟨ht, ht'⟩, -⟩ := interleaving_leaves_no_trace ⟨.basic, false⟩ .empty r
    [nested, color, starting, display] [color, display, nested, starting] rfl rfl
    Arena.forest_empty Arena.forest_empty
  refine ⟨t, ht, ht', ?_⟩
  have htext : (Arena.empty.planted? (ofItems ⟨.basic, false⟩ .empty r [nested, color, starting, display])).map
      Rule.text = some text := by
    decide +kernel
  rw [ht] at htext
  exact Option.some.inj htext

end Draft

end StyleTree
