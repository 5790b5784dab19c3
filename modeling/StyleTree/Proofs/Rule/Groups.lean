/-
# `Proofs.Rule.Groups` — grouping rules with and without their declarations

Whether grouping rules under style rules keep their declarations is an
option of reading.  Two things are said of it.

What it does not touch: without these declarations
(`Rule.withoutGroupDeclarations`) the tree of a statement is the one that is
read with the option off (`tree_keeping`).  The option is asked at one place,
and children settle by what their heads say, so it cannot spread.

What it does: the groups of a tree, each before those below it, are those
that were written (`Statement.groups`), in the order in which they were
written, and each has the declarations that stand directly in its block
(`nestedGroups_ofStatement`).  Rules that have a fixed place among their
siblings, or are taken up by one of them, have no groups below them, so
settling keeps that order.
-/
import StyleTree.Proofs.Rule.Declarations

namespace StyleTree

open StyleTree.Tree (mapAll valuesOf)

variable {o : ReadOptions} {ns : Namespaces} {c : RuleContext} {r : Rule} {ds : List WrittenDeclaration}

/-! ## Groups under style rules -/

namespace Rule

/-- A grouping rule that stands under a style rule. -/
def isNestedGroup (r : Rule) : Bool := r.blockContext = .nestedGroup

/-- The rule, but if it is such a group, without declarations. -/
def withoutGroupDeclarations (r : Rule) : Rule := if r.isNestedGroup then { r with declarations := none } else r

theorem isNestedGroup_iff : r.isNestedGroup = true ↔ r.blockContext = .nestedGroup := decide_eq_true_iff

theorem head_withoutGroupDeclarations (r : Rule) : r.withoutGroupDeclarations.head = r.head := by
  unfold withoutGroupDeclarations
  split <;> rfl

theorem withoutGroupDeclarations_eq_self (h : r.isNestedGroup = false) : r.withoutGroupDeclarations = r := by
  rw [withoutGroupDeclarations, h, if_neg Bool.false_ne_true]

/-- A rule that has a fixed place among its siblings is no group. -/
theorem isNestedGroup_of_rank? (h : r.head.rank?.isSome = true) : r.isNestedGroup = false := by
  obtain ⟨head, declarations, context⟩ := r
  cases head with
  | margin _ | featureBlock _ => rfl
  | _ => cases h

end Rule

/-- The options with the declarations of such groups kept, or not. -/
def ReadOptions.keeping (o : ReadOptions) (keeps : Bool) : ReadOptions :=
  { o with keepsGroupDeclarations := keeps }

/-! ## The tree of a statement -/

/-- The items in the block of a statement; without a block there are none. -/
def Statement.items (st : Statement) (c : RuleContext) : List Item :=
  match st.block with
  | none => []
  | some vs => split c.contentForm vs

theorem Statement.sizeOf_of_mem_items {st t : Statement} (h : .rule t ∈ st.items c) :
    sizeOf t.block < sizeOf st.block := by
  unfold items at h
  split at h
  · cases h
  · next hb => exact sizeOf_block_lt hb h

namespace Draft

theorem ofStatement_eq_ofItems (o : ReadOptions) (ns : Namespaces) (c : RuleContext) (head : RuleHead)
    (st : Statement) :
    ofStatement o ns c head st =
      ofItems o ns (Rule.fresh head c) (st.items (Rule.fresh head c).blockContext) := by
  unfold Statement.items
  cases hb : st.block with
  | some vs => exact ofStatement_eq hb
  | none =>
      rw [ofStatement]
      split
      · rw [ofItems, List.filterMap_nil, Rule.withDeclarations_nil]
        rfl
      · next hb' => cases hb.symm.trans hb'

theorem tree_ofStatement (o : ReadOptions) (ns : Namespaces) (head : RuleHead) (st : Statement)
    (hr : r = Rule.fresh head c) :
    (ofStatement o ns c head st).tree =
      .node (r.withDeclarations o ((st.items r.blockContext).filterMap Item.declaration?))
        (scopeTrees o r.blockContext ((st.items r.blockContext).filterMap Item.declaration?) ++
          settleAll [] ((st.items r.blockContext).filterMap (childTree? o ns r.blockContext))) := by
  rw [ofStatement_eq_ofItems, ← hr, tree_ofItems_settled]

end Draft

/-! ## What the option does not touch -/

namespace Draft

/-- The function changes no head, and its result takes up feature values as its argument does. -/
structure KeepsHeads (f : Rule → Rule) : Prop where
  head : ∀ r, (f r).head = r.head
  merge : ∀ r m, r.head.features?.isSome = true →
    f { r with head := .featureBlock m } = { f r with head := .featureBlock m }

variable {f : Rule → Rule}

theorem KeepsHeads.slot (hf : KeepsHeads f) (r : Rule) (siblings : List Rule) :
    slot (f r) (siblings.map f) = slot r siblings := by
  unfold Draft.slot
  rw [hf.head]
  cases r.head.rank? with
  | none => exact List.length_map f
  | some n =>
      simp only [List.findIdx_map, Function.comp_def, hf.head]

theorem KeepsHeads.mergeInto? (hf : KeepsHeads f) (m : FeatureValues) : ∀ ts : List (Tree Rule),
    mergeInto? m (ts.map (Tree.map f)) = (mergeInto? m ts).map (List.map (Tree.map f))
  | [] => rfl
  | .node r us :: ts => by
      have ih := hf.mergeInto? m ts
      rw [List.map_cons, Tree.map, Draft.mergeInto?, Draft.mergeInto?, hf.head]
      have hlater : (Draft.mergeInto? m (ts.map (Tree.map f))).map (.node (f r) (mapAll f us) :: ·) =
          ((Draft.mergeInto? m ts).map (.node r us :: ·)).map (List.map (Tree.map f)) := by
        rw [ih, Option.map_map, Option.map_map]
        rfl
      cases hr : r.head.features? with
      | none => exact hlater
      | some old =>
          simp only
          split
          · have hmerge := hf.merge r (old.merge m) (by rw [hr]; rfl)
            rw [Option.map_some, List.map_cons, Tree.map, hmerge]
          · exact hlater

theorem KeepsHeads.settle (hf : KeepsHeads f) (first : Bool) (t : Tree Rule) (ts : List (Tree Rule)) :
    settle first (t.map f) (ts.map (Tree.map f)) = (settle first t ts).map (Tree.map f) := by
  have hvalues : (ts.map (Tree.map f)).map Tree.value = (ts.map Tree.value).map f := by
    rw [List.map_map, List.map_map]
    exact List.map_congr_left fun t _ => Tree.value_map f t
  unfold Draft.settle
  cases first with
  | true => rfl
  | false =>
      rw [if_neg Bool.false_ne_true, if_neg Bool.false_ne_true, Tree.value_map, hf.head, hvalues, hf.slot,
        ← List.map_insertIdx]
      cases t.value.head.features? with
      | none => rfl
      | some m =>
          simp only [Option.bind_some, hf.mergeInto?]
          cases Draft.mergeInto? m ts <;> rfl

theorem KeepsHeads.settleAll (hf : KeepsHeads f) (cs : List (Tree Rule)) : ∀ ts : List (Tree Rule),
    settleAll (ts.map (Tree.map f)) (cs.map (Tree.map f)) = (settleAll ts cs).map (Tree.map f) := by
  induction cs with
  | nil => exact fun ts => rfl
  | cons t cs ih =>
      intro ts
      have hstep := ih (Draft.settle false t ts)
      rw [← hf.settle] at hstep
      exact hstep

end Draft

namespace Rule

theorem keepsHeads_withoutGroupDeclarations : Draft.KeepsHeads withoutGroupDeclarations where
  head := head_withoutGroupDeclarations
  merge := by
    intro r m hr
    have hrank : r.head.rank?.isSome = true := by
      obtain ⟨old, hold⟩ := Option.isSome_iff_exists.mp hr
      rw [RuleHead.eq_of_features? hold]
      rfl
    rw [withoutGroupDeclarations_eq_self (isNestedGroup_of_rank? hrank), withoutGroupDeclarations_eq_self]
    exact isNestedGroup_of_rank? rfl

/-- A group without its declarations is one that never had any; other rules are read in the same way. -/
theorem withDeclarations_keeping (o : ReadOptions) (head : RuleHead) (c : RuleContext)
    (ds : List WrittenDeclaration) :
    ((fresh head c).withDeclarations o ds).withoutGroupDeclarations =
      (fresh head c).withDeclarations (o.keeping false) ds := by
  have hnone := declarations_of_nestedGroup head c
  generalize fresh head c = r at hnone
  have hblock := blockContext_withDeclarations o r ds
  by_cases hgroup : r.blockContext = .nestedGroup
  · rw [withoutGroupDeclarations, if_pos (isNestedGroup_iff.mpr (hblock.trans hgroup)),
      withDeclarations_nestedGroup _ _ hgroup, withDeclarations_nestedGroup _ _ hgroup]
    have hself : { r with declarations := none } = r := by rw [← hnone hgroup]
    split <;> exact hself
  · have hplain : (r.withDeclarations o ds).isNestedGroup = false :=
      decide_eq_false (hblock.trans_ne hgroup)
    rw [withoutGroupDeclarations_eq_self hplain]
    by_cases hscope : r.blockContext = .scope
    · rw [withDeclarations_scope _ _ hscope, withDeclarations_scope _ _ hscope]
    by_cases hfeatures : ∃ m, r.head = .featureBlock m
    · obtain ⟨m, hm⟩ := hfeatures
      rw [withDeclarations_featureBlock _ _ hm hscope hgroup, withDeclarations_featureBlock _ _ hm hscope hgroup]
    · have hm := not_exists.mp hfeatures
      rw [withDeclarations_own _ _ hm hscope hgroup, withDeclarations_own _ _ hm hscope hgroup]
      rfl

end Rule

namespace Draft

theorem scopeTrees_keeping (o : ReadOptions) (c : RuleContext) (ds : List WrittenDeclaration) :
    (scopeTrees o c ds).map (Tree.map Rule.withoutGroupDeclarations) = scopeTrees (o.keeping false) c ds := by
  unfold scopeTrees
  split <;> rfl

/-- Whether groups keep their declarations makes no difference to the tree of a statement but for these
declarations. -/
theorem tree_keeping (o : ReadOptions) (ns : Namespaces) (c : RuleContext) (head : RuleHead) (st : Statement) :
    (ofStatement o ns c head st).tree.map Rule.withoutGroupDeclarations =
      (ofStatement (o.keeping false) ns c head st).tree := by
  have hchildren : ∀ item ∈ st.items (Rule.fresh head c).blockContext,
      (childTree? o ns (Rule.fresh head c).blockContext item).map (Tree.map Rule.withoutGroupDeclarations) =
        childTree? (o.keeping false) ns (Rule.fresh head c).blockContext item := by
    intro item hitem
    cases item with
    | declaration d => rfl
    | rule t =>
        rw [childTree?, childTree?, child?, child?]
        cases t.read (Rule.fresh head c).blockContext ns with
        | error e => rfl
        | ok head' =>
            have := Statement.sizeOf_of_mem_items hitem
            exact congrArg some (tree_keeping o ns (Rule.fresh head c).blockContext head' t)
  rw [tree_ofStatement o ns head st rfl, tree_ofStatement (o.keeping false) ns head st rfl, Tree.map,
    Tree.mapAll_eq_map, Rule.withDeclarations_keeping, List.map_append, scopeTrees_keeping,
    ← Rule.keepsHeads_withoutGroupDeclarations.settleAll, List.map_nil, List.map_filterMap,
    List.filterMap_congr hchildren]
termination_by sizeOf st.block

end Draft

/-! ## The groups of a tree -/

/-- The groups under style rules in some trees, each before those below it. -/
def Tree.nestedGroups (ts : List (Tree Rule)) : List Rule := (valuesOf ts).filter Rule.isNestedGroup

open StyleTree.Tree (nestedGroups)

namespace Tree

variable {t : Tree Rule} {ts us : List (Tree Rule)}

theorem nestedGroups_cons (t : Tree Rule) (ts : List (Tree Rule)) :
    nestedGroups (t :: ts) = nestedGroups [t] ++ nestedGroups ts := by
  simp only [nestedGroups, valuesOf, List.append_nil, List.filter_append]

theorem nestedGroups_append (ts us : List (Tree Rule)) :
    nestedGroups (ts ++ us) = nestedGroups ts ++ nestedGroups us := by
  induction ts with
  | nil => rfl
  | cons t ts ih => rw [List.cons_append, nestedGroups_cons, ih, nestedGroups_cons t ts, List.append_assoc]

theorem nestedGroups_node (r : Rule) (ts : List (Tree Rule)) :
    nestedGroups [node r ts] = (if r.isNestedGroup then [r] else []) ++ nestedGroups ts := by
  simp only [nestedGroups, valuesOf, values, List.append_nil, List.filter_cons]
  split <;> rfl

theorem nestedGroups_filterMap {α : Type} (f : α → Option (Tree Rule)) (l : List α) :
    nestedGroups (l.filterMap f) = l.flatMap fun a => nestedGroups (f a).toList := by
  induction l with
  | nil => rfl
  | cons a l ih =>
      rw [List.flatMap_cons, ← ih, ← nestedGroups_append]
      cases h : f a with
      | none => rw [List.filterMap_cons_none h, Option.toList_none, List.nil_append]
      | some t => rw [List.filterMap_cons_some h, Option.toList_some, List.singleton_append]

/-- A tree without groups may be put anywhere. -/
theorem nestedGroups_insertIdx (h : nestedGroups [t] = []) : ∀ (ts : List (Tree Rule)) (i : Nat),
    nestedGroups (ts.insertIdx i t) = nestedGroups ts
  | ts, 0 => by rw [List.insertIdx_zero, nestedGroups_cons, h, List.nil_append]
  | [], i + 1 => rfl
  | u :: ts, i + 1 => by
      rw [List.insertIdx_succ_cons, nestedGroups_cons, nestedGroups_insertIdx h ts i, ← nestedGroups_cons]

end Tree

open StyleTree.Tree (nestedGroups_cons nestedGroups_append nestedGroups_node nestedGroups_insertIdx
  nestedGroups_filterMap)

namespace Draft

theorem nestedGroups_mergeInto? {m : FeatureValues} {ts us : List (Tree Rule)} (h : mergeInto? m ts = some us) :
    nestedGroups us = nestedGroups ts := by
  obtain ⟨as, bs, r, vs, old, rfl, hr, -, rfl⟩ := mergeInto?_eq_some h
  have hrank : r.head.rank?.isSome = true := by
    rw [hr]
    rfl
  have hmerged : ({ r with head := .featureBlock (old.merge m) } : Rule).isNestedGroup = false :=
    Rule.isNestedGroup_of_rank? rfl
  rw [nestedGroups_append, nestedGroups_append, nestedGroups_cons, nestedGroups_node, hmerged,
    nestedGroups_cons (.node r vs), nestedGroups_node, Rule.isNestedGroup_of_rank? hrank]
  rfl

/-- Settling keeps the order of groups if no tree that has a fixed place has any. -/
theorem nestedGroups_settle {t : Tree Rule} (ht : t.value.head.rank?.isSome = true → nestedGroups [t] = [])
    (ts : List (Tree Rule)) : nestedGroups (settle false t ts) = nestedGroups ts ++ nestedGroups [t] := by
  unfold settle
  rw [if_neg Bool.false_ne_true]
  cases hrank : t.value.head.rank? with
  | none =>
      have hfeatures : t.value.head.features? = none := by
        cases hhead : t.value.head with
        | featureBlock m =>
            rw [hhead] at hrank
            cases hrank
        | _ => rfl
      have hslot : slot t.value (ts.map Tree.value) = ts.length := by
        rw [slot, hrank]
        exact List.length_map _
      rw [hfeatures, hslot, Option.bind_none, Option.getD_none, List.insertIdx_length_self, nestedGroups_append]
  | some n =>
      have hnone : nestedGroups [t] = [] := ht (by rw [hrank]; rfl)
      rw [hnone, List.append_nil]
      cases hmerge : t.value.head.features?.bind (mergeInto? · ts) with
      | none => exact nestedGroups_insertIdx hnone ts _
      | some us =>
          obtain ⟨m, -, hus⟩ := Option.bind_eq_some_iff.mp hmerge
          exact nestedGroups_mergeInto? hus

theorem nestedGroups_settleAll : ∀ (cs ts : List (Tree Rule)),
    (∀ t ∈ cs, t.value.head.rank?.isSome = true → nestedGroups [t] = []) →
      nestedGroups (settleAll ts cs) = nestedGroups ts ++ nestedGroups cs
  | [], ts, _ => (List.append_nil _).symm
  | t :: cs, ts, h => by
      obtain ⟨ht, hcs⟩ := List.forall_mem_cons.mp h
      have ih := nestedGroups_settleAll cs (settle false t ts) hcs
      rw [nestedGroups_settle ht, List.append_assoc, ← nestedGroups_cons] at ih
      exact ih

theorem nestedGroups_scopeTrees (o : ReadOptions) (c : RuleContext) (ds : List WrittenDeclaration) :
    nestedGroups (scopeTrees o c ds) = [] := by
  unfold scopeTrees
  split <;> rfl

end Draft

/-! ## The groups that were written -/

/-- A grouping rule under a style rule as it was written: what it says, where it stands, and the declarations
directly in its block. -/
structure WrittenGroup where
  head : RuleHead
  context : RuleContext
  declarations : List WrittenDeclaration

/-- The rule that is read where a group was written. -/
def WrittenGroup.rule (o : ReadOptions) (w : WrittenGroup) : Rule :=
  (Rule.fresh w.head w.context).withDeclarations o w.declarations

namespace Statement

/-- The groups in a statement that was read as a rule, in the order in which they were written. -/
def groups (ns : Namespaces) (c : RuleContext) (head : RuleHead) (st : Statement) : List WrittenGroup :=
  let inner := head.kind.blockContext c
  let items := st.items inner
  let below := items.attach.flatMap fun ⟨item, hi⟩ =>
    match item, hi with
    | .declaration _, _ => []
    | .rule t, hi =>
      have := sizeOf_of_mem_items hi
      match t.read inner ns with
      | .ok head' => groups ns inner head' t
      | .error _ => []
  if inner = .nestedGroup then ⟨head, c, items.filterMap Item.declaration?⟩ :: below else below
termination_by sizeOf st.block

/-- The groups in an item of a block. -/
def groupsOfItem (ns : Namespaces) (c : RuleContext) : Item → List WrittenGroup
  | .declaration _ => []
  | .rule t =>
    match t.read c ns with
    | .ok head => groups ns c head t
    | .error _ => []

theorem groups_eq (ns : Namespaces) (c : RuleContext) (head : RuleHead) (st : Statement) :
    groups ns c head st =
      (if head.kind.blockContext c = .nestedGroup then
        [⟨head, c, (st.items (head.kind.blockContext c)).filterMap Item.declaration?⟩] else []) ++
        (st.items (head.kind.blockContext c)).flatMap (groupsOfItem ns (head.kind.blockContext c)) := by
  have hbelow : ∀ l : List WrittenGroup, (if head.kind.blockContext c = .nestedGroup then
      ⟨head, c, (st.items (head.kind.blockContext c)).filterMap Item.declaration?⟩ :: l else l) =
      (if head.kind.blockContext c = .nestedGroup then
        [⟨head, c, (st.items (head.kind.blockContext c)).filterMap Item.declaration?⟩] else []) ++ l := by
    intro l
    split <;> rfl
  rw [groups, hbelow]
  congr 1
  rw [List.flatMap_subtype (g := groupsOfItem ns (head.kind.blockContext c)), List.unattach_attach]
  intro item _
  cases item <;> rfl

/-- Where only declarations may stand there are no groups. -/
theorem groups_of_declarations {head : RuleHead} (h : head.kind.blockContext c = .declarations) (st : Statement) :
    groups ns c head st = [] := by
  rw [groups_eq, h, if_neg (by decide), List.nil_append, List.flatMap_eq_nil_iff]
  intro item _
  cases item with
  | declaration d => rfl
  | rule t =>
      rw [groupsOfItem]
      cases hread : t.read .declarations ns with
      | error e => rfl
      | ok head' => cases (read_eq_ok.mp hread).2.1

end Statement

/-- In the block of a rule with a fixed place among its siblings only declarations may stand. -/
theorem RuleHead.blockContext_of_rank? {head : RuleHead} (h : head.rank?.isSome = true) (c : RuleContext) :
    head.kind.blockContext c = .declarations := by
  cases head <;> first | rfl | cases h

namespace Draft

section

variable {items : List Item}

/-- The groups of each rule among the items are those that were written in it. -/
def GroupsOfItems (o : ReadOptions) (ns : Namespaces) (c : RuleContext) (items : List Item) : Prop :=
  ∀ t head, .rule t ∈ items →
    nestedGroups [(ofStatement o ns c head t).tree] = (t.groups ns c head).map (WrittenGroup.rule o)

theorem GroupsOfItems.item (h : GroupsOfItems o ns c items) {item : Item} (hitem : item ∈ items) :
    nestedGroups (childTree? o ns c item).toList =
      (Statement.groupsOfItem ns c item).map (WrittenGroup.rule o) := by
  cases item with
  | declaration d => rfl
  | rule t =>
      rw [childTree?, child?, Statement.groupsOfItem]
      cases t.read c ns with
      | error e => rfl
      | ok head => exact h t head hitem

theorem GroupsOfItems.placed (h : GroupsOfItems o ns c items) :
    ∀ u ∈ items.filterMap (childTree? o ns c), u.value.head.rank?.isSome = true → nestedGroups [u] = [] := by
  intro u hu hrank
  obtain ⟨item, hitem, hu⟩ := List.mem_filterMap.mp hu
  cases item with
  | declaration d => cases hu
  | rule t =>
      rw [childTree?, child?] at hu
      split at hu
      · next head _ =>
          cases hu
          rw [value_tree] at hrank
          have hinner := RuleHead.blockContext_of_rank? (isSome_rank?_ofStatement hrank) c
          rw [h t head hitem, Statement.groups_of_declarations hinner, List.map_nil]
      · cases hu

theorem GroupsOfItems.settled (h : GroupsOfItems o ns c items) :
    nestedGroups (settleAll [] (items.filterMap (childTree? o ns c))) =
      (items.flatMap (Statement.groupsOfItem ns c)).map (WrittenGroup.rule o) := by
  rw [nestedGroups_settleAll _ _ h.placed, nestedGroups_filterMap, List.map_flatMap]
  exact List.flatMap_congr fun item hitem => h.item hitem

end

/-- The groups of a tree are those that were written, in the same order. -/
theorem nestedGroups_ofStatement (o : ReadOptions) (ns : Namespaces) (c : RuleContext) (head : RuleHead)
    (st : Statement) :
    nestedGroups [(ofStatement o ns c head st).tree] = (st.groups ns c head).map (WrittenGroup.rule o) := by
  generalize hr : Rule.fresh head c = r
  have hblock : head.kind.blockContext c = r.blockContext := by rw [← hr]; rfl
  have hitems : GroupsOfItems o ns r.blockContext (st.items r.blockContext) := by
    intro t head' hitem
    have := Statement.sizeOf_of_mem_items hitem
    exact nestedGroups_ofStatement o ns r.blockContext head' t
  have hown : (r.withDeclarations o ((st.items r.blockContext).filterMap Item.declaration?)).isNestedGroup =
      decide (r.blockContext = .nestedGroup) := by
    rw [Rule.isNestedGroup, Rule.blockContext_withDeclarations]
  rw [tree_ofStatement o ns head st hr.symm, nestedGroups_node, nestedGroups_append, nestedGroups_scopeTrees,
    List.nil_append, hitems.settled, hown, Statement.groups_eq, hblock, List.map_append]
  congr 1
  subst hr
  by_cases hgroup : (Rule.fresh head c).blockContext = .nestedGroup
  · rw [if_pos hgroup, if_pos (decide_eq_true hgroup)]
    rfl
  · rw [if_neg hgroup, if_neg (by simpa using hgroup)]
    rfl
termination_by sizeOf st.block

end Draft

end StyleTree
