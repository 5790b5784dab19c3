/-
# `Proofs.Sheet.Features` — blocks of feature values as if written once

A rule for feature values that is planted has no other children than the
blocks that its text gives when the repeated ones are merged, and these have
no children.  The nodes of the blocks that were merged into others leave the
arena again: what is new in it are the rule and those children
(`Arena.features_plant`).

Merging does not look at the values again, and it need not: that the values
keep the contract of their kind is a property of single rules, which reading
establishes and no change breaks (`Rule.ruleInvariant_hasLawfulFeatures`).
-/
import StyleTree.Proofs.Rule.Features
import StyleTree.Proofs.Rule.Planting
import StyleTree.Proofs.Sheet.Links
import StyleTree.Proofs.Sheet.Rules

namespace StyleTree

open StyleTree.Tree (root idsOf bareAll)

/-! ## The nodes of a rule for feature values -/

namespace Draft

/-- The blocks of feature values that were written in a body. -/
def written (ns : Namespaces) (st : Statement) : List WrittenFeatures :=
  (st.items .fontFeatureValues).filterMap (writtenFeatures? ns)

/-- The maps that come of blocks, in the order of their kinds. -/
def gatheredAll (bs : List WrittenFeatures) : List FeatureValues := FeatureType.all.filterMap (gathered bs)

theorem blocksOf_eq_map (g : FeatureType → Option FeatureValues) (fs : List FeatureType) :
    blocksOf g fs = (fs.filterMap g).map FeatureValues.tree := by
  rw [blocksOf, List.map_filterMap]

end Draft

namespace Arena

variable {a : Arena Rule} {us ts : List (Tree (RuleId × Rule))} {p : Option RuleId}

/-- A tree whose rules are a block of feature values alone is one node. -/
theorem eq_leaf_of_bare {t : Tree (RuleId × Rule)} {m : FeatureValues} (h : t.bare = m.tree) :
    t = .node (t.root, m.tree.value) [] := by
  obtain ⟨⟨x, r⟩, vs⟩ := t
  have hr : r = m.tree.value := congrArg Tree.value h
  have hvs : bareAll vs = [] := congrArg Tree.children h
  rw [Tree.bareAll_eq_map, List.map_eq_nil_iff] at hvs
  rw [hr, hvs, Tree.root_node]

/-- Blocks of feature values that are held below a node are nodes without children. -/
theorem HoldsAll.leaves {ms : List FeatureValues} (h : HoldsAll a p us) (hbare : bareAll us = ms.map FeatureValues.tree) :
    (us.map root).map a.value? = ms.map (fun m => some m.tree.value) ∧
      (∀ x ∈ us.map root, a.children x = []) ∧ idsOf us = us.map root := by
  induction us generalizing ms with
  | nil =>
      rw [Tree.bareAll_eq_map, List.map_nil, List.nil_eq, List.map_eq_nil_iff] at hbare
      subst hbare
      exact ⟨rfl, List.forall_mem_nil _, rfl⟩
  | cons t us ih =>
      rw [Tree.bareAll_eq_map, List.map_cons] at hbare
      obtain ⟨m, ms, rfl, ht, hus⟩ := List.map_eq_cons_iff.mp hbare.symm
      rw [HoldsAll] at h
      rw [← Tree.bareAll_eq_map] at hus
      obtain ⟨hvalues, hchildren, hids⟩ := ih h.2 hus.symm
      have hleaf := eq_leaf_of_bare ht.symm
      have hchild : a.children t.root = [] := by
        have hholds := h.1
        rw [hleaf] at hholds
        exact hholds.children
      have hvalue : a.value? t.root = some m.tree.value := by
        rw [h.1.value?, hleaf]
        rfl
      refine ⟨?_, List.forall_mem_cons.mpr ⟨hchild, hchildren⟩, ?_⟩
      · rw [List.map_cons, List.map_cons, hvalues, hvalue, List.map_cons]
      · have hone : t.ids = [t.root] := by
          rw [hleaf]
          rfl
        rw [Tree.idsOf_cons, hids, hone, List.map_cons, List.singleton_append]

/-- What is new in the arena when a rule for feature values was planted are the rule and the blocks that its text
gives when the repeated ones are merged. -/
theorem features_plant (h : Forest a ts) (o : ReadOptions) (ns : Namespaces) (c : RuleContext)
    (families : List FamilyName) (st : Statement) :
    let planted := a.plant (Draft.ofStatement o ns c (.fontFeatureValues families) st)
    (planted.1.children planted.2).map planted.1.value? =
        (Draft.gatheredAll (Draft.written ns st)).map
          (fun m => some ⟨.featureBlock m, none, .fontFeatureValues⟩) ∧
      (∀ x ∈ planted.1.children planted.2, planted.1.children x = []) ∧
      planted.1.ids.Perm (planted.2 :: planted.1.children planted.2 ++ a.ids) := by
  intro planted
  obtain ⟨⟨e, us⟩, hroot, hbare, hf⟩ := forest_plant (Draft.ofStatement o ns c (.fontFeatureValues families) st) h
  have hus : bareAll us = (Draft.gatheredAll (Draft.written ns st)).map FeatureValues.tree := by
    rw [Draft.gatheredAll, ← Draft.blocksOf_eq_map, Draft.written,
      ← Draft.children_ofStatement_features o ns c families st, ← hbare, Tree.children_bare, Tree.children]
  have hh := hf.holds
  rw [HoldsAll] at hh
  have hchildren : planted.1.children planted.2 = us.map root := by
    rw [← hroot]
    exact hh.1.children
  obtain ⟨hvalues, hleaves, hids⟩ := hh.1.below.leaves hus
  rw [hchildren]
  refine ⟨hvalues, hleaves, hf.perm.symm.trans ?_⟩
  rw [Tree.idsOf_cons, Tree.ids_node, hids, ← hroot]
  exact List.Perm.append_left _ h.perm

end Arena

/-! ## The contract of the values -/

/-- The feature values of the rule, if it has any, keep the contract of their kind. -/
def Rule.HasLawfulFeatures (r : Rule) : Prop := ∀ m, r.head = .featureBlock m → m.IsLawful

theorem Sheet.Revision.hasLawfulFeatures {s : Sheet} {e : Edit} {id : RuleId} {r r' : Rule}
    (h : s.Revision e id r r') (hr : r.HasLawfulFeatures) : r'.HasLawfulFeatures := by
  cases h with
  | key _ _ | keyframesName _ _ | counterStyleName _ _ => rintro m ⟨⟩
  | selectors hsel =>
      rcases Sheet.selectorsOf_cases hsel with ⟨-, l, -, rfl⟩ | ⟨-, l, -, rfl⟩ <;> rintro m ⟨⟩
  | blank _ _ | declared _ _ | removed _ => exact hr
  | feature _ hm hset =>
      rintro m ⟨⟩
      exact (hr _ hm).set hset
  | noFeature _ hm =>
      rintro m ⟨⟩
      exact (hr _ hm).erase _

/-- No rule gets values that break the contract of their kind, however it comes to them. -/
theorem Rule.ruleInvariant_hasLawfulFeatures : RuleInvariant fun _ r => r.HasLawfulFeatures where
  read hread := by
    rintro m (rfl : _ = _)
    obtain ⟨f, hf⟩ := Draft.head_of_read hread rfl
    cases hf
    exact FeatureValues.isLawful_empty f
  declare := by
    intro o r ds hr m hm
    rcases Rule.head_withDeclarations o r ds with hhead | ⟨m', hm', hhead⟩
    · exact hr m (hhead.symm.trans hm)
    · cases hhead.symm.trans hm
      exact (hr m' hm').declareAll ds
  scope o ds := by rintro m ⟨⟩
  merge := by
    rintro o r r' old m hr hr' hold hm hf m' ⟨⟩
    exact (hr old hold).merge (hr' m hm) hf
  found hset := by
    rintro m' ⟨⟩
    exact (FeatureValues.isLawful_empty _).set hset
  revise := Sheet.Revision.hasLawfulFeatures

namespace SharedSheet

variable {σ : SharedSheet}

/-- A rule for feature values has one block for each kind of feature that its text has blocks of, with the values
that all declarations of these blocks give when they are declared one after the other; the blocks have no children,
and no node of a block that was merged is left.  Whatever was done to a sheet, all values in its blocks keep the
contract of their kind. -/
theorem features_merge (h : σ.Reachable) :
    (∀ (a : Arena Rule) ts, a.Forest ts → ∀ o ns c families st,
      let planted := a.plant (Draft.ofStatement o ns c (.fontFeatureValues families) st)
      (planted.1.children planted.2).map planted.1.value? =
          (Draft.gatheredAll (Draft.written ns st)).map
            (fun m => some ⟨.featureBlock m, none, .fontFeatureValues⟩) ∧
        (∀ x ∈ planted.1.children planted.2, planted.1.children x = []) ∧
        planted.1.ids.Perm (planted.2 :: planted.1.children planted.2 ++ a.ids)) ∧
      ∀ id m, σ.sheet.arena.features? id = some m → ∀ e ∈ m.entries, m.feature.accepts e.2 = true := by
  refine ⟨fun a ts ha o ns c families st => Arena.features_plant ha o ns c families st, fun id m hm => ?_⟩
  obtain ⟨r, hr, hr'⟩ := Option.bind_eq_some_iff.mp hm
  have hlawful := Rule.ruleInvariant_hasLawfulFeatures.of_reachable h hr
  exact (hlawful m (RuleHead.eq_of_features? hr')).accepted

/-- A rule for feature values has two blocks of one kind, in front of and behind one of another, with values that
are rejected in both; later one more name is set. -/
theorem features_merge_repeated :
    let text := "@font-feature-values f{@swash{a:1;b:100}@ornaments{x:7}@swash{a:2;a:3 4;c:99}}"
    let σ := (ofSheet (Sheet.read .scripted text)).step (.edit (.setFeature ⟨1, 1⟩ .swash "d" [5]))
    (∃ st, Statement.single (ComponentValue.ofText text) = .ok st ∧
      let planted := (Arena.empty : Arena Rule).plant
        (Draft.ofStatement ⟨.basic, false⟩ .empty .stylesheet (.fontFeatureValues []) st)
      (planted.1.children planted.2).map planted.1.value? =
          [⟨.ornaments, [("x", [7])]⟩, ⟨.swash, [("a", [2]), ("c", [99])]⟩].map
            (fun m => some ⟨.featureBlock m, none, .fontFeatureValues⟩) ∧
        planted.1.ids.Perm (planted.2 :: planted.1.children planted.2)) ∧
      σ.sheet.arena.features? ⟨2, 1⟩ = some ⟨.swash, [("a", [2]), ("c", [99]), ("d", [5])]⟩ ∧
      ∀ e ∈ [("a", [2]), ("c", [99]), ("d", [5])], FeatureType.swash.accepts e.2 = true := by
  intro text σ
  have hσ : σ.Reachable := ⟨_, [.edit (.setFeature ⟨1, 1⟩ .swash "d" [5])], .read _ _, rfl⟩
  obtain ⟨hplant, haccepts⟩ := features_merge hσ
  have hvalues : σ.sheet.arena.features? ⟨2, 1⟩ = some ⟨.swash, [("a", [2]), ("c", [99]), ("d", [5])]⟩ := by
    decide +kernel
  have hread : (Statement.single (ComponentValue.ofText text)).toOption.any (fun st =>
      Draft.gatheredAll (Draft.written .empty st) =
        [⟨.ornaments, [("x", [7])]⟩, ⟨.swash, [("a", [2]), ("c", [99])]⟩]) = true := by decide +kernel
  have hempty : (Arena.empty : Arena Rule).ids = [] := rfl
  refine ⟨?_, hvalues, haccepts _ _ hvalues⟩
  generalize Statement.single (ComponentValue.ofText text) = read at hread
  obtain ⟨st, rfl, hgathered⟩ : ∃ st, read = .ok st ∧ Draft.gatheredAll (Draft.written .empty st) =
      [⟨.ornaments, [("x", [7])]⟩, ⟨.swash, [("a", [2]), ("c", [99])]⟩] := by
    cases read with
    | error f => cases hread
    | ok st => exact ⟨st, rfl, of_decide_eq_true hread⟩
  obtain ⟨hblocks, -, hids⟩ := hplant Arena.empty [] Arena.forest_empty ⟨.basic, false⟩ .empty .stylesheet [] st
  rw [hgathered] at hblocks
  rw [hempty, List.append_nil] at hids
  exact ⟨st, rfl, hblocks, hids⟩

end SharedSheet

end StyleTree
