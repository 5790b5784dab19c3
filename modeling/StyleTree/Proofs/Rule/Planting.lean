/-
# `Proofs.Rule.Planting` — planted drafts are trees of the forest

Planting a draft adds one tree to a forest and leaves the others as they
are, and the tree, ids apart, is that of the draft (`forest_plant`).  While
the children of a rule are planted, the rule is the first tree of the
forest and the child that is being planted stands in front of it; `settle`
then puts the child under the rule, or merges it into a child of the rule
and removes it (`forest_settle`).  Either way the child is no tree of its
own any more.
-/
import StyleTree.Proofs.Rule.Growth
import StyleTree.Proofs.Arena.Removal

namespace StyleTree.Arena

open StyleTree.Tree (root idsOf graft adjust adjustAll pruneAll bareAll)

variable {a : Arena Rule}

/-! ## Siblings as rules -/

/-- The rules of the children of a node. -/
def childRules (a : Arena Rule) (p : RuleId) : List Rule := (a.children p).filterMap a.value?

theorem Holds.value? {q : Option RuleId} : ∀ {t : Tree (RuleId × Rule)}, Holds a q t →
    a.value? t.root = some t.value.2
  | .node e ts, h => by
      rw [Arena.value?, Tree.root_node, h.get?]
      rfl

theorem Holds.rank? {q : Option RuleId} {t : Tree (RuleId × Rule)} (h : Holds a q t) :
    a.rank? t.root = t.value.2.head.rank? := by
  rw [Arena.rank?, h.value?]
  rfl

theorem Holds.features? {q : Option RuleId} {t : Tree (RuleId × Rule)} (h : Holds a q t) :
    a.features? t.root = t.value.2.head.features? := by
  rw [Arena.features?, h.value?]
  rfl

/-- All children of a rule are rules. -/
theorem Forest.map_value? {ts : List (Tree (RuleId × Rule))} (h : Forest a ts) (p : RuleId) :
    (a.children p).map a.value? = (a.childRules p).map some := by
  have hvalues : ∀ is : List RuleId, (∀ x ∈ is, x ∈ a.ids) →
      is.map a.value? = (is.filterMap a.value?).map some := by
    intro is his
    induction is with
    | nil => rfl
    | cons x is ih =>
        obtain ⟨hx, his⟩ := List.forall_mem_cons.mp his
        obtain ⟨n, hn⟩ := exists_get? hx
        have hvalue : a.value? x = some n.value := by rw [Arena.value?, hn, Option.map_some]
        rw [List.map_cons, List.filterMap_cons_some hvalue, ih his, List.map_cons, hvalue]
  exact hvalues _ fun x hx => h.mem_ids_of_child hx

theorem findIdx_congr {α : Type} {f g : α → Bool} : ∀ {l : List α}, (∀ x ∈ l, f x = g x) →
    l.findIdx f = l.findIdx g
  | [], _ => rfl
  | x :: l, h => by
      rw [List.findIdx_cons, List.findIdx_cons, h x List.mem_cons_self,
        findIdx_congr fun y hy => h y (List.mem_cons_of_mem _ hy)]

/-- The place of a child is found from the rules of its siblings. -/
theorem canonicalIndex?_getD {q q' : Option RuleId} {c : Tree (RuleId × Rule)} {e : RuleId × Rule}
    {ts : List (Tree (RuleId × Rule))} (hc : Holds a q c) (hp : Holds a q' (.node e ts)) :
    (a.canonicalIndex? e.1 c.root).getD (a.children e.1).length =
      Draft.slot c.bare.value ((bareAll ts).map Tree.value) := by
  have hvalues : (bareAll ts).map Tree.value = ts.map fun t => t.value.2 := by
    rw [Tree.bareAll_eq_map, List.map_map]
    exact List.map_congr_left fun t _ => Tree.value_bare t
  rw [canonicalIndex?, hc.rank?, hp.children, Draft.slot, Tree.value_bare, hvalues]
  cases c.value.2.head.rank? with
  | none => simp
  | some n =>
      simp only [Option.map_some, Option.getD_some, List.findIdx_map]
      exact findIdx_congr fun t ht => by
        rw [Function.comp_apply, Function.comp_apply, (holdsAll_iff.mp hp.below t ht).rank?]

/-! ## Linking a child to its parent -/

/-- The first tree is linked to the root of the second. -/
theorem forest_attach_root {c : Tree (RuleId × Rule)} {e : RuleId × Rule}
    {ts us : List (Tree (RuleId × Rule))} (h : Forest a (c :: .node e ts :: us)) (n : Nat) :
    Forest (a.attach e.1 n c.root) (.node e (ts.insertIdx (min n ts.length) c) :: us) := by
  have hp : e.1 ∈ idsOf (.node e ts :: us) := by simp
  have hf := forest_attach h hp n
  have hn := h.nodup
  rw [Tree.idsOf_cons, Tree.idsOf_cons] at hn
  have hd := (List.nodup_append'.mp (List.nodup_append'.mp hn).2.1).2.2
  have hus : e.1 ∉ idsOf us := hd (Tree.root_mem_ids (.node e ts))
  rwa [Tree.graftAll, graft, if_pos rfl, Tree.graftAll_of_not_mem us hus] at hf

/-- A tree of the forest is removed. -/
theorem forest_remove_head {c : Tree (RuleId × Rule)} {us : List (Tree (RuleId × Rule))}
    (h : Forest a (c :: us)) :
    Forest (a.removeSubtree c.root) us ∧
      ∀ id, id ∈ (a.removeSubtree c.root).ids ↔ id ∈ a.ids ∧ id ∉ c.ids := by
  have hd := h.disjoint c.root (Tree.root_mem_ids c)
  have hc : c.root ∈ a.ids := by
    rw [h.mem_ids, Tree.idsOf_cons]
    exact List.mem_append_left _ (Tree.root_mem_ids c)
  obtain ⟨w, p, -, -, hf, hids⟩ := forest_removeSubtree h hc
  rw [pruneAll, if_pos rfl, Tree.pruneAll_of_not_mem us hd] at hf
  refine ⟨hf, fun id => ?_⟩
  have hm := h.mem_ids (x := id)
  rw [Tree.idsOf_cons, List.mem_append, ← hf.mem_ids] at hm
  constructor
  · intro hid
    refine ⟨hm.mpr (Or.inr hid), fun hcid => ?_⟩
    exact h.disjoint id hcid (hf.mem_ids.mp hid)
  · rintro ⟨hid, hcid⟩
    exact (hm.mp hid).resolve_left hcid

/-- A block that was found has feature values. -/
theorem features?_of_featureBlock {parent b : RuleId} {f : FeatureType}
    (h : a.featureBlock? parent f = some b) : ∃ m, a.features? b = some m := by
  have hb := List.find?_some h
  cases hm : a.features? b with
  | none => rw [hm] at hb; exact absurd hb (by simp)
  | some m => exact ⟨m, rfl⟩

/-- The child has feature values of a kind of which the parent has a block already. -/
def Merges (a : Arena Rule) (parent child : RuleId) : Prop :=
  ∃ m b, a.features? child = some m ∧ a.featureBlock? parent m.feature = some b

/-- A block that was merged into another is in use no more. -/
theorem not_mem_ids_of_merges {ts : List (Tree (RuleId × Rule))} (h : Forest a ts)
    {parent child : RuleId} (hm : a.Merges parent child) :
    child ∉ (a.settle false parent child).ids := by
  obtain ⟨m, b, hchild, hb⟩ := hm
  obtain ⟨old, hold⟩ := features?_of_featureBlock hb
  have hc : child ∈ a.ids := by
    rw [features?, Option.bind_eq_some_iff] at hchild
    obtain ⟨r, hr, -⟩ := hchild
    rw [value?, Option.map_eq_some_iff] at hr
    obtain ⟨n, hn, -⟩ := hr
    exact mem_ids_of_get? hn
  obtain ⟨w, p, hw, -, -, hids⟩ := forest_removeSubtree h hc
  simp only [settle, Bool.false_eq_true, if_false, hchild, hb, hold, setFeatures]
  rw [ids_modify]
  intro hmem
  exact ((hids child).mp hmem).2 (hw ▸ Tree.root_mem_ids w)

/-! ## Merging a child into a sibling -/

section Merge
variable {q : Option RuleId} {m old : FeatureValues} {b : RuleId}

/-- Siblings without a block of this kind take nothing up. -/
theorem mergeInto?_of_find?_eq_none (m : FeatureValues) : ∀ {ts : List (Tree (RuleId × Rule))},
    HoldsAll a q ts → (ts.map root).find? (fun c => (a.features? c).any (·.feature = m.feature)) = none →
      Draft.mergeInto? m (bareAll ts) = none
  | [], _, _ => rfl
  | .node e vs :: ts, h, hf => by
      rw [HoldsAll] at h
      rw [List.map_cons, List.find?_cons, h.1.features?] at hf
      have hrest := mergeInto?_of_find?_eq_none m h.2
      simp only [Tree.value] at hf
      rw [Tree.bareAll_cons, Tree.bare_node, Draft.mergeInto?]
      cases hv : e.2.head.features? with
      | none =>
          rw [hv] at hf
          rw [hrest (by simpa using hf)]
          rfl
      | some old =>
          rw [hv] at hf
          by_cases hk : old.feature = m.feature
          · simp [hk] at hf
          · simp only [if_neg hk]
            rw [hrest (by simpa [hk] using hf)]
            rfl

/-- The block that was found has the values merged into its own. -/
theorem mergeInto?_of_find?_eq_some : ∀ {ts : List (Tree (RuleId × Rule))}, HoldsAll a q ts →
    (idsOf ts).Nodup →
    (ts.map root).find? (fun c => (a.features? c).any (·.feature = m.feature)) = some b →
    a.features? b = some old →
      Draft.mergeInto? m (bareAll ts) =
        some (bareAll (adjustAll b (fun r => { r with head := .featureBlock (old.merge m) }) ts))
  | [], _, _, hf, _ => by cases hf
  | .node e vs :: ts, h, hn, hf, hold => by
      rw [HoldsAll] at h
      rw [Tree.idsOf_cons, Tree.ids_node] at hn
      obtain ⟨hevs, hts, hd⟩ := List.nodup_append'.mp hn
      rw [List.map_cons, List.find?_cons, h.1.features?] at hf
      simp only [Tree.value] at hf
      rw [Tree.adjustAll_eq_map, List.map_cons, ← Tree.adjustAll_eq_map, Tree.bareAll_cons,
        Tree.bareAll_cons, Tree.bare_node, Draft.mergeInto?]
      have hrest : ((ts.map root).find? fun c => (a.features? c).any (·.feature = m.feature)) = some b →
          (Draft.mergeInto? m (bareAll ts)).map (.node e.2 (bareAll vs) :: ·) =
            some ((adjust b (fun r => { r with head := .featureBlock (old.merge m) }) (.node e vs)).bare ::
              bareAll (adjustAll b (fun r => { r with head := .featureBlock (old.merge m) }) ts)) := by
        intro hf
        have hb : b ∈ idsOf ts := Tree.root_mem_idsOf (List.mem_of_find?_eq_some hf)
        rw [mergeInto?_of_find?_eq_some h.2 hts hf hold, Option.map_some,
          Tree.adjust_of_not_mem b _ (.node e vs) fun hm => hd (by rwa [Tree.ids_node] at hm) hb,
          Tree.bare_node]
      cases hv : e.2.head.features? with
      | none =>
          rw [hv] at hf
          exact hrest (by simpa using hf)
      | some old' =>
          rw [hv] at hf
          by_cases hk : old'.feature = m.feature
          · simp only [Option.any_some, hk, decide_true, Option.some.injEq] at hf
            subst hf
            have hown := h.1.features?
            rw [hold, Tree.value, hv, Option.some.injEq] at hown
            subst hown
            have hadjust : adjust e.1 (fun r => { r with head := .featureBlock (old.merge m) }) (.node e vs) =
                .node (e.1, { e.2 with head := .featureBlock (old.merge m) }) vs := by
              have hvs := Tree.adjustAll_of_not_mem e.1
                (fun r : Rule => { r with head := .featureBlock (old.merge m) }) vs
                (List.nodup_cons.mp hevs).1
              simp only [Tree.adjustAll] at hvs
              simp only [adjust, Tree.map, if_true, hvs]
            simp only [if_pos hk]
            rw [Tree.root_node, hadjust, Tree.adjustAll_of_not_mem _ _ ts (hd List.mem_cons_self)]
            rfl
          · simp only [if_neg hk]
            exact hrest (by simpa [hk] using hf)

end Merge

/-! ## Planting -/

section Settle
variable {c : Tree (RuleId × Rule)} {e : RuleId × Rule} {ts us : List (Tree (RuleId × Rule))}

/-- A child takes its place among its siblings. -/
theorem forest_attachInOrder (h : Forest a (c :: .node e ts :: us)) :
    ∃ ts', Forest (a.attachInOrder e.1 c.root) (.node e ts' :: us) ∧
      bareAll ts' =
        (bareAll ts).insertIdx (Draft.slot c.bare.value ((bareAll ts).map Tree.value)) c.bare := by
  have hh := h.holds
  rw [HoldsAll, HoldsAll] at hh
  have hle := Draft.slot_le_length c.bare.value ((bareAll ts).map Tree.value)
  rw [List.length_map, Tree.bareAll_eq_map, List.length_map, ← Tree.bareAll_eq_map] at hle
  have hf := forest_attach_root h (Draft.slot c.bare.value ((bareAll ts).map Tree.value))
  rw [Nat.min_eq_left hle] at hf
  refine ⟨ts.insertIdx (Draft.slot c.bare.value ((bareAll ts).map Tree.value)) c, ?_, ?_⟩
  · rw [attachInOrder, canonicalIndex?_getD hh.1 hh.2.1]
    exact hf
  · rw [Tree.bareAll_eq_map, List.map_insertIdx, ← Tree.bareAll_eq_map]

/-- A child is removed when its values are merged into the block of their kind. -/
theorem forest_mergeInto {m old : FeatureValues} {b : RuleId}
    (h : Forest a (c :: .node e ts :: us)) (hb : a.featureBlock? e.1 m.feature = some b)
    (hold : a.features? b = some old) :
    ∃ ts', Forest ((a.removeSubtree c.root).setFeatures b (old.merge m)) (.node e ts' :: us) ∧
      Draft.mergeInto? m (bareAll ts) = some (bareAll ts') := by
  have hh := h.holds
  rw [HoldsAll, HoldsAll] at hh
  rw [featureBlock?, hh.2.1.children] at hb
  have hn := h.nodup
  rw [Tree.idsOf_cons, Tree.idsOf_cons, Tree.ids_node] at hn
  obtain ⟨hets, -, hd⟩ := List.nodup_append'.mp (List.nodup_append'.mp hn).2.1
  have hbts : b ∈ idsOf ts := Tree.root_mem_idsOf (List.mem_of_find?_eq_some hb)
  have hbe : e.1 ≠ b := fun heb => (List.nodup_cons.mp hets).1 (heb ▸ hbts)
  have hf := forest_adjust (forest_remove_head h).1 b
    fun r => { r with head := .featureBlock (old.merge m) }
  rw [Tree.adjustAll_eq_map, List.map_cons, ← Tree.adjustAll_eq_map,
    Tree.adjustAll_of_not_mem b _ us (hd (List.mem_cons_of_mem _ hbts))] at hf
  simp only [adjust, Tree.map, if_neg hbe] at hf
  exact ⟨_, hf, mergeInto?_of_find?_eq_some hh.2.1.below (List.nodup_cons.mp hets).2 hb hold⟩

/-- A child is put beside its siblings as its draft says. -/
theorem forest_settle (h : Forest a (c :: .node e ts :: us)) (first : Bool) :
    ∃ ts', Forest (a.settle first e.1 c.root) (.node e ts' :: us) ∧
      bareAll ts' = Draft.settle first c.bare (bareAll ts) := by
  have hh := h.holds
  rw [HoldsAll, HoldsAll] at hh
  obtain ⟨hc, hp, -⟩ := hh
  cases first with
  | true =>
      refine ⟨c :: ts, ?_, rfl⟩
      have hf := forest_attach_root h 0
      rwa [Nat.zero_min, List.insertIdx_zero] at hf
  | false =>
      rw [Arena.settle, Draft.settle, hc.features?, ← Tree.value_bare]
      simp only [Bool.false_eq_true, if_false]
      cases c.bare.value.head.features? with
      | none => exact forest_attachInOrder h
      | some m =>
          simp only [Option.bind_some]
          cases hb : a.featureBlock? e.1 m.feature with
          | none =>
              rw [featureBlock?, hp.children] at hb
              rw [mergeInto?_of_find?_eq_none m hp.below hb]
              exact forest_attachInOrder h
          | some b =>
              obtain ⟨old, hold⟩ := features?_of_featureBlock hb
              obtain ⟨ts', hf, hts'⟩ := forest_mergeInto h hb hold
              simp only [hold, hts', Option.getD_some]
              exact ⟨ts', hf, rfl⟩

end Settle

mutual

/-- A draft that is planted has grown into its tree. -/
theorem forest_plant : ∀ (d : Draft) {a : Arena Rule} {us : List (Tree (RuleId × Rule))},
    Forest a us →
      ∃ t, t.root = (a.plant d).2 ∧ t.bare = d.tree ∧ Forest (a.plant d).1 (t :: us)
  | .rule _ r ds, a, us, h => by
      obtain ⟨ts, hf, hts⟩ := forest_plantUnder ds (forest_insert h r)
      rw [plant, Draft.tree]
      exact ⟨.node (a.fresh, r) ts, rfl, by rw [Tree.bare_node, hts]; rfl, hf⟩

theorem forest_plantUnder : ∀ (ds : List Draft) {a : Arena Rule} {e : RuleId × Rule}
    {ts us : List (Tree (RuleId × Rule))}, Forest a (.node e ts :: us) →
      ∃ ts', Forest (a.plantUnder e.1 ds) (.node e ts' :: us) ∧
        bareAll ts' = Draft.treesUnder (bareAll ts) ds
  | [], _, _, ts, _, h => ⟨ts, by rw [plantUnder]; exact h, by rw [Draft.treesUnder]⟩
  | .rule first r children :: ds, a, e, ts, us, h => by
      obtain ⟨c, hroot, hbare, hf⟩ := forest_plant (.rule first r children) h
      obtain ⟨ts₁, hf, hts₁⟩ := forest_settle hf first
      obtain ⟨ts₂, hf, hts₂⟩ := forest_plantUnder ds hf
      rw [plantUnder, Draft.treesUnder, ← hbare, ← hts₁]
      rw [hroot] at hf
      exact ⟨ts₂, hf, hts₂⟩

end

theorem forest_plantAll : ∀ (ds : List Draft) {a : Arena Rule} {us : List (Tree (RuleId × Rule))},
    Forest a us →
      ∃ ts, ts.map root = (a.plantAll ds).2 ∧ bareAll ts = ds.map Draft.tree ∧
        Forest (a.plantAll ds).1 (ts ++ us)
  | [], _, _, h => ⟨[], rfl, rfl, h⟩
  | d :: ds, a, us, h => by
      obtain ⟨t, ht, hbare, hf⟩ := forest_plant d h
      obtain ⟨ts, hts, hbares, hf⟩ := forest_plantAll ds hf
      refine ⟨t :: ts, ?_, ?_, hf.of_perm List.perm_middle⟩
      · rw [List.map_cons, ht, hts]
        rfl
      · rw [Tree.bareAll_cons, hbare, hbares, List.map_cons]

/-! ## Ids -/

theorem evolves_settle (a : Arena Rule) (first : Bool) (parent child : RuleId) :
    Evolves a (a.settle first parent child) := by
  unfold settle attachInOrder
  split
  · exact evolves_attach a _ _ _
  split
  · exact evolves_attach a _ _ _
  split
  · exact evolves_attach a _ _ _
  split
  · exact (evolves_removeSubtree a child).trans (evolves_modify _ _ _)
  · exact Evolves.refl a

mutual

theorem evolves_plant : ∀ (d : Draft) (a : Arena Rule), Evolves a (a.plant d).1
  | .rule _ r ds, a => by
      rw [plant]
      exact (evolves_insert a r).trans (evolves_plantUnder ds _ _)

theorem evolves_plantUnder : ∀ (ds : List Draft) (a : Arena Rule) (parent : RuleId),
    Evolves a (a.plantUnder parent ds)
  | [], a, _ => by
      rw [plantUnder]
      exact Evolves.refl a
  | .rule first r children :: ds, a, parent => by
      rw [plantUnder]
      exact ((evolves_plant (.rule first r children) a).trans (evolves_settle _ first parent _)).trans
        (evolves_plantUnder ds _ parent)

end

theorem evolves_plantAll : ∀ (ds : List Draft) (a : Arena Rule), Evolves a (a.plantAll ds).1
  | [], a => Evolves.refl a
  | d :: ds, a => (evolves_plant d a).trans (evolves_plantAll ds _)

end StyleTree.Arena
