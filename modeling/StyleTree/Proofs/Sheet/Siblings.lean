/-
# `Proofs.Sheet.Siblings` — siblings of a sheet keep their order

Three kinds of edits put a rule beside others that keep a fixed order: a
statement that is read, a margin box that is inserted, and a feature value
that makes its block.  Each looks for the slot in its own way, and each
finds the slot of `Draft.slot` (`Reshape.grafted`, `Reshape.founded`), so
that no edit puts siblings out of order (`invariant_inOrder`).  What changes
a rule keeps its rank, and what is deleted leaves the others in order.
-/
import StyleTree.Proofs.Rule.Siblings
import StyleTree.Proofs.Sheet.Contexts

namespace StyleTree

open StyleTree.Rule (IsNewAmong rankAndKind)
open StyleTree.Tree (FamiliesOf bareAll)

namespace Sheet

variable {s : Sheet} {ts us : List (Tree (RuleId × Rule))} {e : Edit} {ns : Namespaces} {p : RuleId} {r r' : Rule}

/-- The children of each node are in order. -/
abbrev Ordered (ts : List (Tree (RuleId × Rule))) : Prop := FamiliesOf (fun _ vs => Rule.InOrder (vs.map (·.2))) ts

/-! ## Rules that come in, rules that change -/

theorem Grown.ordered {c : RuleContext} {head : RuleHead} {st : Statement} {w : Tree (RuleId × Rule)}
    (h : s.Grown c head st w) : w.Families fun _ vs => Rule.InOrder (vs.map (·.2)) := by
  refine Tree.Families.of_bare (P := fun _ => Rule.InOrder) ?_
  rw [h.bare]
  exact Draft.inOrder_ofStatement _ _ _ _ _

theorem familiesOf_of_bare {o : ReadOptions} {imports : Bool} {text : String}
    (h : bareAll us = (Draft.ofText o imports text).1.map Draft.tree) :
    FamiliesOf (fun _ => Rule.InOrder) (bareAll us) := by
  rw [h, Tree.familiesOf_iff]
  intro t ht
  obtain ⟨d, hd, rfl⟩ := List.mem_map.mp ht
  obtain ⟨st, head, zone, ns, z, -, -, rfl⟩ := Draft.mem_sheet hd
  exact Draft.inOrder_ofStatement _ _ _ _ _

theorem ordered_of_bare {o : ReadOptions} {imports : Bool} {text : String}
    (h : bareAll us = (Draft.ofText o imports text).1.map Draft.tree) : Ordered us :=
  Tree.FamiliesOf.of_bareAll (P := fun _ => Rule.InOrder) (familiesOf_of_bare h)

/-- An edit leaves a rule its place among its siblings. -/
theorem Revision.rankAndKind_eq {id : RuleId} (h : s.Revision e id r r') : r'.rankAndKind = r.rankAndKind := by
  have hkind := h.kind_eq.1
  refine Prod.ext ?_ hkind
  have hnone : ∀ {x x' : Rule}, x'.kind = x.kind → x.kind ≠ .margin → x.kind ≠ .featureBlock →
      x'.head.rank? = x.head.rank? := by
    intro x x' hx hm hf
    have hall : ∀ y : Rule, y.kind ≠ .margin → y.kind ≠ .featureBlock → y.head.rank? = none := by
      rintro ⟨head, declarations, context⟩ hm hf
      cases head with
      | margin _ => exact absurd rfl hm
      | featureBlock _ => exact absurd rfl hf
      | _ => rfl
    rw [hall x hm hf, hall x' (by rwa [hx]) (by rwa [hx])]
  cases h with
  | key hk _ | keyframesName hk _ | counterStyleName hk _ =>
      exact hnone hkind (by rw [hk]; decide) (by rw [hk]; decide)
  | selectors hsel =>
      rcases selectorsOf_cases hsel with ⟨hk, -⟩ | ⟨hk, -⟩ <;>
        exact hnone hkind (by rw [hk]; decide) (by rw [hk]; decide)
  | blank _ _ | declared _ _ | removed _ => rfl
  | feature _ hhead hset =>
      obtain ⟨-, rfl⟩ := FeatureValues.set_eq_ok.mp hset
      exact (congrArg RuleHead.rank? hhead).symm
  | noFeature _ hhead => exact (congrArg RuleHead.rank? hhead).symm

/-! ## Where rules are put -/

/-- What may be edited as a list has no blocks of feature values, so whatever comes in is new. -/
theorem isNewAmong_of_hasList (hl : hasList r.kind = true) (ha : r.blockContext.allows r'.kind = true)
    (rs : List Rule) : r'.IsNewAmong rs := by
  intro m hm
  have hk : r'.kind = .featureBlock := congrArg RuleHead.kind (RuleHead.eq_of_features? hm)
  rw [hk, allows_featureBlock hl] at ha
  cases ha

/-- A kind of feature that was not found under a rule is new there. -/
theorem isNewAmong_of_featuresUnder? {f : FeatureType} (h : s.featuresUnder? p f = none) {m : FeatureValues}
    (hm : m.feature = f) (hr : r.head = .featureBlock m) : r.IsNewAmong (s.arena.childRules p) := by
  intro m₀ hm₀ r' hr' m' hm'
  obtain rfl : m = m₀ := by
    rw [hr] at hm₀
    exact Option.some.inj hm₀
  obtain ⟨x, hx, hrule⟩ := List.mem_filterMap.mp hr'
  have hfeatures : s.arena.features? x = some m' := by rw [Arena.features?, hrule, Option.bind_some, hm']
  have hnone := List.find?_eq_none.mp (Option.map_eq_none_iff.mp h) x hx
  rw [hfeatures, Option.any_some, decide_eq_true_eq] at hnone
  rwa [hm]

/-- A rule that is put in its slot under another leaves the siblings there in order. -/
theorem Ordered.graft (hts : Ordered ts) (hs : s.Planted ts) {w : Tree (RuleId × Rule)} {n : Nat}
    (hw : w.Families fun _ vs => Rule.InOrder (vs.map (·.2)))
    (hn : w.value.2.head.rank?.isSome = true → n = s.slot p w.value.2)
    (hnew : w.value.2.IsNewAmong (s.arena.childRules p)) : Ordered (Tree.graftAll p n w ts) := by
  refine Tree.FamiliesOf.graftAll hw (fun e vs h => h.1) (fun e vs he h => ?_) (hts.and hs.forest.holds.families)
  obtain ⟨horder, -, hchildren⟩ := h
  rw [he] at hchildren
  rw [List.map_insertIdx]
  cases hrank : w.value.2.head.rank? with
  | none => exact horder.insertIdx hrank _
  | some k =>
      have hslot : n = Draft.slot w.value.2 (vs.map (·.2)) := by
        rw [← hchildren]
        exact hn (by rw [hrank]; rfl)
      have hle := Draft.slot_le_length w.value.2 (vs.map (·.2))
      rw [← hslot, List.length_map] at hle
      rw [Nat.min_eq_left hle, hslot]
      rw [hchildren] at hnew
      exact horder.insert_slot hnew

/-! ## Every sheet -/

theorem Reshape.ordered (h : Reshape s ts e ns us) (hs : s.Planted ts) (hts : Ordered ts) : Ordered us := by
  cases h with
  | ignored _ => exact hts
  | @revised _ id r f hr hrev =>
      refine (hts.and (hs.everyOf_eq hr).families).mapAll fun b vs h => h.1.of_map_eq ?_
      rw [List.map_map, List.map_map, List.map_map]
      refine List.map_congr_left fun v hv => ?_
      by_cases hid : v.1 = id
      · have hv : v.2 = r := h.2.2 v hv hid
        simp only [Function.comp_apply, if_pos hid, hv]
        exact hrev.rankAndKind_eq
      · simp only [Function.comp_apply, if_neg hid]
  | listed _ _ _ hg => exact hts.insertIdx hg.ordered _
  | @grafted _ _ _ _ _ _ w _ hr hl hg hn =>
      have hkind : w.value.2.kind = _ := (congrArg Rule.kind (Draft.value_of_bare hg.bare)).trans
        (Draft.kind_ofStatement _ _ _ _ _)
      have hallows := (Statement.read_eq_ok.mp hg.read).2.1
      rw [← hkind] at hallows
      exact hts.graft hs hg.ordered hn (isNewAmong_of_hasList hl hallows _)
  | founded hr hk hnone hn hset =>
      obtain ⟨-, rfl⟩ := FeatureValues.set_eq_ok.mp hset
      exact hts.graft hs (Tree.families_node.mpr ⟨List.Pairwise.nil, trivial⟩) (fun _ => hn)
        (isNewAmong_of_featuresUnder? hnone rfl rfl)
  | cut _ _ _ => exact hts.pruneAll fun hsub h => h.sublist (hsub.map _)
  | replaced hbare => exact ordered_of_bare hbare

/-- Whatever was done to a sheet, siblings in it are in order. -/
theorem invariant_inOrder : Invariant fun _ _ ts => Ordered ts where
  empty _ := trivial
  ofText := ordered_of_bare
  switched _ h := h
  reshape hs h hre := hre.ordered hs h

theorem Planted.childRules_inOrder (h : s.Planted ts) (hts : Ordered ts) (hr : s.rule? p = some r) :
    Rule.InOrder (s.arena.childRules p) :=
  h.forest.holds.family (P := fun _ => Rule.InOrder) hts (h.mem_idsOf hr) hr

end Sheet

end StyleTree
