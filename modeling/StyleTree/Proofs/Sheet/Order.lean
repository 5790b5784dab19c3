/-
# `Proofs.Sheet.Order` — imports, namespaces, and all other rules

The order at the top level is watched in two ways.  While a text is read, a
zone goes along and refuses what comes too late.  When a rule is inserted,
the list with the new rule in it is read from the front.  When a rule is
deleted nothing is looked at: what is left of a list that falls into
imports, namespaces and other rules falls into them as well
(`Zone.InOrder.sublist`).

`InZones` has this about the trees of a sheet, and that there are no
imports among them if a script made the sheet.  Below the top level there
are neither imports nor namespaces, since no block admits them.
-/
import StyleTree.Proofs.Rule.Order
import StyleTree.Proofs.Sheet.Contexts
import StyleTree.Proofs.Sheet.Prefixes

namespace StyleTree

open StyleTree.Tree (adjustAll graftAll pruneAll bareAll)

namespace Sheet

variable {s : Sheet} {ts us : List (Tree (RuleId × Rule))} {e : Edit} {ns : Namespaces}

/-! ## The kinds at the roots -/

/-- The kinds of the rules at the roots. -/
def topKinds (ts : List (Tree (RuleId × Rule))) : List RuleKind := ts.map fun t => t.value.2.kind

theorem Planted.kinds_eq (h : s.Planted ts) : s.kinds = topKinds ts := by
  rw [kinds, h.top_rules, tops, List.map_map]
  rfl

theorem topKinds_insertIdx (ts : List (Tree (RuleId × Rule))) (i : Nat) (w : Tree (RuleId × Rule)) :
    topKinds (ts.insertIdx i w) = (topKinds ts).insertIdx i w.value.2.kind := by
  rw [topKinds, List.map_insertIdx, topKinds]

theorem topKinds_graftAll {p : RuleId} {n : Nat} {w : Tree (RuleId × Rule)} :
    topKinds (graftAll p n w ts) = topKinds ts := by
  rw [topKinds, Tree.graftAll_eq_map, List.map_map]
  refine List.map_congr_left fun t _ => ?_
  rw [Function.comp_apply, Tree.value_graft]

theorem topKinds_pruneAll (id : RuleId) (ts : List (Tree (RuleId × Rule))) :
    (topKinds (pruneAll id ts)).Sublist (topKinds ts) := by
  have heq : topKinds (pruneAll id ts) = topKinds (ts.filter fun t => t.root ≠ id) := by
    rw [topKinds, Tree.pruneAll_eq_map, List.map_map]
    refine List.map_congr_left fun t _ => ?_
    rw [Function.comp_apply, Tree.value_prune]
  rw [heq]
  exact List.filter_sublist.map _

theorem topKinds_adjustAll (h : s.Planted ts) {id : RuleId} {r : Rule} {f : Rule → Rule}
    (hr : s.rule? id = some r) (hk : (f r).kind = r.kind) : topKinds (adjustAll id f ts) = topKinds ts := by
  rw [topKinds, Tree.adjustAll_eq_map, List.map_map]
  refine List.map_congr_left fun t ht => ?_
  rw [Function.comp_apply, Tree.value_adjust]
  split
  · next hid =>
      have hrule := h.rule?_root ht
      rw [hid, hr, Option.some.injEq] at hrule
      rw [← hrule, hk]
  · rfl

theorem topKinds_eq_map_bareAll (ts : List (Tree (RuleId × Rule))) :
    topKinds ts = (bareAll ts).map fun t => t.value.kind := by
  rw [topKinds, Tree.bareAll_eq_map, List.map_map]
  refine List.map_congr_left fun t _ => ?_
  rw [Function.comp_apply, Tree.value_bare]

theorem topKinds_of_bare {ds : List Draft} (h : bareAll us = ds.map Draft.tree) :
    topKinds us = ds.map fun d => d.value.kind := by
  rw [topKinds_eq_map_bareAll, h, List.map_map]
  refine List.map_congr_left fun d _ => ?_
  rw [Function.comp_apply, Draft.value_tree]

/-! ## The trees of a sheet -/

/-- The roots are in order, and none of them is an import if a script made the sheet. -/
structure InZones (c : HostSettings) (ts : List (Tree (RuleId × Rule))) : Prop where
  inOrder : Zone.InOrder (topKinds ts)
  no_import : c.constructed = true → .importRule ∉ topKinds ts

theorem InZones.of_eq {c : HostSettings} (h : InZones c ts) (hk : topKinds us = topKinds ts) :
    InZones c us :=
  ⟨hk ▸ h.inOrder, hk ▸ h.no_import⟩

theorem inZones_ofText {c : HostSettings} {text : String}
    (h : bareAll us = (Draft.ofText c.options (!c.constructed) text).1.map Draft.tree) :
    InZones c us := by
  constructor
  · rw [topKinds_of_bare h, ← Zone.accepts_iff_inOrder]
    exact Zone.behind_sheet _ _ _ _ _
  · intro hc hk
    rw [topKinds_of_bare h, Draft.ofText, hc] at hk
    obtain ⟨d, hd, hkind⟩ := List.mem_map.mp hk
    exact Zone.no_import_sheet hd hkind

theorem topLevelAdmits_eq_ok {k : RuleKind} {i : Nat} {v : Unit} :
    s.topLevelAdmits k i = .ok v ↔
      Zone.accepts (s.kinds.insertIdx i k) = true ∧ (k = .namespaceRule → s.hasBody = false) := by
  unfold topLevelAdmits
  by_cases hacc : Zone.accepts (s.kinds.insertIdx i k) = true
  · by_cases hk : k = .namespaceRule
    · subst hk
      cases s.hasBody <;> simp [hacc]
    · simp [hacc, hk]
  · simp [hacc]

theorem Reshape.inZones (h : Reshape s ts e ns us) (hs : s.Planted ts) (hz : InZones s.settings ts) :
    InZones s.settings us := by
  cases h with
  | ignored _ => exact hz
  | revised hr hrev => exact hz.of_eq (topKinds_adjustAll hs hr hrev.kind_eq.1)
  | @listed _ i st head w hi _ hadmits hg =>
      obtain ⟨himport, -, htop⟩ := admits_eq_ok.mp hadmits
      have hk : w.value.2.kind = head.kind := (kind_of_bare hg.bare).trans (Draft.kind_ofStatement ..)
      constructor
      · obtain ⟨hacc, -⟩ := topLevelAdmits_eq_ok.mp (htop rfl)
        rw [hs.kinds_eq, Zone.accepts_iff_inOrder] at hacc
        rw [topKinds_insertIdx, hk]
        exact hacc
      · intro hc hm
        rw [topKinds_insertIdx, hk] at hm
        rcases List.eq_or_mem_of_mem_insertIdx hm with hm | hm
        · exact himport ⟨hm.symm, hc⟩
        · exact hz.no_import hc hm
  | grafted _ _ _ _ _ | founded _ _ _ _ _ => exact hz.of_eq topKinds_graftAll
  | @cut _ id _ _ _ _ =>
      have hsub := topKinds_pruneAll id ts
      exact ⟨hz.inOrder.sublist hsub, fun hc hm => hz.no_import hc (hsub.subset hm)⟩
  | replaced hbare => exact inZones_ofText hbare

theorem invariant_inZones : Invariant fun c _ => InZones c where
  empty _ := ⟨⟨[], [], [], rfl, by simp, by simp, by simp [Zone.Body]⟩, fun _ hm => by cases hm⟩
  ofText := inZones_ofText
  switched _ h := ⟨h.inOrder, h.no_import⟩
  reshape hs h hre := hre.inZones hs h

/-! ## The rules of a sheet -/

/-- The top level is in order, and what has a place of its own in that order stands nowhere else. -/
structure InOrder (s : Sheet) : Prop where
  /-- No rule at the top level is without a kind. -/
  kinds_eq : s.rules.map (fun id => (s.rule? id).map Rule.kind) = s.kinds.map some
  parts : Zone.InOrder s.kinds
  accepts : Zone.accepts s.kinds = true
  at_top : ∀ id r, s.rule? id = some r → r.kind = .importRule ∨ r.kind = .namespaceRule → id ∈ s.rules
  no_import : s.settings.constructed = true → ∀ id r, s.rule? id = some r → r.kind ≠ .importRule

/-- Below the top level each rule is in a block, and no block admits imports or namespaces. -/
theorem InContext.mem_rules (h : s.InContext) (hl : s.Linked) {id : RuleId} {r : Rule}
    (hr : s.rule? id = some r) (hk : r.kind = .importRule ∨ r.kind = .namespaceRule) : id ∈ s.rules := by
  have hlisted := (hl.mem_listed_iff id).mpr (Arena.contains_iff.mpr (mem_ids_of_rule? hr))
  rcases List.mem_append.mp hlisted with htop | hchild
  · exact htop
  · obtain ⟨p, -, hp⟩ := List.mem_flatMap.mp hchild
    obtain ⟨rp, -, hrp, -, -⟩ := h.child p id hp
    have hstylesheet := RuleContext.eq_stylesheet_of_allows hk (h.allows_child hp hrp hr)
    exact absurd hstylesheet (RuleKind.blockContext_ne_stylesheet _ _)

theorem Planted.map_rule? (h : s.Planted ts) :
    s.rules.map (fun id => (s.rule? id).map Rule.kind) = (topKinds ts).map some := by
  rw [← h.roots, topKinds, List.map_map, List.map_map]
  refine List.map_congr_left fun t ht => ?_
  simp only [Function.comp_apply, h.rule?_root ht, Option.map_some]

theorem Planted.inOrder (h : s.Planted ts) (hz : InZones s.settings ts) (hc : s.InContext) :
    s.InOrder := by
  have hkinds := h.kinds_eq
  have hl : s.Linked := IsForest.linked ⟨ts, h⟩
  constructor
  · rw [hkinds]
    exact h.map_rule?
  · rw [hkinds]
    exact hz.inOrder
  · rw [hkinds, Zone.accepts_iff_inOrder]
    exact hz.inOrder
  · intro id r hr hk
    exact hc.mem_rules hl hr hk
  · intro hcons id r hr hk
    have htop := hc.mem_rules hl hr (Or.inl hk)
    refine hz.no_import hcons ?_
    have hmem : some RuleKind.importRule ∈ (topKinds ts).map some := by
      rw [← h.map_rule?]
      exact List.mem_map.mpr ⟨id, htop, by rw [hr, Option.map_some, hk]⟩
    obtain ⟨k, hk', heq⟩ := List.mem_map.mp hmem
    exact Option.some.inj heq ▸ hk'

end Sheet

namespace SharedSheet

/-- Whatever was done to a sheet, its top level falls into imports and layer statements, namespaces, and
rules that are neither imports nor namespaces; there are none of these anywhere else, and no imports at
all if a script made the sheet. -/
theorem top_level_in_order {σ : SharedSheet} (h : σ.Reachable) :
    σ.sheet.InOrder ∧ ∀ ks, Zone.accepts ks = true ↔ Zone.InOrder ks := by
  obtain ⟨ts, hs, hz⟩ := Sheet.invariant_inZones.of_reachable h
  obtain ⟨us, hus, hfit⟩ := Sheet.invariant_fits.of_reachable h
  exact ⟨hs.inOrder hz (hus.inContext hfit), Zone.accepts_iff_inOrder⟩

/-- A layer statement among the imports and one behind the namespaces, when an import has been inserted
and another one deleted. -/
theorem top_level_in_order_layers :
    let σ := (ofSheet (Sheet.read { HostSettings.scripted with constructed := false }
      "@import url(i);@layer a;@namespace url(u);@layer b;c{}")).steps
        [.edit (.insert .top "@import url(j);" 2), .edit (.delete .top 0)]
    σ.sheet.InOrder ∧ (∀ ks, Zone.accepts ks = true ↔ Zone.InOrder ks) ∧
      σ.sheet.kinds = [.layerStatement, .importRule, .namespaceRule, .layerStatement, .style] := by
  intro σ
  have hσ : σ.Reachable := ⟨_, _, .read _ _, rfl⟩
  refine ⟨(top_level_in_order hσ).1, (top_level_in_order hσ).2, ?_⟩
  decide +kernel

end SharedSheet

end StyleTree
