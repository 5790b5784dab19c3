/-
# `Proofs.Rule.Legible` — rules that were read can be written

The names that stand in a head, and those of feature values, come from the
lexemes of the text (`Statement.Origin`).  They are not empty where a name is
asked for and are free of U+0000, so they are read back when they are
written.
-/
import StyleTree.Proofs.Rule.Features
import StyleTree.Proofs.Rule.Preludes

namespace StyleTree

open ComponentValue Statement

/-- The names in the head can be written and read back, and so can those of feature values. -/
structure Rule.IsLegible (r : Rule) : Prop where
  head : r.head.IsLegible
  features : ∀ m, r.head = .featureBlock m → ∀ e ∈ m.entries, Text.IsName e.1

namespace Rule

variable {o : ReadOptions} {ns : Namespaces} {c : RuleContext} {r : Rule} {ds : List WrittenDeclaration}

theorem isLegible_fresh {t : Statement} {head : RuleHead} (ht : (Item.rule t).IsLegible)
    (h : t.read c ns = .ok head) : (fresh head c).IsLegible where
  head := RuleHead.isLegible_of_ofPrelude? ht.1 (read_eq_ok.mp h).2.2
  features := by
    rintro m (rfl : head = .featureBlock m)
    obtain ⟨f, hf⟩ := Draft.head_of_read h rfl
    cases hf
    exact List.forall_mem_nil _

theorem IsLegible.withDeclarations (h : r.IsLegible) (hds : ∀ d ∈ ds, (Item.declaration d).IsLegible) :
    (r.withDeclarations o ds).IsLegible := by
  rcases head_withDeclarations o r ds with hhead | ⟨m, hm, hhead⟩
  · exact ⟨hhead ▸ h.head, fun m hm => h.features m (hhead.symm.trans hm)⟩
  · refine ⟨by rw [hhead]; trivial, fun m' hm' => ?_⟩
    cases hhead.symm.trans hm'
    exact FeatureValues.names_declareAll (h.features m hm) hds

theorem isLegible_ofScope (o : ReadOptions) (ds : List WrittenDeclaration) : (ofScope o ds).IsLegible :=
  ⟨trivial, by rintro m ⟨⟩⟩

theorem takesUp_isLegible : Draft.TakesUp IsLegible := by
  intro r r' old m hr hr' hold hm _
  refine ⟨trivial, ?_⟩
  rintro m' ⟨⟩
  exact FeatureValues.names_merge (hr.features old hold) (hr'.features m hm)

end Rule

namespace Draft

/-- All rules of a text can be written. -/
theorem everyOf_isLegible (o : ReadOptions) (imports : Bool) (text : String) :
    Tree.EveryOf Rule.IsLegible ((ofText o imports text).1.map tree) := by
  rw [Tree.everyOf_iff]
  intro t ht
  obtain ⟨d, hd, rfl⟩ := List.mem_map.mp ht
  obtain ⟨st, head, zone, ns, z, hst, htop, rfl⟩ := mem_sheet hd
  have hlegible : (Item.rule st).IsLegible := isLegible_split (legible_ofText text) hst
  refine every_tree Rule.takesUp_isLegible ?_
  refine every_ofStatement_of (I := Item.IsLegible) ?_ ?_ ?_ ?_ _ head st hlegible ?_
  · exact fun ht hvs item hitem => isLegible_split (ht.2 _ hvs) hitem
  · exact fun r ds hds hr => hr.withDeclarations hds
  · exact fun ds _ => Rule.isLegible_ofScope o ds
  · exact fun ht hread => Rule.isLegible_fresh ht hread
  · exact Rule.isLegible_fresh hlegible (readTop?_eq_some.mp htop).1

end Draft

end StyleTree
