/-
# `Proofs.Sheet.Text` — what a sheet writes

A sheet is written by reading the trees off its links, down to a depth
that bounds the recursion.  In a forest this depth is enough and the trees
read are those of the forest (`Planted.forest_eq`), so that every rule of
the sheet is written, and none twice (`forest_covers_sheet`).

What is written need not be read back.  A medium is written without the
escapes its name was read with, so a name that needs one becomes another
token (`text_not_reread`).
-/
import StyleTree.Proofs.Sheet.Links

namespace StyleTree

open StyleTree.Tree (root idsOf)

namespace Arena

variable {α : Type} {a : Arena α}

theorem filterMap_roots {f : RuleId → Option (Tree (RuleId × α))} :
    ∀ {ts : List (Tree (RuleId × α))}, (∀ t ∈ ts, f t.root = some t) → (ts.map root).filterMap f = ts
  | [], _ => rfl
  | t :: ts, h => by
      rw [List.map_cons, List.filterMap_cons_some (h t List.mem_cons_self),
        filterMap_roots fun u hu => h u (List.mem_cons_of_mem _ hu)]

/-- A tree that is held is what is read, if the depth is that of the tree or more. -/
theorem treeFrom_eq (depth : Nat) : ∀ {q : Option RuleId} {t : Tree (RuleId × α)}, Holds a q t →
    t.ids.length ≤ depth → a.treeFrom depth t.root = some t := by
  induction depth with
  | zero =>
      rintro q ⟨e, ts⟩ _ hd
      rw [Tree.ids_node] at hd
      exact absurd hd (by simp)
  | succ depth ih =>
      rintro q ⟨e, ts⟩ h hd
      rw [Tree.ids_node, List.length_cons] at hd
      have hts : (ts.map root).filterMap (a.treeFrom depth) = ts := by
        refine filterMap_roots fun t ht => ih (holdsAll_iff.mp h.below t ht) ?_
        have := length_ids_le_of_mem ht
        omega
      rw [Tree.root_node, treeFrom, h.get?, Option.map_some]
      simp only
      rw [hts]

theorem Forest.tree?_eq {ts : List (Tree (RuleId × α))} (h : Forest a ts) {t : Tree (RuleId × α)}
    (ht : t ∈ ts) : a.tree? t.root = some t := by
  have hlen := length_ids_le_of_mem ht
  rw [h.perm.length_eq, ← size_eq] at hlen
  exact treeFrom_eq a.size (holdsAll_iff.mp h.holds t ht) hlen

end Arena

namespace Sheet

variable {s : Sheet} {ts : List (Tree (RuleId × Rule))}

theorem Planted.forest_eq (h : s.Planted ts) : s.forest = ts := by
  rw [Sheet.forest, ← h.roots]
  exact Arena.filterMap_roots fun t ht => h.forest.tree?_eq ht

theorem IsForest.planted (h : s.IsForest) : s.Planted s.forest := by
  obtain ⟨ts, hts⟩ := h
  rw [hts.forest_eq]
  exact hts

end Sheet

namespace SharedSheet

variable {σ : SharedSheet}

/-- Whatever was done to a sheet, what is written is each of its rules once, under the top level. -/
theorem forest_covers_sheet (h : σ.Reachable) :
    (idsOf σ.sheet.forest).Perm σ.sheet.arena.ids ∧ σ.sheet.forest.map root = σ.sheet.rules :=
  have hp := (isForest_of_reachable h).planted
  ⟨hp.forest.perm, hp.roots⟩

/-- The medium `1x`, whose first character was escaped, is written without the escape; read again it is
a dimension, and so no medium. -/
theorem text_not_reread :
    ¬ ∀ text : String, (Sheet.read .scripted (Sheet.read .scripted text).text).text =
      (Sheet.read .scripted text).text := by
  intro h
  have := h "@media \\31 x{}"
  revert this
  decide +kernel

end SharedSheet

end StyleTree
