/-
# `Proofs.Arena.Ancestry` — where the links of a forest lead

`Under a r x` says that the parents of `x` lead to `r`.  In a forest the
nodes under the root of a tree are the ids of that tree
(`mem_ids_of_under`, `under_of_mem_ids`), so the parents of every node lead
to one root.  Since the children of all nodes together with the roots are
the ids of the forest (`listed_perm`), every node is listed once.
-/
import StyleTree.Proofs.Arena.Forest

namespace StyleTree.Arena

open StyleTree.Tree (root idsOf)

variable {α : Type} {a : Arena α}

/-- The parents of a node lead to `r`. -/
inductive Under (a : Arena α) (r : RuleId) : RuleId → Prop
  | refl : Under a r r
  | child {p c : RuleId} : Under a r p → a.parent? c = some p → Under a r c

theorem Under.trans {r p c : RuleId} (h : Under a r p) (hc : Under a p c) : Under a r c := by
  induction hc with
  | refl => exact h
  | child _ hpar ih => exact .child ih hpar

theorem Under.mem_ids {r x : RuleId} (h : Under a r x) (hr : r ∈ a.ids) : x ∈ a.ids := by
  cases h with
  | refl => exact hr
  | child _ hpar =>
      rw [parent?, Option.bind_eq_some_iff] at hpar
      obtain ⟨n, hn, -⟩ := hpar
      exact mem_ids_of_get? hn

mutual

theorem under_of_mem_ids {q : Option RuleId} {x : RuleId} : ∀ {t : Tree (RuleId × α)},
    Holds a q t → x ∈ t.ids → Under a t.root x
  | .node e ts, h, hx => by
      rw [Tree.ids_node] at hx
      rcases List.mem_cons.mp hx with rfl | hx
      · exact .refl
      · obtain ⟨t, hpar, hu⟩ := under_of_mem_idsOf h.below hx
        exact (Under.child .refl hpar).trans hu

theorem under_of_mem_idsOf {q : Option RuleId} {x : RuleId} : ∀ {ts : List (Tree (RuleId × α))},
    HoldsAll a q ts → x ∈ idsOf ts → ∃ r, a.parent? r = q ∧ Under a r x
  | [], _, hx => absurd hx List.not_mem_nil
  | t :: ts, h, hx => by
      rw [Tree.idsOf_cons] at hx
      have hh := h
      rw [HoldsAll] at hh
      rcases List.mem_append.mp hx with hx | hx
      · exact ⟨t.root, parent_of_mem_roots h (List.mem_cons_self ..), under_of_mem_ids hh.1 hx⟩
      · exact under_of_mem_idsOf hh.2 hx

end

mutual

/-- The children of a node of a tree are in the tree. -/
theorem mem_ids_of_child {q : Option RuleId} {k c : RuleId} : ∀ {t : Tree (RuleId × α)},
    Holds a q t → k ∈ t.ids → c ∈ a.children k → c ∈ t.ids
  | .node e ts, h, hk, hc => by
      rw [Tree.ids_node] at hk ⊢
      refine List.mem_cons_of_mem _ ?_
      rcases List.mem_cons.mp hk with rfl | hk
      · rw [children, h.get?] at hc
        exact Tree.root_mem_idsOf hc
      · exact mem_idsOf_of_child h.below hk hc

theorem mem_idsOf_of_child {q : Option RuleId} {k c : RuleId} : ∀ {ts : List (Tree (RuleId × α))},
    HoldsAll a q ts → k ∈ idsOf ts → c ∈ a.children k → c ∈ idsOf ts
  | [], _, hk, _ => absurd hk List.not_mem_nil
  | t :: ts, h, hk, hc => by
      rw [HoldsAll] at h
      rw [Tree.idsOf_cons] at hk ⊢
      rcases List.mem_append.mp hk with hk | hk
      · exact List.mem_append_left _ (mem_ids_of_child h.1 hk hc)
      · exact List.mem_append_right _ (mem_idsOf_of_child h.2 hk hc)

end

theorem mem_ids_of_under {ts : List (Tree (RuleId × α))} (h : Forest a ts) {q : Option RuleId}
    {t : Tree (RuleId × α)} (ht : Holds a q t) {x : RuleId} (hx : Under a t.root x) : x ∈ t.ids := by
  induction hx with
  | refl => exact Tree.root_mem_ids t
  | child _ hpar ih => exact mem_ids_of_child ht ih (h.mem_children_iff.mpr hpar)

/-- The parents of every node lead to a root. -/
theorem Forest.exists_under {ts : List (Tree (RuleId × α))} (h : Forest a ts) {x : RuleId}
    (hx : x ∈ a.ids) : ∃ r ∈ ts.map root, Under a r x := by
  obtain ⟨t, ht, hxt⟩ := Tree.mem_idsOf.mp (h.mem_ids.mp hx)
  exact ⟨t.root, List.mem_map.mpr ⟨t, ht, rfl⟩, under_of_mem_ids (holdsAll_iff.mp h.holds t ht) hxt⟩

/-! ## All lists together -/

mutual

theorem ids_perm {q : Option RuleId} : ∀ {t : Tree (RuleId × α)}, Holds a q t →
    (t.root :: t.ids.flatMap a.children).Perm t.ids
  | .node e ts, h => by
      have hc : a.children e.1 = ts.map root := by simp [children, h.get?]
      rw [Tree.root_node, Tree.ids_node, List.flatMap_cons, hc]
      exact (idsOf_perm h.below).cons e.1

theorem idsOf_perm {q : Option RuleId} : ∀ {ts : List (Tree (RuleId × α))}, HoldsAll a q ts →
    (ts.map root ++ (idsOf ts).flatMap a.children).Perm (idsOf ts)
  | [], _ => List.Perm.refl _
  | t :: ts, h => by
      rw [HoldsAll] at h
      rw [List.map_cons, Tree.idsOf_cons, List.flatMap_append]
      have ht := ids_perm h.1
      have hts := idsOf_perm h.2
      calc t.root :: ts.map root ++ (t.ids.flatMap a.children ++ (idsOf ts).flatMap a.children)
          _ = t.root :: (ts.map root ++ t.ids.flatMap a.children) ++ (idsOf ts).flatMap a.children := by
            simp
          List.Perm _ (t.root :: (t.ids.flatMap a.children ++ ts.map root) ++
              (idsOf ts).flatMap a.children) :=
            (List.perm_append_comm.cons t.root).append_right _
          _ = (t.root :: t.ids.flatMap a.children) ++
              (ts.map root ++ (idsOf ts).flatMap a.children) := by simp
          List.Perm _ (t.ids ++ idsOf ts) := ht.append hts

end

/-- The roots and the children of all nodes are the ids in use. -/
theorem Forest.listed_perm {ts : List (Tree (RuleId × α))} (h : Forest a ts) :
    (ts.map root ++ a.ids.flatMap a.children).Perm a.ids :=
  ((h.perm.flatMap_right a.children).symm.append_left _).trans ((idsOf_perm h.holds).trans h.perm)

end StyleTree.Arena
