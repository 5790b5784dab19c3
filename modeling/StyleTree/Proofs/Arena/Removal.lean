/-
# `Proofs.Arena.Removal` — a subtree leaves an arena

Removing and moving a subtree both begin with unlinking its root, which
makes the subtree a tree of its own in the forest (`forest_unlink`), and
then erase its nodes, in one order or another (`forest_erase`).  What has
to be shown of the two orders is that they visit the ids of the tree and no
others.  Both walk along links and stop at a depth; the depth they are
given is the number of nodes, and a tree is no deeper than its number of
ids.
-/
import StyleTree.Proofs.Arena.Forest

namespace StyleTree.Arena

open StyleTree.Tree (root idsOf prune pruneAll)

variable {α : Type} {a b : Arena α} {x k : RuleId}

/-! ## Unlinking -/

theorem filter_ne_self {l : List RuleId} (h : x ∉ l) : l.filter (· ≠ x) = l :=
  List.filter_eq_self.mpr fun y hy => by simpa using fun e : y = x => h (e ▸ hy)

theorem unlink_eq_self (h : a.parent? x = none) : a.unlink x = a := by
  rw [unlink, h]

theorem get?_unlink_of_parent {p : RuleId} (h : a.parent? x = some p) (k : RuleId) :
    (a.unlink x).get? k =
      (a.get? k).map fun n =>
        ⟨n.value, if k = x then none else n.parent,
          if k = p then n.children.filter (· ≠ x) else n.children⟩ := by
  rw [unlink, h]
  simp only [get?_modify]
  cases hk : a.get? k with
  | none => simp
  | some n =>
      by_cases hkx : k = x <;> by_cases hkp : k = p
      · simp only [if_pos hkx, if_pos hkp, Option.map_some]
      · simp only [if_pos hkx, if_neg hkp, Option.map_some]
      · simp only [if_neg hkx, if_pos hkp, Option.map_some]
      · simp only [if_neg hkx, if_neg hkp, Option.map_some]

/-- Behind `unlink` every node has lost the unlinked one from its children. -/
theorem get?_unlink {ts : List (Tree (RuleId × α))} (h : Forest a ts) (k : RuleId) :
    (a.unlink x).get? k =
      (a.get? k).map fun n =>
        ⟨n.value, if k = x then none else n.parent, n.children.filter (· ≠ x)⟩ := by
  cases hp : a.parent? x with
  | none =>
      rw [unlink_eq_self hp]
      cases hk : a.get? k with
      | none => rfl
      | some n =>
          have hx : x ∉ n.children := by
            intro hx
            have : x ∈ a.children k := by simpa [children, hk] using hx
            rw [h.mem_children_iff, hp] at this
            exact absurd this (by simp)
          rw [Option.map_some, filter_ne_self hx]
          split
          · next hkx =>
              subst hkx
              rw [parent?, hk, Option.bind_some] at hp
              rw [← hp]
          · rfl
  | some p =>
      rw [get?_unlink_of_parent hp]
      cases hk : a.get? k with
      | none => rfl
      | some n =>
          by_cases hkp : k = p
          · simp [hkp]
          · have hx : x ∉ n.children := by
              intro hx
              have : x ∈ a.children k := by simpa [children, hk] using hx
              rw [h.mem_children_iff, hp, Option.some.injEq] at this
              exact hkp this.symm
            simp only [Option.map_some, if_neg hkp, filter_ne_self hx]

theorem ids_unlink (a : Arena α) (x : RuleId) : (a.unlink x).ids = a.ids := by
  unfold unlink
  split
  · rfl
  · rw [ids_modify, ids_modify]

/-! ## The subtree at a node -/

mutual

/-- A node below the root has a subtree, and the ids are those of the subtree and of the rest. -/
theorem exists_cut {q : Option RuleId} : ∀ {t : Tree (RuleId × α)}, Holds a q t → t.ids.Nodup →
    x ∈ t.ids → x ≠ t.root →
      ∃ w p, w.root = x ∧ Holds a p w ∧ t.ids.Perm (w.ids ++ (prune x t).ids)
  | .node e ts, h, hn, hx, hr => by
      rw [Tree.ids_node] at hn hx
      have hx : x ∈ idsOf ts := (List.mem_cons.mp hx).resolve_left hr
      obtain ⟨w, p, hw, hh, hp⟩ := exists_cut_all h.below (List.nodup_cons.mp hn).2 hx
      refine ⟨w, p, hw, hh, ?_⟩
      rw [prune, Tree.ids_node, Tree.ids_node]
      exact (hp.cons e.1).trans List.perm_middle.symm

theorem exists_cut_all {q : Option RuleId} : ∀ {ts : List (Tree (RuleId × α))}, HoldsAll a q ts →
    (idsOf ts).Nodup → x ∈ idsOf ts →
      ∃ w p, w.root = x ∧ Holds a p w ∧ (idsOf ts).Perm (w.ids ++ idsOf (pruneAll x ts))
  | [], _, _, hx => absurd hx List.not_mem_nil
  | t :: ts, h, hn, hx => by
      rw [HoldsAll] at h
      rw [Tree.idsOf_cons] at hn hx
      obtain ⟨ht, hts, hd⟩ := List.nodup_append'.mp hn
      rw [pruneAll]
      by_cases hr : t.root = x
      · rw [if_pos hr, Tree.pruneAll_of_not_mem ts (hd (hr ▸ Tree.root_mem_ids t)), Tree.idsOf_cons]
        exact ⟨t, q, hr, h.1, List.Perm.refl _⟩
      · rw [if_neg hr, Tree.idsOf_cons, Tree.idsOf_cons]
        rcases List.mem_append.mp hx with hx | hx
        · obtain ⟨w, p, hw, hh, hp⟩ := exists_cut h.1 ht hx (Ne.symm hr)
          refine ⟨w, p, hw, hh, ?_⟩
          rw [Tree.pruneAll_of_not_mem ts (hd hx), ← List.append_assoc]
          exact hp.append_right _
        · obtain ⟨w, p, hw, hh, hp⟩ := exists_cut_all h.2 hts hx
          refine ⟨w, p, hw, hh, ?_⟩
          rw [Tree.prune_of_not_mem t (fun ht => hd ht hx)]
          refine (hp.append_left t.ids).trans ?_
          rw [← List.append_assoc, ← List.append_assoc]
          exact List.perm_append_comm.append_right _

end

mutual

theorem holds_prune {q : Option RuleId}
    (hb : ∀ k, k ≠ x → b.get? k = (a.get? k).map fun n =>
      ⟨n.value, n.parent, n.children.filter (· ≠ x)⟩) :
    ∀ {t : Tree (RuleId × α)}, Holds a q t → t.root ≠ x → Holds b q (prune x t)
  | .node e ts, h, hr => by
      rw [prune, Holds, hb e.1 hr, h.get?, Tree.roots_pruneAll]
      exact ⟨rfl, holdsAll_prune hb h.below⟩

theorem holdsAll_prune {q : Option RuleId}
    (hb : ∀ k, k ≠ x → b.get? k = (a.get? k).map fun n =>
      ⟨n.value, n.parent, n.children.filter (· ≠ x)⟩) :
    ∀ {ts : List (Tree (RuleId × α))}, HoldsAll a q ts → HoldsAll b q (pruneAll x ts)
  | [], _ => trivial
  | t :: ts, h => by
      rw [HoldsAll] at h
      rw [pruneAll]
      by_cases hr : t.root = x
      · rw [if_pos hr]
        exact holdsAll_prune hb h.2
      · rw [if_neg hr, HoldsAll]
        exact ⟨holds_prune hb h.1 hr, holdsAll_prune hb h.2⟩

end

/-- The subtree at a node becomes a tree of its own. -/
theorem forest_unlink {ts : List (Tree (RuleId × α))} (h : Forest a ts) (hx : x ∈ a.ids) :
    ∃ w p, w.root = x ∧ Holds a p w ∧ Forest (a.unlink x) (w :: pruneAll x ts) := by
  obtain ⟨w, p, hw, hh, hp⟩ := exists_cut_all h.holds h.nodup (h.mem_ids.mp hx)
  refine ⟨w, p, hw, hh, (evolves_unlink a x h.versioned).1, ?_, ?_⟩
  · have hb : ∀ k, k ≠ x → (a.unlink x).get? k = (a.get? k).map fun n =>
        ⟨n.value, n.parent, n.children.filter (· ≠ x)⟩ := by
      intro k hk
      simp only [get?_unlink h k, if_neg hk]
    rw [HoldsAll]
    refine ⟨?_, holdsAll_prune hb h.holds⟩
    -- Below `x` nothing is cut off, since `x` occurs only once.
    obtain ⟨e, us⟩ := w
    rw [Tree.root_node] at hw
    have hn := hp.nodup_iff.mp h.nodup
    rw [Tree.ids_node, List.cons_append, List.nodup_cons, List.mem_append, not_or, hw] at hn
    rw [Holds, hw, get?_unlink h x, ← hw, hh.get?, hw]
    simp only [Option.map_some, if_true]
    rw [filter_ne_self fun hm => hn.1.1 (Tree.root_mem_idsOf hm),
      ← Tree.pruneAll_of_not_mem us hn.1.1]
    exact ⟨rfl, holdsAll_prune hb (hw ▸ hh.below)⟩
  · rw [Tree.idsOf_cons, ids_unlink]
    exact hp.symm.trans h.perm

/-! ## Erasing a tree -/

theorem evolves_foldl_erase (is : List RuleId) (a : Arena α) : Evolves a (is.foldl erase a) :=
  evolves_foldl erase evolves_erase is a

/-- Without the ids of one tree the arena has the others. -/
theorem forest_erase {w : Tree (RuleId × α)} {us : List (Tree (RuleId × α))}
    (h : Forest a (w :: us)) {is : List RuleId} (hi : ∀ id, id ∈ is ↔ id ∈ w.ids) :
    Forest (is.foldl erase a) us where
  versioned := (evolves_foldl_erase is a h.versioned).1
  holds := by
    have hh := h.holds
    rw [HoldsAll] at hh
    refine holdsAll_congr (fun id hid => ?_) hh.2
    rw [get?_foldl_erase, if_neg]
    intro hm
    exact h.disjoint id ((hi id).mp hm) hid
  perm := by
    rw [ids_foldl_erase]
    have hp := h.perm.filter (· ∉ is)
    rw [Tree.idsOf_cons, List.filter_append] at hp
    have hw : w.ids.filter (· ∉ is) = [] :=
      List.filter_eq_nil_iff.mpr fun id hid => by simpa using (hi id).mpr hid
    have hu : (idsOf us).filter (· ∉ is) = idsOf us :=
      List.filter_eq_self.mpr fun id hid => by
        simpa using fun hm => h.disjoint id ((hi id).mp hm) hid
    rwa [hw, hu, List.nil_append] at hp

theorem length_ids_le {w : Tree (RuleId × α)} {us : List (Tree (RuleId × α))}
    (h : Forest a (w :: us)) : w.ids.length ≤ a.size := by
  have := h.perm.length_eq
  rw [Tree.idsOf_cons, List.length_append] at this
  rw [size_eq]
  omega

theorem length_ids_le_of_mem {t : Tree (RuleId × α)} {ts : List (Tree (RuleId × α))} (h : t ∈ ts) :
    t.ids.length ≤ (idsOf ts).length := by
  obtain ⟨us, vs, rfl⟩ := List.append_of_mem h
  simp only [Tree.idsOf_append, Tree.idsOf_cons, List.length_append]
  omega

/-! ## Removing a subtree -/

/-- The nodes below the root of a tree are its ids but for the root. -/
theorem mem_below_iff (depth : Nat) : ∀ {q : Option RuleId} {t : Tree (RuleId × α)}, Holds a q t →
    t.ids.length ≤ depth → ∀ {y : RuleId}, y ∈ a.below depth t.root ↔ y ∈ idsOf t.children := by
  induction depth with
  | zero =>
      rintro q ⟨e, ts⟩ _ hd
      rw [Tree.ids_node] at hd
      exact absurd hd (by simp)
  | succ depth ih =>
      rintro q ⟨e, ts⟩ h hd id
      rw [Tree.ids_node, List.length_cons] at hd
      rw [Tree.root_node, below, h.children, Tree.children, Tree.mem_idsOf, List.mem_flatMap]
      constructor
      · rintro ⟨c, hcm, hid⟩
        obtain ⟨t, ht, rfl⟩ := List.mem_map.mp hcm
        refine ⟨t, ht, ?_⟩
        rcases List.mem_append.mp hid with hid | hid
        · obtain ⟨f, us⟩ := t
          have hle := length_ids_le_of_mem ht
          rw [Tree.ids_node]
          refine List.mem_cons_of_mem _ ((ih (holdsAll_iff.mp h.below _ ht) ?_).mp hid)
          omega
        · rw [List.mem_singleton] at hid
          exact hid ▸ Tree.root_mem_ids t
      · rintro ⟨t, ht, hid⟩
        refine ⟨t.root, List.mem_map.mpr ⟨t, ht, rfl⟩, ?_⟩
        obtain ⟨f, us⟩ := t
        have hle := length_ids_le_of_mem ht
        rw [Tree.ids_node] at hid
        rcases List.mem_cons.mp hid with rfl | hid
        · exact List.mem_append_right _ (List.mem_singleton.mpr rfl)
        · refine List.mem_append_left _ ((ih (holdsAll_iff.mp h.below _ ht) ?_).mpr hid)
          omega

/-- A node of a forest has a subtree, which is a tree of its own once its root is unlinked. -/
theorem exists_subtree {ts : List (Tree (RuleId × α))} (h : Forest a ts) (hx : x ∈ a.ids) :
    ∃ w p, w.root = x ∧ Holds a p w ∧ Holds (a.unlink x) none w ∧ w.ids.Nodup ∧
      w.ids.length ≤ a.size ∧ Forest (a.unlink x) (w :: pruneAll x ts) := by
  obtain ⟨w, p, hw, hh, hf⟩ := forest_unlink h hx
  have hle := length_ids_le hf
  rw [size_eq, ids_unlink, ← size_eq] at hle
  have hn := hf.nodup
  rw [Tree.idsOf_cons] at hn
  have hown := hf.holds
  rw [HoldsAll] at hown
  exact ⟨w, p, hw, hh, hown.1, (List.nodup_append'.mp hn).1, hle, hf⟩

theorem removeSubtree_eq (a : Arena α) (x : RuleId) :
    a.removeSubtree x = (a.descendants x ++ [x]).foldl erase (a.unlink x) := by
  rw [removeSubtree, List.foldl_append]
  rfl

/-- The nodes that are removed are the ids of the tree. -/
theorem mem_descendants_iff {q : Option RuleId} {w : Tree (RuleId × α)} (h : Holds a q w)
    (hle : w.ids.length ≤ a.size) : k ∈ a.descendants w.root ++ [w.root] ↔ k ∈ w.ids := by
  obtain ⟨e, us⟩ := w
  have hb := mem_below_iff a.size h hle (y := k)
  rw [Tree.root_node] at hb ⊢
  rw [descendants, List.mem_append, hb, List.mem_singleton, Tree.ids_node, List.mem_cons]
  exact Or.comm

theorem forest_removeSubtree {ts : List (Tree (RuleId × α))} (h : Forest a ts) (hx : x ∈ a.ids) :
    ∃ w p, w.root = x ∧ Holds a p w ∧ Forest (a.removeSubtree x) (pruneAll x ts) ∧
      ∀ id, id ∈ (a.removeSubtree x).ids ↔ id ∈ a.ids ∧ id ∉ w.ids := by
  obtain ⟨w, p, rfl, hh, -, -, hle, hf⟩ := exists_subtree h hx
  refine ⟨w, p, rfl, hh, ?_, fun id => ?_⟩
  · rw [removeSubtree_eq]
    exact forest_erase hf fun _ => mem_descendants_iff hh hle
  · rw [removeSubtree_eq, ids_foldl_erase, ids_unlink, List.mem_filter, decide_eq_true_eq,
      mem_descendants_iff hh hle]

/-! ## Moving a subtree -/

theorem evolves_transfer (depth : Nat) : ∀ (id : RuleId) (p : Pair α),
    Evolves p.source (transfer depth id p).2.source := by
  induction depth with
  | zero =>
      intro _ p
      exact Evolves.refl p.source
  | succ depth ih =>
      intro id p
      rw [transfer]
      cases hg : p.source.get? id with
      | none => exact Evolves.refl p.source
      | some n =>
          refine (evolves_erase p.source id).trans ?_
          simp only
          -- The children are moved one after the other.
          generalize hq : (⟨p.source.erase id, (p.target.insert n.value).1⟩ : Pair α) = q
          have hs : p.source.erase id = q.source := by rw [← hq]
          rw [hs]
          clear hq hs
          generalize ([] : List RuleId) = moved
          induction n.children generalizing q moved with
          | nil => exact Evolves.refl q.source
          | cons c cs ihc => exact (ih c q).trans (ihc _ _)

mutual

/-- Moving a tree takes its ids from the source, each before those below it. -/
theorem transfer_source : ∀ (depth : Nat) {q : Option RuleId} {t : Tree (RuleId × α)} (p : Pair α),
    Holds p.source q t → t.ids.Nodup → t.ids.length ≤ depth →
      (transfer depth t.root p).1.isSome ∧
        (transfer depth t.root p).2.source = t.ids.foldl erase p.source
  | 0, _, .node e ts, _, _, _, hd => by
      rw [Tree.ids_node] at hd
      exact absurd hd (by simp)
  | depth + 1, q, .node e ts, p, h, hn, hd => by
      rw [Tree.ids_node] at hn hd
      rw [List.length_cons] at hd
      obtain ⟨hets, hts⟩ := List.nodup_cons.mp hn
      rw [Tree.root_node, transfer, h.get?]
      refine ⟨rfl, ?_⟩
      simp only
      rw [Tree.ids_node, List.foldl_cons]
      refine transfer_source_all depth _ _ (holdsAll_congr (fun id hid => ?_) h.below) hts ?_
      · rw [get?_erase, if_neg]
        rintro rfl
        exact hets hid
      · omega

theorem transfer_source_all : ∀ (depth : Nat) {q : Option RuleId} {ts : List (Tree (RuleId × α))}
    (moved : List RuleId) (p : Pair α), HoldsAll p.source q ts → (idsOf ts).Nodup →
      (idsOf ts).length ≤ depth →
        ((ts.map root).foldl (fun s c =>
          let m := transfer depth c s.2
          (s.1 ++ m.1.toList, m.2)) (moved, p)).2.source = (idsOf ts).foldl erase p.source
  | _, _, [], _, _, _, _, _ => rfl
  | depth, q, t :: ts, moved, p, h, hn, hd => by
      rw [HoldsAll] at h
      rw [Tree.idsOf_cons] at hn hd
      rw [List.length_append] at hd
      obtain ⟨ht, hts, hdis⟩ := List.nodup_append'.mp hn
      have hone := (transfer_source depth p h.1 ht (by omega)).2
      rw [List.map_cons, List.foldl_cons, Tree.idsOf_cons, List.foldl_append, ← hone]
      refine transfer_source_all depth _ _ (holdsAll_congr (fun id hid => ?_) h.2) hts (by omega)
      rw [hone, get?_foldl_erase, if_neg]
      intro hm
      exact hdis hm hid

end

theorem forest_moveSubtree {ts : List (Tree (RuleId × α))} (h : Forest a ts) (hx : x ∈ a.ids)
    (target : Arena α) :
    ∃ w p, w.root = x ∧ Holds a p w ∧ (a.moveSubtree x target).1.isSome ∧
      Forest (a.moveSubtree x target).2.source (pruneAll x ts) ∧
      ∀ id, id ∈ (a.moveSubtree x target).2.source.ids ↔ id ∈ a.ids ∧ id ∉ w.ids := by
  obtain ⟨w, p, rfl, hh, hown, hn, hle, hf⟩ := exists_subtree h hx
  obtain ⟨hsome, hsource⟩ := transfer_source a.size ⟨a.unlink w.root, target⟩ hown hn hle
  refine ⟨w, p, rfl, hh, hsome, ?_, fun id => ?_⟩
  · rw [moveSubtree, hsource]
    exact forest_erase hf fun _ => Iff.rfl
  · rw [moveSubtree, hsource, ids_foldl_erase, ids_unlink, List.mem_filter, decide_eq_true_eq]

end StyleTree.Arena
