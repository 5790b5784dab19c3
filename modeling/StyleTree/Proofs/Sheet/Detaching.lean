/-
# `Proofs.Sheet.Detaching` — a subtree leaves, and nothing else does

Moving a subtree and removing it do the same to the arena it is in: the
nodes under its root are erased, its parent loses it from its children, and
every other node is as it was (`Cut`).  Both erase, in some order, the ids
under the root from the arena in which the root was unlinked, so one lemma
serves both (`Forest.cut`).

The arena that a subtree is moved to receives one tree, linked like the one
that left, and keeps its own nodes (`Receives`).  The text of a rule is read
off its tree alone, so a rule reads in its new arena as it read before.
-/
import StyleTree.Proofs.Arena.Ancestry
import StyleTree.Proofs.Arena.Moving
import StyleTree.Proofs.Sheet.Text

namespace StyleTree

open StyleTree.Tree (root idsOf pruneAll)

namespace Arena

variable {α : Type} {a b : Arena α} {ts : List (Tree (RuleId × α))} {x : RuleId}

/-! ## The arena that a subtree leaves -/

/-- The nodes under `x` are gone, the parent of `x` has one child less, and the rest is unchanged. -/
structure Cut (a : Arena α) (x : RuleId) (b : Arena α) : Prop where
  versioned : b.Versioned
  gone : ∀ k, a.Under x k → b.get? k = none
  parent : ∀ k, a.parent? x = some k →
    b.get? k = (a.get? k).map fun n => { n with children := n.children.filter (· ≠ x) }
  others : ∀ k, ¬ a.Under x k → a.parent? x ≠ some k → b.get? k = a.get? k

/-- What is left when a subtree is cut off is the same in every way of doing it. -/
theorem Cut.get?_eq {c : Arena α} (hb : Cut a x b) (hc : Cut a x c) (k : RuleId) :
    b.get? k = c.get? k := by
  by_cases hk : a.Under x k
  · rw [hb.gone k hk, hc.gone k hk]
  · by_cases hp : a.parent? x = some k
    · rw [hb.parent k hp, hc.parent k hp]
    · rw [hb.others k hk hp, hc.others k hk hp]

/-- The parent of the root of a subtree is not in the subtree. -/
theorem Holds.parent_not_mem {w : Tree (RuleId × α)} {q : Option RuleId} (hf : Forest a ts)
    (h : Holds a q w) (hn : w.ids.Nodup) {k : RuleId} (hk : a.parent? w.root = some k) : k ∉ w.ids := by
  intro hm
  have hc : w.root ∈ a.children k := hf.mem_children_iff.mpr hk
  obtain ⟨e, us⟩ := w
  rw [Tree.ids_node] at hn hm
  refine (List.nodup_cons.mp hn).1 ?_
  rcases List.mem_cons.mp hm with rfl | hm
  · rw [Tree.root_node, h.children] at hc
    exact Tree.root_mem_idsOf hc
  · exact mem_idsOf_of_child h.below hm hc

/-- Whatever the order in which the ids under a node are erased, its subtree is cut off. -/
theorem Forest.cut {w : Tree (RuleId × α)} {q : Option RuleId} (hf : Forest a ts) (h : Holds a q w)
    (hn : w.ids.Nodup) {is : List RuleId} (hi : ∀ k, k ∈ is ↔ k ∈ w.ids) :
    Cut a w.root (is.foldl erase (a.unlink w.root)) := by
  refine ⟨?_, fun k hk => ?_, fun k hk => ?_, fun k hk hpar => ?_⟩
  · exact (evolves_foldl_erase is _ (evolves_unlink a w.root hf.versioned).1).1
  · rw [get?_foldl_erase, if_pos ((hi k).mpr (mem_ids_of_under hf h hk))]
  · have hkw : k ∉ w.ids := h.parent_not_mem hf hn hk
    rw [get?_foldl_erase, if_neg (hkw ∘ (hi k).mp), get?_unlink hf]
    simp only [if_neg fun e : k = w.root => hkw (e ▸ Tree.root_mem_ids w)]
  · have hkw : k ∉ w.ids := fun hm => hk (under_of_mem_ids h hm)
    rw [get?_foldl_erase, if_neg (hkw ∘ (hi k).mp)]
    cases hp : a.parent? w.root with
    | none => rw [unlink_eq_self hp]
    | some p =>
        have hkp : k ≠ p := fun e => hpar (e ▸ hp)
        have hkr : k ≠ w.root := fun e => hkw (e ▸ Tree.root_mem_ids w)
        rw [get?_unlink_of_parent hp]
        simp only [if_neg hkp, if_neg hkr]
        rw [Option.map_id_fun']
        rfl

theorem cut_removeSubtree (h : Forest a ts) (hx : x ∈ a.ids) : Cut a x (a.removeSubtree x) := by
  obtain ⟨w, p, rfl, hw, -, hn, hle, -⟩ := exists_subtree h hx
  rw [removeSubtree_eq]
  exact h.cut hw hn fun _ => mem_descendants_iff hw hle

theorem cut_moveSubtree (h : Forest a ts) (hx : x ∈ a.ids) (b : Arena α) :
    Cut a x (a.moveSubtree x b).2.source := by
  obtain ⟨w, p, rfl, hw, hown, hn, hle, -⟩ := exists_subtree h hx
  rw [moveSubtree, (transfer_source a.size ⟨a.unlink w.root, b⟩ hown hn hle).2]
  exact h.cut hw hn fun _ => Iff.rfl

/-! ## The arena that it comes to -/

/-- What came in is read as the tree that it is, whatever else the arena has. -/
theorem Receives.tree?_eq {w : Tree (RuleId × α)} (h : Receives a [w] b) : b.tree? w.root = some w := by
  have hw := h.holds
  have hids := h.perm.length_eq
  rw [HoldsAll] at hw
  rw [Tree.idsOf_cons, Tree.idsOf_nil, List.append_nil, List.length_append] at hids
  refine treeFrom_eq b.size hw.1 ?_
  rw [size_eq]
  omega

/-- A moved subtree: what was read below the node, and what came to the other arena. -/
theorem exists_moved (h : Forest a ts) (hx : x ∈ a.ids) (hb : b.Versioned) :
    ∃ w w', a.tree? x = some w ∧ w.root = x ∧ Holds a (a.parent? x) w ∧
      Arrived w b (a.moveSubtree x b).1 (a.moveSubtree x b).2.target w' := by
  obtain ⟨w, p, w', rfl, hw, hle, hmoved⟩ := moveSubtree_target h hx hb
  have hroots : HoldsAll a p [w] := ⟨hw, trivial⟩
  have hp : a.parent? w.root = p := parent_of_mem_roots hroots List.mem_cons_self
  exact ⟨w, w', treeFrom_eq a.size hw hle, rfl, hp ▸ hw, hmoved⟩

end Arena

/-! ## Rules -/

namespace Arena

/-- The text of a rule of an arena. -/
def ruleText? (a : Arena Rule) (x : RuleId) : Option String :=
  (a.tree? x).map fun t => Rule.text t.bare

variable {a b : Arena Rule} {ts : List (Tree (RuleId × Rule))} {x : RuleId}

theorem Arrived.ruleText?_eq {c : Arena Rule} {w w' : Tree (RuleId × Rule)} {id : Option RuleId}
    (h : Arrived w b id c w') (hw : a.tree? x = some w) : c.ruleText? w'.root = a.ruleText? x := by
  rw [ruleText?, ruleText?, hw, h.receives.tree?_eq, Option.map_some, Option.map_some, h.bare]

/-- A rule that is taken out of a sheet reads as it read in the sheet. -/
theorem detach_text {s : Sheet} (h : Forest s.arena ts) (hx : x ∈ s.arena.ids) :
    ∃ d, (s.detach x).1 = some d ∧ some d.text = s.arena.ruleText? x := by
  obtain ⟨w, w', hw, -, -, hmoved⟩ := exists_moved h hx versioned_empty
  refine ⟨⟨(s.arena.moveSubtree x .empty).2.target, w'.root⟩, ?_, ?_⟩
  · have hd : (s.detach x).1 =
        (s.arena.moveSubtree x .empty).1.map (⟨(s.arena.moveSubtree x .empty).2.target, ·⟩) := rfl
    rw [hd, hmoved.root, Option.map_some]
  · rw [RemovedRule.text, RemovedRule.tree?, ← hmoved.ruleText?_eq hw, ruleText?,
      hmoved.receives.tree?_eq]
    rfl

/-- Between an arena whose links form a forest and any other with its slots in order, a subtree moves exactly: that
arena has one more tree, with the values, the order and the text of the one that was there; here it is gone
with its nodes, from its parent's children too, just as if it were removed; and nothing else changed.
So a rule that is taken out of a sheet reads as it read in the sheet. -/
theorem subtrees_move_exactly (h : Forest a ts) (hx : x ∈ a.ids) (hb : b.Versioned) :
    (∃ w w', a.tree? x = some w ∧ w.root = x ∧ Holds a (a.parent? x) w ∧
      (a.moveSubtree x b).1 = some w'.root ∧ w'.bare = w.bare ∧
      Receives b [w'] (a.moveSubtree x b).2.target ∧
      (a.moveSubtree x b).2.target.ruleText? w'.root = a.ruleText? x) ∧
    Cut a x (a.moveSubtree x b).2.source ∧ Cut a x (a.removeSubtree x) ∧
    (∀ k, (a.removeSubtree x).get? k = (a.moveSubtree x b).2.source.get? k) ∧
    ∀ s : Sheet, s.arena = a →
      ∃ d, (s.detach x).1 = some d ∧ some d.text = a.ruleText? x ∧ Cut a x (s.detach x).2.arena := by
  have hmove := cut_moveSubtree h hx b
  have hremove := cut_removeSubtree h hx
  refine ⟨?_, hmove, hremove, fun k => hremove.get?_eq hmove k, ?_⟩
  · obtain ⟨w, w', hw, hroot, hholds, hmoved⟩ := exists_moved h hx hb
    exact ⟨w, w', hw, hroot, hholds, hmoved.root, hmoved.bare, hmoved.receives, hmoved.ruleText?_eq hw⟩
  · rintro s rfl
    obtain ⟨d, hd, htext⟩ := detach_text h hx
    exact ⟨d, hd, htext, cut_moveSubtree h hx .empty⟩

/-- The second rule of a medium, which holds a rule itself, is moved to the arena of another sheet. -/
theorem subtrees_move_exactly_nested :
    let a := (Sheet.read .scripted "@media print{a{}b{color:red;&:hover{}}}").arena
    let b := (Sheet.read .scripted "f{}").arena
    a.parent? ⟨3, 1⟩ = some ⟨1, 1⟩ ∧ (a.children ⟨3, 1⟩) = [⟨4, 1⟩] ∧
      (∃ w', Receives b [w'] (a.moveSubtree ⟨3, 1⟩ b).2.target ∧
        (a.moveSubtree ⟨3, 1⟩ b).2.target.ruleText? w'.root = a.ruleText? ⟨3, 1⟩) ∧
      Cut a ⟨3, 1⟩ (a.moveSubtree ⟨3, 1⟩ b).2.source := by
  intro a b
  obtain ⟨ts, hs⟩ := Sheet.isForest_read .scripted "@media print{a{}b{color:red;&:hover{}}}"
  obtain ⟨us, ht⟩ := Sheet.isForest_read .scripted "f{}"
  have hx : (⟨3, 1⟩ : RuleId) ∈ a.ids := by decide +kernel
  obtain ⟨⟨w, w', -, -, -, -, -, hcame, htext⟩, hcut, -⟩ :=
    subtrees_move_exactly hs.forest hx ht.forest.versioned
  exact ⟨by decide +kernel, by decide +kernel, ⟨w', hcame, htext⟩, hcut⟩

end Arena

end StyleTree
