/-
# `Proofs.Rule.Margins` — margin boxes are sorted as they are read

Under a page nothing stands but margin boxes, and none of them is taken up
by another.  So when they settle one after the other they are sorted by the
places of their boxes, and those of the same box stay in the order in which
they were written (`children_ofStatement_page`).
-/
import StyleTree.Proofs.Rule.Siblings
import StyleTree.Proofs.StableSort

namespace StyleTree

open StableSort (before place)

variable {o : ReadOptions} {ns : Namespaces} {c : RuleContext} {st : Statement}

/-- The place of a rule in the order of its siblings; rules without a place count as the first. -/
def Rule.box (r : Rule) : Nat := r.head.rank?.getD 0

/-- Only margin boxes are read in the block of a page. -/
theorem RuleHead.margin_of_read {head : RuleHead} (h : st.read .page ns = .ok head) : ∃ i, head = .margin i := by
  have hkind : head.kind = .margin := of_decide_eq_true (Statement.read_eq_ok.mp h).2.1
  cases head with
  | margin i => exact ⟨i, rfl⟩
  | _ => cases hkind

namespace Draft

theorem slot_eq_place {r : Rule} {n : Nat} (hr : r.head.rank? = some n) (rs : List Rule) :
    slot r rs = place Rule.box n rs := by
  induction rs with
  | nil =>
      rw [slot, hr]
      rfl
  | cons r' rs ih =>
      rw [slot_cons hr, StableSort.place_cons, ih, Rule.box]
      cases r'.head.rank? with
      | none => rfl
      | some k => simp only [Option.any_some, decide_eq_true_eq, Option.getD_some]

/-- A margin box goes behind those of its place. -/
theorem settle_margin {t : Tree Rule} {i : Nat} (ht : t.value.head = .margin i) (ts : List (Tree Rule)) :
    settle false t ts = ts.insertIdx (place (fun t => t.value.box) t.value.box ts) t := by
  have hfeatures : t.value.head.features? = none := by rw [ht]; rfl
  have hrank : t.value.head.rank? = some t.value.box := by rw [Rule.box, ht]; rfl
  unfold settle
  rw [if_neg Bool.false_ne_true, hfeatures, Option.bind_none, Option.getD_none, slot_eq_place hrank, place, place,
    List.findIdx_map]
  rfl

theorem settleAll_margins (cs : List (Tree Rule)) (hcs : ∀ t ∈ cs, ∃ i, t.value.head = .margin i) :
    settleAll [] cs = cs.mergeSort (before fun t => t.value.box) := by
  induction cs using List.reverseRecOn with
  | nil => exact List.mergeSort_nil.symm
  | append_singleton cs t ih =>
      obtain ⟨hcs, ht⟩ := List.forall_mem_append.mp hcs
      obtain ⟨i, hi⟩ := ht t List.mem_cons_self
      rw [settleAll_concat, ih hcs, settle_margin hi, StableSort.mergeSort_concat]

/-- The rules in the block of a page, in the order in which they were written. -/
def margins (o : ReadOptions) (ns : Namespaces) (st : Statement) : List (Tree Rule) :=
  (st.items .page).filterMap (childTree? o ns .page)

theorem margin_of_mem_margins {t : Tree Rule} (ht : t ∈ margins o ns st) : ∃ i, t.value.head = .margin i := by
  obtain ⟨item, -, ht⟩ := List.mem_filterMap.mp ht
  cases item with
  | declaration d => cases ht
  | rule st' =>
      rw [childTree?, child?] at ht
      cases hread : st'.read .page ns with
      | error e =>
          rw [hread] at ht
          cases ht
      | ok head =>
          rw [hread] at ht
          cases ht
          obtain ⟨i, rfl⟩ := RuleHead.margin_of_read hread
          rw [value_tree]
          rcases head_ofStatement o ns .page (.margin i) st' with hhead | ⟨m, m', hhead, -⟩
          · exact ⟨i, hhead⟩
          · cases hhead

/-- The children of a page are its margin boxes, sorted by their places. -/
theorem children_ofStatement_page (o : ReadOptions) (ns : Namespaces) (c : RuleContext)
    (selectors : List PageSelector) (st : Statement) :
    (ofStatement o ns c (.page selectors) st).tree.children =
      (margins o ns st).mergeSort (before fun t => t.value.box) := by
  have hblock : (Rule.fresh (.page selectors) c).blockContext = .page := rfl
  have hnone : ∀ ds, scopeTrees o .page ds = [] := fun ds => if_neg fun h => by cases h.1
  rw [tree_ofStatement o ns _ st rfl, hblock, hnone, List.nil_append, Tree.children]
  exact settleAll_margins _ fun t ht => margin_of_mem_margins ht

end Draft

end StyleTree
