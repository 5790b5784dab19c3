/-
# `Proofs.Rule.Siblings` — siblings that keep a fixed order

Margin boxes stand under their page in the order of the boxes, and blocks
of feature values under their rule in the order of the kinds of features.
Of the same box there may be several, of the same kind of feature only one
block.  `InOrder` says this of a list of siblings, whatever other rules are
among them.

The slot of a rule is found by one search from the front, which stops at the
first sibling of a higher rank.  In siblings that are in order all behind
that one are of a higher rank as well, so a rule that takes its slot keeps
the order (`InOrder.insert_slot`).  A block of feature values takes a slot
only if none of its kind is there; otherwise it is taken up by that one,
which keeps its place.
-/
import StyleTree.Proofs.Families
import StyleTree.Proofs.Feature.Values
import StyleTree.Proofs.Rule.Groups

namespace StyleTree

variable {r r' : Rule} {rs rs' : List Rule}

/-- Kinds of features are told apart by their places. -/
theorem FeatureType.rank_injective {f f' : FeatureType} (h : f.rank = f'.rank) : f = f' := by
  cases f <;> cases f' <;> first | rfl | cases h

/-- The search for a slot stops in front of the first sibling of a higher rank. -/
theorem Draft.slot_cons {n : Nat} (hr : r.head.rank? = some n) (r' : Rule) (rs : List Rule) :
    slot r (r' :: rs) = if r'.head.rank?.any (n < ·) then 0 else slot r rs + 1 := by
  simp only [slot, hr, List.findIdx_cons, cond_eq_ite]

/-! ## Order among siblings -/

namespace Rule

/-- All that matters about a rule when it is put among its siblings. -/
def rankAndKind (r : Rule) : Option Nat × RuleKind := (r.head.rank?, r.kind)

/-- The one rule may stand in front of the other: it is not of a higher rank, and if they are of one rank
they are not both blocks of feature values. -/
def MayPrecede (r r' : Rule) : Prop := ∀ n n', r.head.rank? = some n → r'.head.rank? = some n' →
  n ≤ n' ∧ (n = n' → r.kind ≠ .featureBlock ∨ r'.kind ≠ .featureBlock)

/-- The siblings keep the fixed order, as far as they have a place in it. -/
def InOrder (rs : List Rule) : Prop := rs.Pairwise MayPrecede

theorem mayPrecede_of_none_left (h : r.head.rank? = none) : r.MayPrecede r' := by
  intro n n' hn
  rw [h] at hn
  cases hn

theorem mayPrecede_of_none_right (h : r'.head.rank? = none) : r.MayPrecede r' := by
  intro n n' _ hn'
  rw [h] at hn'
  cases hn'

theorem mayPrecede_of_lt {n n' : Nat} (hr : r.head.rank? = some n) (hr' : r'.head.rank? = some n') (h : n < n') :
    r.MayPrecede r' := by
  intro k k' hk hk'
  rw [hr, Option.some.injEq] at hk
  rw [hr', Option.some.injEq] at hk'
  subst hk hk'
  exact ⟨Nat.le_of_lt h, fun heq => absurd heq (Nat.ne_of_lt h)⟩

theorem InOrder.of_map_eq (h : InOrder rs) (he : rs'.map rankAndKind = rs.map rankAndKind) : InOrder rs' := by
  have hpairs : ∀ {rs : List Rule}, InOrder rs ↔ (rs.map rankAndKind).Pairwise fun a b =>
      ∀ n n', a.1 = some n → b.1 = some n' →
        n ≤ n' ∧ (n = n' → a.2 ≠ .featureBlock ∨ b.2 ≠ .featureBlock) := by
    intro rs
    rw [List.pairwise_map]
    exact Iff.rfl
  rw [hpairs, he]
  exact hpairs.mp h

theorem InOrder.sublist (h : InOrder rs) (hs : rs'.Sublist rs) : InOrder rs' := List.Pairwise.sublist hs h

/-- A rule without a rank may stand anywhere. -/
theorem InOrder.insertIdx (h : InOrder rs) (hr : r.head.rank? = none) : ∀ i, InOrder (rs.insertIdx i r) := by
  induction rs with
  | nil =>
      rintro (_ | i)
      · exact List.pairwise_singleton _ _
      · exact List.Pairwise.nil
  | cons r' rs ih =>
      rintro (_ | i)
      · exact List.pairwise_cons.mpr ⟨fun _ _ => mayPrecede_of_none_left hr, h⟩
      · obtain ⟨hr', hrs⟩ := List.pairwise_cons.mp h
        rw [List.insertIdx_succ_cons]
        refine List.pairwise_cons.mpr ⟨fun x hx => ?_, ih hrs i⟩
        rcases List.eq_or_mem_of_mem_insertIdx hx with rfl | hx
        · exact mayPrecede_of_none_right hr
        · exact hr' x hx

/-- No sibling has feature values of the same kind. -/
def IsNewAmong (r : Rule) (rs : List Rule) : Prop :=
  ∀ m, r.head.features? = some m → ∀ r' ∈ rs, ∀ m', r'.head.features? = some m' → m'.feature ≠ m.feature

theorem features?_of_kind (h : r.kind = .featureBlock) : ∃ m, r.head.features? = some m := by
  obtain ⟨head, declarations, context⟩ := r
  cases head with
  | featureBlock m => exact ⟨m, rfl⟩
  | _ => cases h

theorem rank?_of_features? {m : FeatureValues} (h : r.head.features? = some m) :
    r.head.rank? = some m.feature.rank := by
  rw [RuleHead.eq_of_features? h]
  rfl

/-- A sibling that is not of a higher rank may stay in front of a new rule. -/
theorem mayPrecede_of_not_lt {n : Nat} (hr : r.head.rank? = some n)
    (hnew : ∀ m, r.head.features? = some m → ∀ m', r'.head.features? = some m' → m'.feature ≠ m.feature)
    (h : r'.head.rank?.any (n < ·) = false) : r'.MayPrecede r := by
  intro n' k hn' hk
  obtain rfl : k = n := Option.some.inj (hk.symm.trans hr)
  rw [hn', Option.any_some, decide_eq_false_iff_not] at h
  refine ⟨Nat.le_of_not_lt h, fun heq => ?_⟩
  -- two blocks of one rank would be of one kind
  by_contra hboth
  rw [not_or, not_not, not_not] at hboth
  obtain ⟨m', hm'⟩ := features?_of_kind hboth.1
  obtain ⟨m, hm⟩ := features?_of_kind hboth.2
  rw [rank?_of_features? hm', Option.some.injEq] at hn'
  rw [rank?_of_features? hm, Option.some.injEq] at hk
  exact hnew m hm m' hm' (FeatureType.rank_injective (hn'.trans (heq.trans hk.symm)))

/-- A rule that takes its slot keeps the order. -/
theorem InOrder.insert_slot (h : InOrder rs) (hnew : r.IsNewAmong rs) : InOrder (rs.insertIdx (Draft.slot r rs) r) := by
  cases hrank : r.head.rank? with
  | none => exact h.insertIdx hrank _
  | some n =>
      induction rs with
      | nil =>
          rw [Draft.slot, hrank]
          exact List.pairwise_singleton _ _
      | cons r' rs ih =>
          obtain ⟨hr', hrs⟩ := List.pairwise_cons.mp h
          have hothers : r.IsNewAmong rs := fun m hm x hx => hnew m hm x (List.mem_cons_of_mem _ hx)
          rw [Draft.slot_cons hrank]
          cases hlater : r'.head.rank?.any (n < ·) with
          | true =>
              -- the search stops here, and nothing behind is of a lower rank
              obtain ⟨n', hn', hlt⟩ := (Option.any_eq_true _ _).mp hlater
              have hlt : n < n' := of_decide_eq_true hlt
              refine List.pairwise_cons.mpr ⟨fun x hx => ?_, h⟩
              rcases List.mem_cons.mp hx with rfl | hx
              · exact mayPrecede_of_lt hrank hn' hlt
              · cases hxrank : x.head.rank? with
                | none => exact mayPrecede_of_none_right hxrank
                | some k =>
                    have hle := (hr' x hx n' k hn' hxrank).1
                    exact mayPrecede_of_lt hrank hxrank (Nat.lt_of_lt_of_le hlt hle)
          | false =>
              rw [if_neg Bool.false_ne_true, List.insertIdx_succ_cons]
              refine List.pairwise_cons.mpr ⟨fun x hx => ?_, ih hrs hothers⟩
              rcases List.eq_or_mem_of_mem_insertIdx hx with rfl | hx
              · exact mayPrecede_of_not_lt hrank (fun m hm => hnew m hm r' List.mem_cons_self) hlater
              · exact hr' x hx

end Rule

/-! ## Siblings that settle -/

open StyleTree.Rule (InOrder IsNewAmong rankAndKind)
open StyleTree.Tree (Families FamiliesOf)

namespace Draft

variable {m : FeatureValues} {t : Tree Rule} {ts us cs : List (Tree Rule)}

/-- Where no block takes up feature values there is none of their kind. -/
theorem feature_ne_of_mergeInto? : ∀ {ts : List (Tree Rule)}, mergeInto? m ts = none →
    ∀ t ∈ ts, ∀ m', t.value.head.features? = some m' → m'.feature ≠ m.feature
  | [], _ => List.forall_mem_nil _
  | .node r vs :: ts, h => by
      rw [mergeInto?] at h
      refine List.forall_mem_cons.mpr ⟨fun m' (hm' : r.head.features? = some m') => ?_, ?_⟩
      · rw [hm'] at h
        intro hf
        simp only [if_pos hf] at h
        cases h
      · suffices hts : mergeInto? m ts = none from feature_ne_of_mergeInto? hts
        split at h
        · split at h
          · cases h
          · exact Option.map_eq_none_iff.mp h
        · exact Option.map_eq_none_iff.mp h

/-- What a rule with feature values that none of its siblings takes up is new among them. -/
theorem isNewAmong_of_mergeInto? (h : t.value.head.features?.bind (mergeInto? · ts) = none) :
    t.value.IsNewAmong (ts.map Tree.value) := by
  intro m hm r hr m' hm'
  obtain ⟨u, hu, rfl⟩ := List.mem_map.mp hr
  rw [hm, Option.bind_some] at h
  exact feature_ne_of_mergeInto? h u hu m' hm'

/-- Siblings that are in order are so with one more. -/
theorem inOrder_settle (h : InOrder (ts.map Tree.value)) (t : Tree Rule) :
    InOrder ((settle false t ts).map Tree.value) := by
  unfold settle
  rw [if_neg Bool.false_ne_true]
  cases hmerge : t.value.head.features?.bind (mergeInto? · ts) with
  | none =>
      rw [Option.getD_none, List.map_insertIdx]
      exact h.insert_slot (isNewAmong_of_mergeInto? hmerge)
  | some us =>
      obtain ⟨m, -, hus⟩ := Option.bind_eq_some_iff.mp hmerge
      obtain ⟨as, bs, r, vs, old, rfl, hr, -, rfl⟩ := mergeInto?_eq_some hus
      refine h.of_map_eq ?_
      have hsame : rankAndKind { r with head := .featureBlock (old.merge m) } = rankAndKind r := by
        rw [rankAndKind, rankAndKind, Rule.kind, Rule.kind, hr]
        exact congrArg (fun f : FeatureType => (some f.rank, RuleKind.featureBlock)) (FeatureValues.feature_merge old m)
      simp only [Option.getD_some, List.map_append, List.map_cons, Tree.value, hsame]

theorem settleAll_concat (ts cs : List (Tree Rule)) (t : Tree Rule) :
    settleAll ts (cs ++ [t]) = settle false t (settleAll ts cs) :=
  List.foldl_append

/-- A rule settles behind siblings that may all precede it. -/
theorem settle_of_mayPrecede (h : ∀ u ∈ ts, u.value.MayPrecede t.value) : settle false t ts = ts ++ [t] := by
  have hmerge : t.value.head.features?.bind (mergeInto? · ts) = none := by
    rw [Option.bind_eq_none_iff]
    intro m hm
    rw [Option.eq_none_iff_forall_ne_some]
    intro us hus
    obtain ⟨as, bs, r, vs, old, rfl, hr, hf, -⟩ := mergeInto?_eq_some hus
    have hold : r.head.rank? = some m.feature.rank := by
      rw [hr, ← hf]
      rfl
    have hbefore := h (.node r vs) (List.mem_append_right as List.mem_cons_self)
    rcases (hbefore _ _ hold (Rule.rank?_of_features? hm)).2 rfl with hkind | hkind
    · exact hkind (by rw [Tree.value, Rule.kind, hr]; rfl)
    · exact hkind (by rw [Rule.kind, RuleHead.eq_of_features? hm]; rfl)
  have hslot : slot t.value (ts.map Tree.value) = ts.length := by
    unfold slot
    cases hrank : t.value.head.rank? with
    | none => exact List.length_map _
    | some n =>
        rw [← List.length_map (f := Tree.value), List.findIdx_eq_length]
        intro r hr
        obtain ⟨u, hu, rfl⟩ := List.mem_map.mp hr
        cases hrank' : u.value.head.rank? with
        | none => rfl
        | some k => simpa using (h u hu k n hrank' hrank).1
  rw [settle, if_neg Bool.false_ne_true, hmerge, Option.getD_none, hslot, List.insertIdx_length_self]

/-- Siblings that are in order settle as they are. -/
theorem settleAll_of_inOrder (cs : List (Tree Rule)) (h : InOrder (cs.map Tree.value)) : settleAll [] cs = cs := by
  induction cs using List.reverseRecOn with
  | nil => rfl
  | append_singleton cs t ih =>
      rw [InOrder, List.map_append, List.pairwise_append] at h
      obtain ⟨hcs, -, hbefore⟩ := h
      rw [settleAll_concat, ih hcs]
      refine settle_of_mayPrecede fun u hu => ?_
      exact hbefore _ (List.mem_map_of_mem hu) _ (List.mem_singleton_self _)

theorem inOrder_settleAll (cs : List (Tree Rule)) : ∀ {ts : List (Tree Rule)}, InOrder (ts.map Tree.value) →
    InOrder ((settleAll ts cs).map Tree.value) := by
  induction cs with
  | nil => exact fun h => h
  | cons t cs ih => exact fun h => ih (inOrder_settle h t)

/-- Settling changes no family but that of the siblings. -/
theorem familiesOf_settle {P : List Rule → Prop} (hts : FamiliesOf (fun _ => P) ts)
    (ht : Families (fun _ => P) t) : FamiliesOf (fun _ => P) (settle false t ts) := by
  unfold settle
  rw [if_neg Bool.false_ne_true]
  cases hmerge : t.value.head.features?.bind (mergeInto? · ts) with
  | none => exact hts.insertIdx ht _
  | some us =>
      obtain ⟨m, -, hus⟩ := Option.bind_eq_some_iff.mp hmerge
      obtain ⟨as, bs, r, vs, old, rfl, -, -, rfl⟩ := mergeInto?_eq_some hus
      rw [Tree.familiesOf_iff, List.forall_mem_append, List.forall_mem_cons, Tree.families_node] at hts
      rw [Option.getD_some, Tree.familiesOf_iff, List.forall_mem_append, List.forall_mem_cons, Tree.families_node]
      exact hts

theorem familiesOf_settleAll {P : List Rule → Prop} : ∀ {cs ts : List (Tree Rule)},
    FamiliesOf (fun _ => P) ts → FamiliesOf (fun _ => P) cs → FamiliesOf (fun _ => P) (settleAll ts cs)
  | [], _, hts, _ => hts
  | t :: cs, ts, hts, hcs => by
      rw [Tree.familiesOf_cons] at hcs
      have hsettled := familiesOf_settle hts hcs.1
      show FamiliesOf (fun _ => P) (settleAll (settle false t ts) cs)
      exact familiesOf_settleAll hsettled hcs.2

/-- In the tree of a statement all siblings are in order. -/
theorem inOrder_ofStatement (o : ReadOptions) (ns : Namespaces) (c : RuleContext) (head : RuleHead)
    (st : Statement) : Families (fun _ => InOrder) (ofStatement o ns c head st).tree := by
  generalize hr : Rule.fresh head c = r
  have hcs : FamiliesOf (fun _ => InOrder) ((st.items r.blockContext).filterMap (childTree? o ns r.blockContext)) := by
    rw [Tree.familiesOf_iff]
    intro t ht
    obtain ⟨item, hitem, ht⟩ := List.mem_filterMap.mp ht
    cases item with
    | declaration d => cases ht
    | rule st' =>
        rw [childTree?, child?] at ht
        split at ht
        · next head' _ =>
            cases ht
            have := Statement.sizeOf_of_mem_items hitem
            exact inOrder_ofStatement o ns r.blockContext head' st'
        · cases ht
  rw [tree_ofStatement o ns head st hr.symm, Tree.families_node, List.map_append]
  have hnone : InOrder (([] : List (Tree Rule)).map Tree.value) := List.Pairwise.nil
  have hsettled := inOrder_settleAll ((st.items r.blockContext).filterMap (childTree? o ns r.blockContext)) hnone
  have hempty : FamiliesOf (fun _ => InOrder) ([] : List (Tree Rule)) := trivial
  have hbelow := familiesOf_settleAll hempty hcs
  unfold scopeTrees
  split
  · -- the rule for the declarations of a scope has no rank
    refine ⟨List.pairwise_cons.mpr ⟨fun _ _ => Rule.mayPrecede_of_none_left rfl, hsettled⟩, ?_⟩
    exact ⟨Tree.families_node.mpr ⟨List.Pairwise.nil, trivial⟩, hbelow⟩
  · exact ⟨hsettled, hbelow⟩
termination_by sizeOf st.block

end Draft

end StyleTree
