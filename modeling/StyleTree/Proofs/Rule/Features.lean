/-
# `Proofs.Rule.Features` — blocks of feature values merge

The body of a rule for feature values may have several blocks of one kind
of feature.  Each of them is built as a rule of its own, and then the first
one of its kind takes up the values of the others, which leave the arena.
What comes of it is one block for each kind of feature that was written, in
the order of the kinds, and it has the values that all declarations of all
these blocks give when they are declared one after the other, those that
are rejected included (`children_ofStatement_features`).

While the blocks are read, the siblings are those of a table that has for
each kind either no map or one (`blocksOf`).  One more block changes one
entry of the table: it settles into the block of its kind, or at the place
between the kinds in front and those behind.
-/
import StyleTree.Proofs.Rule.Siblings

namespace StyleTree

open StyleTree.Rule (rank?_of_features?)

variable {o : ReadOptions} {ns : Namespaces} {c : RuleContext}

/-- A block that has nothing but feature values. -/
def FeatureValues.tree (m : FeatureValues) : Tree Rule := .node ⟨.featureBlock m, none, .fontFeatureValues⟩ []

namespace Draft

/-! ## A table of blocks -/

/-- The blocks that a table has for some kinds of features. -/
def blocksOf (g : FeatureType → Option FeatureValues) (fs : List FeatureType) : List (Tree Rule) :=
  fs.filterMap fun f => (g f).map FeatureValues.tree

section

variable {g : FeatureType → Option FeatureValues} {fs : List FeatureType} {f : FeatureType} {m old : FeatureValues}

theorem blocksOf_cons_none (h : g f = none) (fs : List FeatureType) : blocksOf g (f :: fs) = blocksOf g fs := by
  rw [blocksOf, List.filterMap_cons_none (by rw [h]; rfl), blocksOf]

theorem blocksOf_cons_some (h : g f = some m) (fs : List FeatureType) :
    blocksOf g (f :: fs) = m.tree :: blocksOf g fs := by
  rw [blocksOf, List.filterMap_cons_some (by rw [h]; rfl), blocksOf]

theorem blocksOf_update (h : f ∉ fs) (v : Option FeatureValues) :
    blocksOf (Function.update g f v) fs = blocksOf g fs := by
  refine List.filterMap_congr fun f' hf' => ?_
  rw [Function.update_of_ne]
  rintro rfl
  exact h hf'

/-- The table has a map under its own kind only. -/
def ByKind (g : FeatureType → Option FeatureValues) : Prop := ∀ f m, g f = some m → m.feature = f

theorem mergeInto?_tree (m' : FeatureValues) (ts : List (Tree Rule)) :
    mergeInto? m (m'.tree :: ts) =
      if m'.feature = m.feature then some ((m'.merge m).tree :: ts) else (mergeInto? m ts).map (m'.tree :: ·) :=
  rfl

/-- The block of a kind takes up more values of that kind. -/
theorem mergeInto?_blocksOf (hg : ByKind g) (hold : g m.feature = some old) :
    ∀ {fs : List FeatureType}, fs.Nodup → m.feature ∈ fs →
      mergeInto? m (blocksOf g fs) = some (blocksOf (Function.update g m.feature (some (old.merge m))) fs)
  | [], _, hf => absurd hf List.not_mem_nil
  | f :: fs, hfs, hf => by
      obtain ⟨hnot, hfs⟩ := List.nodup_cons.mp hfs
      by_cases hkind : f = m.feature
      · subst hkind
        rw [blocksOf_cons_some hold, mergeInto?_tree, if_pos (hg _ _ hold),
          blocksOf_cons_some (Function.update_self ..), blocksOf_update hnot]
      · have ih := mergeInto?_blocksOf hg hold hfs ((List.mem_cons.mp hf).resolve_left (Ne.symm hkind))
        have hsame : Function.update g m.feature (some (old.merge m)) f = g f := Function.update_of_ne hkind ..
        cases hgf : g f with
        | none => rw [blocksOf_cons_none hgf, blocksOf_cons_none (hsame.trans hgf), ih]
        | some m' =>
            have hne : m'.feature ≠ m.feature := (hg f m' hgf).trans_ne hkind
            rw [blocksOf_cons_some hgf, blocksOf_cons_some (hsame.trans hgf), mergeInto?_tree, if_neg hne, ih,
              Option.map_some]

theorem mergeInto?_blocksOf_none (hg : ByKind g) (hnone : g m.feature = none) (fs : List FeatureType) :
    mergeInto? m (blocksOf g fs) = none := by
  induction fs with
  | nil => rfl
  | cons f fs ih =>
      cases hgf : g f with
      | none => rw [blocksOf_cons_none hgf, ih]
      | some m' =>
          have hne : m'.feature ≠ m.feature := by
            intro hf
            rw [← hf, hg f m' hgf, hgf] at hnone
            cases hnone
          rw [blocksOf_cons_some hgf, mergeInto?_tree, if_neg hne, ih, Option.map_none]

/-- Of the blocks of later kinds none is in front of the slot. -/
theorem slot_blocksOf_zero (hg : ByKind g) (h : ∀ f ∈ fs, m.feature.rank < f.rank) :
    slot m.tree.value ((blocksOf g fs).map Tree.value) = 0 := by
  induction fs with
  | nil => rfl
  | cons f fs ih =>
      obtain ⟨hf, hfs⟩ := List.forall_mem_cons.mp h
      cases hgf : g f with
      | none =>
          rw [blocksOf_cons_none hgf]
          exact ih hfs
      | some m' =>
          rw [← hg f m' hgf] at hf
          rw [blocksOf_cons_some hgf, List.map_cons, slot_cons (n := m.feature.rank) rfl, if_pos]
          exact decide_eq_true hf

/-- The first block of a kind takes its place between those of other kinds. -/
theorem insertIdx_blocksOf (hg : ByKind g) (hnone : g m.feature = none) :
    ∀ {fs : List FeatureType}, (fs.Pairwise fun f f' => f.rank < f'.rank) → m.feature ∈ fs →
      (blocksOf g fs).insertIdx (slot m.tree.value ((blocksOf g fs).map Tree.value)) m.tree =
        blocksOf (Function.update g m.feature (some m)) fs
  | [], _, hf => absurd hf List.not_mem_nil
  | f :: fs, hfs, hf => by
      obtain ⟨hfirst, hfs⟩ := List.pairwise_cons.mp hfs
      by_cases hkind : f = m.feature
      · subst hkind
        have hnot : m.feature ∉ fs := fun h => Nat.lt_irrefl _ (hfirst _ h)
        rw [blocksOf_cons_none hnone, slot_blocksOf_zero hg hfirst, List.insertIdx_zero,
          blocksOf_cons_some (Function.update_self ..), blocksOf_update hnot]
      · have hmem : m.feature ∈ fs := (List.mem_cons.mp hf).resolve_left (Ne.symm hkind)
        have ih := insertIdx_blocksOf hg hnone hfs hmem
        have hsame : Function.update g m.feature (some m) f = g f := Function.update_of_ne hkind ..
        cases hgf : g f with
        | none => rw [blocksOf_cons_none hgf, blocksOf_cons_none (hsame.trans hgf), ih]
        | some m' =>
            -- the search goes on behind a block of an earlier kind
            have hrank : m'.feature.rank < m.feature.rank := by
              rw [hg f m' hgf]
              exact hfirst _ hmem
            have hfront : m'.tree.value.head.rank?.any (m.feature.rank < ·) = false :=
              decide_eq_false (Nat.not_lt.mpr (Nat.le_of_lt hrank))
            rw [blocksOf_cons_some hgf, blocksOf_cons_some (hsame.trans hgf), List.map_cons,
              slot_cons (n := m.feature.rank) rfl, if_neg (Bool.eq_false_iff.mp hfront),
              List.insertIdx_succ_cons, ih]

theorem FeatureType.mem_all (f : FeatureType) : f ∈ FeatureType.all := by cases f <;> decide

/-- One more block changes the entry of its kind. -/
theorem settle_blocksOf (hg : ByKind g) (m : FeatureValues) :
    settle false m.tree (blocksOf g FeatureType.all) =
      blocksOf (Function.update g m.feature (some ((g m.feature).elim m (·.merge m)))) FeatureType.all := by
  have hfeatures : m.tree.value.head.features? = some m := rfl
  have hnodup : FeatureType.all.Nodup := by decide
  have hsorted : FeatureType.all.Pairwise fun f f' => f.rank < f'.rank := by decide
  unfold settle
  rw [if_neg Bool.false_ne_true, hfeatures, Option.bind_some]
  cases hold : g m.feature with
  | none =>
      rw [mergeInto?_blocksOf_none hg hold, Option.getD_none]
      exact insertIdx_blocksOf hg hold hsorted (FeatureType.mem_all _)
  | some old =>
      rw [mergeInto?_blocksOf hg hold hnodup (FeatureType.mem_all _)]
      rfl

end

/-! ## The blocks that were written -/

/-- A block of feature values as it was written: its kind and its declarations. -/
structure WrittenFeatures where
  feature : FeatureType
  declarations : List WrittenDeclaration

/-- What was written for a kind of feature as one map, if there is a block for it. -/
def gathered (bs : List WrittenFeatures) (f : FeatureType) : Option FeatureValues :=
  if bs.any (·.feature = f) then
    some ((FeatureValues.empty f).declareAll ((bs.filter (·.feature = f)).flatMap (·.declarations)))
  else none

theorem byKind_gathered (bs : List WrittenFeatures) : ByKind (gathered bs) := by
  intro f m h
  rw [gathered, Option.ite_none_right_eq_some, Option.some.injEq] at h
  rw [← h.2, FeatureValues.feature_declareAll]
  rfl

/-- One more block is gathered with those of its kind. -/
theorem gathered_concat (bs : List WrittenFeatures) (b : WrittenFeatures) :
    let m := (FeatureValues.empty b.feature).declareAll b.declarations
    gathered (bs ++ [b]) =
      Function.update (gathered bs) b.feature (some ((gathered bs b.feature).elim m (·.merge m))) := by
  intro m
  funext f
  have hany : (bs ++ [b]).any (·.feature = f) = (bs.any (·.feature = f) || decide (b.feature = f)) := by
    rw [List.any_append, List.any_cons, List.any_nil, Bool.or_false]
  by_cases hf : f = b.feature
  · subst hf
    have hfilter : (bs ++ [b]).filter (·.feature = b.feature) = bs.filter (·.feature = b.feature) ++ [b] := by
      rw [List.filter_append, List.filter_singleton, decide_eq_true rfl]
      rfl
    rw [Function.update_self, gathered, gathered, hany, decide_eq_true rfl, Bool.or_true, if_pos rfl, hfilter,
      List.flatMap_append, List.flatMap_singleton, FeatureValues.declareAll_append]
    cases hold : bs.any (·.feature = b.feature) with
    | true =>
        have hlawful := (FeatureValues.isLawful_empty b.feature).declareAll
          ((bs.filter (·.feature = b.feature)).flatMap (·.declarations))
        have hmerge := hlawful.merge_declareAll b.declarations
        rw [FeatureValues.feature_declareAll] at hmerge
        exact congrArg some hmerge.symm
    | false =>
        have hnone : bs.filter (·.feature = b.feature) = [] := by
          rw [List.filter_eq_nil_iff]
          exact List.any_eq_false.mp hold
        rw [hnone]
        rfl
  · have hne : decide (b.feature = f) = false := decide_eq_false (Ne.symm hf)
    have hother : [b].filter (·.feature = f) = [] := List.filter_cons_of_neg (Bool.eq_false_iff.mp hne)
    rw [Function.update_of_ne hf, gathered, gathered, hany, hne, Bool.or_false, List.filter_append, hother,
      List.append_nil]

/-- Blocks that settle one after the other are gathered by kind. -/
theorem settleAll_gathered (bs : List WrittenFeatures) :
    settleAll [] (bs.map fun b => ((FeatureValues.empty b.feature).declareAll b.declarations).tree) =
      blocksOf (gathered bs) FeatureType.all := by
  induction bs using List.reverseRecOn with
  | nil => rfl
  | append_singleton bs b ih =>
      have hfeature : ((FeatureValues.empty b.feature).declareAll b.declarations).feature = b.feature :=
        FeatureValues.feature_declareAll _ _
      have hstep := settle_blocksOf (byKind_gathered bs)
        ((FeatureValues.empty b.feature).declareAll b.declarations)
      rw [hfeature] at hstep
      rw [List.map_append, List.map_singleton, settleAll_concat, ih, gathered_concat]
      exact hstep

/-! ## The rule that is read -/

/-- The block of feature values that an item is in the body of a rule for them. -/
def writtenFeatures? (ns : Namespaces) : Item → Option WrittenFeatures
  | .declaration _ => none
  | .rule st =>
    match st.read .fontFeatureValues ns with
    | .ok (.featureBlock m) => some ⟨m.feature, (st.items .declarations).filterMap Item.declaration?⟩
    | _ => none

/-- A block of feature values is read without any values. -/
theorem head_of_read {st : Statement} {head : RuleHead} (h : st.read c ns = .ok head)
    (hkind : head.kind = .featureBlock) : ∃ f, head = .featureBlock (.empty f) := by
  have hprelude := (Statement.read_eq_ok.mp h).2.2
  rw [hkind] at hprelude
  obtain ⟨f, -, hf⟩ := Option.bind_eq_some_iff.mp hprelude
  refine ⟨f, ?_⟩
  unfold Prelude.nothing at hf
  split at hf
  · exact (Option.some.inj hf).symm
  · cases hf

/-- No rule stands in a block of declarations. -/
theorem childTree?_declarations (o : ReadOptions) (ns : Namespaces) (item : Item) :
    childTree? o ns .declarations item = none := by
  cases item with
  | declaration d => rfl
  | rule st =>
      rw [childTree?, child?]
      cases hread : st.read .declarations ns with
      | error e => rfl
      | ok head => cases (Statement.read_eq_ok.mp hread).2.1

/-- The tree of a block has the values that its declarations give. -/
theorem childTree?_fontFeatureValues (o : ReadOptions) (ns : Namespaces) (item : Item) :
    childTree? o ns .fontFeatureValues item =
      (writtenFeatures? ns item).map fun b => ((FeatureValues.empty b.feature).declareAll b.declarations).tree := by
  cases item with
  | declaration d => rfl
  | rule st =>
      rw [childTree?, child?, writtenFeatures?]
      cases hread : st.read .fontFeatureValues ns with
      | error e => rfl
      | ok head =>
          -- there is nothing else in this context
          have hkind : head.kind = .featureBlock := of_decide_eq_true (Statement.read_eq_ok.mp hread).2.1
          obtain ⟨f, rfl⟩ := head_of_read hread hkind
          have hnone : (st.items .declarations).filterMap (childTree? o ns .declarations) = [] :=
            List.filterMap_eq_nil_iff.mpr fun item _ => childTree?_declarations o ns item
          have htree := tree_ofStatement o ns (.featureBlock (.empty f)) st
            (rfl : Rule.fresh _ .fontFeatureValues = _)
          have hblock : (Rule.fresh (.featureBlock (.empty f)) .fontFeatureValues).blockContext = .declarations := rfl
          have hvalue := Rule.withDeclarations_featureBlock (r := Rule.fresh (.featureBlock (.empty f))
            .fontFeatureValues) o ((st.items .declarations).filterMap Item.declaration?) rfl (by rw [hblock]; decide)
            (by rw [hblock]; decide)
          rw [hblock, hnone, hvalue] at htree
          exact congrArg some htree

/-- The children of a rule for feature values are one block for each kind of feature that was written,
with the values that all declarations for that kind give one after the other. -/
theorem children_ofStatement_features (o : ReadOptions) (ns : Namespaces) (c : RuleContext)
    (families : List FamilyName) (st : Statement) :
    (ofStatement o ns c (.fontFeatureValues families) st).tree.children =
      blocksOf (gathered ((st.items .fontFeatureValues).filterMap (writtenFeatures? ns))) FeatureType.all := by
  have hblock : (Rule.fresh (.fontFeatureValues families) c).blockContext = .fontFeatureValues := rfl
  have htrees : (st.items .fontFeatureValues).filterMap (childTree? o ns .fontFeatureValues) =
      ((st.items .fontFeatureValues).filterMap (writtenFeatures? ns)).map
        fun b => ((FeatureValues.empty b.feature).declareAll b.declarations).tree := by
    rw [List.map_filterMap]
    exact List.filterMap_congr fun item _ => childTree?_fontFeatureValues o ns item
  rw [tree_ofStatement o ns _ st rfl, hblock, Tree.children, htrees, settleAll_gathered]
  rfl

end Draft

end StyleTree
