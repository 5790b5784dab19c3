/-
# `Proofs.Rule.Declarations` — what a rejected declaration does

A declaration that is not valid is not kept, and in most blocks it is as if
it had never been written.  Two blocks have no place for declarations until
one is met, valid or not:

    block                               the place that is made
    a scope                             a rule for `:scope`, in front
    a grouping rule under a style       a set of declarations, if groups
    rule                                keep theirs

What is made there stays when none of the declarations is valid.  So those
that are rejected leave a trace, an empty rule or an empty set, exactly if
they come to such a block and no valid one does (`tree_admitted_iff`).
-/
import StyleTree.Proofs.Rule.Contexts
import StyleTree.Proofs.Rule.Items

namespace StyleTree

variable {o : ReadOptions} {ns : Namespaces} {c : RuleContext} {head : RuleHead} {r : Rule}
variable {ds : List WrittenDeclaration}

/-! ## Declarations one after the other -/

/-- Steps that fail may be left out of a fold, if what fails does not depend on those before. -/
theorem foldl_filter_isSome {β δ : Type} {step : β → δ → Option β} {p : δ → Bool} {I : β → Prop}
    (hp : ∀ b d, I b → (step b d).isSome = p d) (hI : ∀ b d b', I b → step b d = some b' → I b') :
    ∀ (ds : List δ) (b : β), I b →
      (ds.filter p).foldl (fun b d => (step b d).getD b) b =
        ds.foldl (fun b d => (step b d).getD b) b
  | [], _, _ => rfl
  | d :: ds, b, hb => by
      have hd := hp b d hb
      rw [List.foldl_cons]
      cases hs : step b d with
      | none =>
          rw [hs] at hd
          rw [List.filter_cons_of_neg (by rw [← hd]; exact Bool.false_ne_true)]
          exact foldl_filter_isSome hp hI ds b hb
      | some b' =>
          rw [hs] at hd
          rw [List.filter_cons_of_pos hd.symm, List.foldl_cons, hs]
          exact foldl_filter_isSome hp hI ds b' (hI b d b' hb hs)

/-- Whether a declaration is valid in a context. -/
def DeclarationContext.admits (o : ReadOptions) (k : DeclarationContext) (d : WrittenDeclaration) : Bool :=
  (o.grammar.validate? k d.name d.value d.important).isSome

theorem DeclarationBlock.declareAll_filter (o : ReadOptions) (b : DeclarationBlock)
    (ds : List WrittenDeclaration) :
    b.declareAll o.grammar (ds.filter (b.context.admits o)) = b.declareAll o.grammar ds := by
  refine foldl_filter_isSome (I := fun b' => b'.context = b.context) ?_ ?_ ds b rfl
  · intro b' d hb
    rw [declare?, Option.isSome_map, hb, DeclarationContext.admits]
  · intro b' d b'' hb hd
    obtain ⟨e, -, rfl⟩ := Option.map_eq_some_iff.mp hd
    exact hb

/-- Whether a declaration is valid among the values of a feature. -/
def FeatureType.admits (f : FeatureType) (d : WrittenDeclaration) : Bool :=
  !d.important && (FeatureValues.ofValues? d.value).any f.accepts

theorem FeatureValues.declare?_eq (m : FeatureValues) (d : WrittenDeclaration) :
    m.declare? d =
      if m.feature.admits d then (FeatureValues.ofValues? d.value).map (m.put d.name) else none := by
  unfold declare? FeatureType.admits
  cases d.important with
  | true => rfl
  | false =>
      cases FeatureValues.ofValues? d.value with
      | none => rfl
      | some vs =>
          simp only [Bool.false_eq_true, if_false, Option.bind_some, set, Bool.not_false, Bool.true_and,
            Option.any_some, Option.map_some]
          split <;> rfl

theorem FeatureValues.declareAll_filter (m : FeatureValues) (ds : List WrittenDeclaration) :
    m.declareAll (ds.filter m.feature.admits) = m.declareAll ds := by
  refine foldl_filter_isSome (I := fun m' => m'.feature = m.feature) ?_ ?_ ds m rfl
  · intro m' d hm
    rw [declare?_eq, hm]
    cases h : m.feature.admits d with
    | false => rfl
    | true =>
        obtain ⟨vs, hvs, -⟩ := (Option.any_eq_true _ _).mp (Bool.and_eq_true_iff.mp h).2
        rw [if_pos rfl, hvs]
        rfl
  · intro m' d m'' hm hd
    rw [declare?_eq, Option.ite_none_right_eq_some] at hd
    obtain ⟨vs, -, rfl⟩ := Option.map_eq_some_iff.mp hd.2
    exact hm

theorem FeatureValues.declareAll_append (m : FeatureValues) (ds ds' : List WrittenDeclaration) :
    m.declareAll (ds ++ ds') = (m.declareAll ds).declareAll ds' :=
  List.foldl_append

theorem DeclarationBlock.declareAll_append (g : ValueGrammar) (b : DeclarationBlock)
    (ds ds' : List WrittenDeclaration) :
    b.declareAll g (ds ++ ds') = (b.declareAll g ds).declareAll g ds' :=
  List.foldl_append

/-! ## The declarations of a rule -/

namespace Rule

/-- Whether a declaration is valid in the block of a rule. -/
def admits (o : ReadOptions) (r : Rule) (d : WrittenDeclaration) : Bool :=
  match r.blockContext, r.head with
  | .scope, _ | .nestedGroup, _ => DeclarationContext.style.admits o d
  | _, .featureBlock m => m.feature.admits d
  | _, _ => r.declarations.any (·.context.admits o d)

/-- Whether the block of a rule has a place for declarations only once there are some. -/
def MakesPlace (o : ReadOptions) (r : Rule) : Prop :=
  r.blockContext = .scope ∨ r.blockContext = .nestedGroup ∧ o.keepsGroupDeclarations = true

theorem declarations_of_nestedGroup (head : RuleHead) (c : RuleContext)
    (h : (fresh head c).blockContext = .nestedGroup) :
    (fresh head c).declarations = none :=
  if_neg (Bool.eq_false_iff.mp (RuleKind.hasDeclarations_of_isGroup (RuleKind.isGroup_of_blockContext h)))

theorem admits_of_place (h : r.blockContext = .scope ∨ r.blockContext = .nestedGroup) :
    r.admits o = DeclarationContext.style.admits o := by
  funext d
  rcases h with h | h <;> rw [admits, h]

theorem admits_featureBlock {m : FeatureValues} (hm : r.head = .featureBlock m)
    (hscope : r.blockContext ≠ .scope) (hgroup : r.blockContext ≠ .nestedGroup) :
    r.admits o = m.feature.admits := by
  funext d
  unfold admits
  rw [hm]
  split
  · next hb => exact absurd hb hscope
  · next hb => exact absurd hb hgroup
  · next hm' _ _ =>
      cases hm'
      rfl
  · next hm' => exact absurd rfl (hm' m)

theorem admits_own (hm : ∀ m, r.head ≠ .featureBlock m)
    (hscope : r.blockContext ≠ .scope) (hgroup : r.blockContext ≠ .nestedGroup) :
    r.admits o = fun d => r.declarations.any (·.context.admits o d) := by
  funext d
  unfold admits
  split
  · next hb => exact absurd hb hscope
  · next hb => exact absurd hb hgroup
  · next m hm' _ _ => exact absurd hm' (hm m)
  · rfl

/-- Rejected declarations make no difference to the rule itself, but for an empty set. -/
theorem withDeclarations_filter (o : ReadOptions) (head : RuleHead) (c : RuleContext)
    (ds : List WrittenDeclaration)
    (h : (fresh head c).MakesPlace o → ds.filter ((fresh head c).admits o) = [] → ds = []) :
    (fresh head c).withDeclarations o (ds.filter ((fresh head c).admits o)) =
      (fresh head c).withDeclarations o ds := by
  have hnone := declarations_of_nestedGroup head c
  generalize fresh head c = r at h hnone
  unfold withDeclarations
  split
  · rfl
  · next hblock =>
      cases hkeeps : o.keepsGroupDeclarations with
      | false => rfl
      | true =>
          have hempty : (ds.filter (r.admits o)).isEmpty = ds.isEmpty := by
            rw [Bool.eq_iff_iff, List.isEmpty_iff, List.isEmpty_iff]
            refine ⟨h (Or.inr ⟨hblock, hkeeps⟩), ?_⟩
            rintro rfl
            rfl
          have hall : (DeclarationBlock.empty .style).declareAll o.grammar (ds.filter (r.admits o)) =
              (DeclarationBlock.empty .style).declareAll o.grammar ds := by
            rw [admits_of_place (Or.inr hblock)]
            exact DeclarationBlock.declareAll_filter o _ ds
          simp only [hempty, hnone hblock, Option.getD_none, hall]
  · next m hm hscope hgroup =>
      rw [admits_featureBlock hm hscope hgroup, FeatureValues.declareAll_filter]
  · next hscope hgroup hm =>
      rw [admits_own hm hscope hgroup]
      cases r.declarations with
      | none => rfl
      | some b => simp only [Option.map_some, Option.any_some, DeclarationBlock.declareAll_filter]

theorem ofScope_filter (o : ReadOptions) (ds : List WrittenDeclaration) :
    ofScope o (ds.filter (DeclarationContext.style.admits o)) = ofScope o ds := by
  have hall := DeclarationBlock.declareAll_filter o (.empty .style) ds
  rw [ofScope, ofScope, ← hall]
  rfl

end Rule

/-! ## What the declarations of a block make of a rule -/

namespace Rule

theorem blockContext_withDeclarations (o : ReadOptions) (r : Rule) (ds : List WrittenDeclaration) :
    (r.withDeclarations o ds).blockContext = r.blockContext :=
  blockContext_eq (kind_withDeclarations o r ds) (context_withDeclarations o r ds)

theorem withDeclarations_scope (o : ReadOptions) (ds : List WrittenDeclaration) (h : r.blockContext = .scope) :
    r.withDeclarations o ds = r := by
  unfold withDeclarations
  rw [h]

theorem withDeclarations_nestedGroup (o : ReadOptions) (ds : List WrittenDeclaration)
    (h : r.blockContext = .nestedGroup) :
    r.withDeclarations o ds =
      if o.keepsGroupDeclarations && !ds.isEmpty then
        { r with declarations := some ((r.declarations.getD (.empty .style)).declareAll o.grammar ds) }
      else r := by
  unfold withDeclarations
  rw [h]

theorem withDeclarations_featureBlock (o : ReadOptions) (ds : List WrittenDeclaration) {m : FeatureValues}
    (hm : r.head = .featureBlock m) (hscope : r.blockContext ≠ .scope) (hgroup : r.blockContext ≠ .nestedGroup) :
    r.withDeclarations o ds = { r with head := .featureBlock (m.declareAll ds) } := by
  unfold withDeclarations
  split
  · next hb => exact absurd hb hscope
  · next hb => exact absurd hb hgroup
  · next hm' _ _ =>
      cases hm.symm.trans hm'
      rfl
  · next hm' => exact absurd hm (hm' m)

theorem withDeclarations_own (o : ReadOptions) (ds : List WrittenDeclaration)
    (hm : ∀ m, r.head ≠ .featureBlock m) (hscope : r.blockContext ≠ .scope)
    (hgroup : r.blockContext ≠ .nestedGroup) :
    r.withDeclarations o ds = { r with declarations := r.declarations.map (·.declareAll o.grammar ds) } := by
  unfold withDeclarations
  split
  · next hb => exact absurd hb hscope
  · next hb => exact absurd hb hgroup
  · next m hm' _ _ => exact absurd hm' (hm m)
  · rfl

theorem withDeclarations_nil (o : ReadOptions) (r : Rule) : r.withDeclarations o [] = r := by
  unfold withDeclarations
  split
  · rfl
  · rw [List.isEmpty_nil, Bool.not_true, Bool.and_false]
    rfl
  · next m hm _ _ =>
      have hm : r.head = .featureBlock m := hm
      rw [FeatureValues.declareAll, List.foldl_nil, ← hm]
  · show { r with declarations := r.declarations.map fun b => b } = r
    rw [Option.map_id']

/-- Declarations may come in two runs. -/
theorem withDeclarations_append (o : ReadOptions) (r : Rule) (ds ds' : List WrittenDeclaration) :
    r.withDeclarations o (ds ++ ds') = (r.withDeclarations o ds).withDeclarations o ds' := by
  have hblock := blockContext_withDeclarations o r ds
  by_cases hscope : r.blockContext = .scope
  · simp only [withDeclarations_scope _ _ hscope]
  by_cases hgroup : r.blockContext = .nestedGroup
  · rw [withDeclarations_nestedGroup o ds' (hblock.trans hgroup), withDeclarations_nestedGroup o _ hgroup,
      withDeclarations_nestedGroup o _ hgroup]
    cases o.keepsGroupDeclarations with
    | false => rfl
    | true =>
        cases ds with
        | nil => rfl
        | cons d ds =>
            cases ds' with
            | nil =>
                rw [List.append_nil]
                rfl
            | cons d' ds' =>
                rw [DeclarationBlock.declareAll_append]
                rfl
  have hscope' := hblock.trans_ne hscope
  have hgroup' := hblock.trans_ne hgroup
  by_cases hfeatures : ∃ m, r.head = .featureBlock m
  · obtain ⟨m, hm⟩ := hfeatures
    have hfirst := withDeclarations_featureBlock o ds hm hscope hgroup
    have hm' : (r.withDeclarations o ds).head = .featureBlock (m.declareAll ds) := by rw [hfirst]
    rw [withDeclarations_featureBlock o ds' hm' hscope' hgroup', hfirst,
      withDeclarations_featureBlock o _ hm hscope hgroup, FeatureValues.declareAll_append]
  · have hm : ∀ m, r.head ≠ .featureBlock m := fun m hm => hfeatures ⟨m, hm⟩
    have hfirst := withDeclarations_own o ds hm hscope hgroup
    have hm' : ∀ m, (r.withDeclarations o ds).head ≠ .featureBlock m := by
      rw [hfirst]
      exact hm
    rw [withDeclarations_own o ds' hm' hscope' hgroup', hfirst, withDeclarations_own o _ hm hscope hgroup]
    simp only [Option.map_map, Function.comp_def, DeclarationBlock.declareAll_append]

/-- The rule for the declarations of a scope takes more of them as a style rule does. -/
theorem ofScope_append (o : ReadOptions) (ds ds' : List WrittenDeclaration) :
    ofScope o (ds ++ ds') = (ofScope o ds).withDeclarations o ds' := by
  rw [ofScope, DeclarationBlock.declareAll_append]
  rfl

end Rule

/-! ## The tree of a rule -/

namespace Draft

/-- The rule that an item is in a block. -/
def child? (o : ReadOptions) (ns : Namespaces) (c : RuleContext) : Item → Option Draft
  | .declaration _ => none
  | .rule st =>
    match st.read c ns with
    | .ok head => some (ofStatement o ns c head st)
    | .error _ => none

/-- The rule for the declarations of a scope, if there are any. -/
def scopeTrees (o : ReadOptions) (c : RuleContext) (ds : List WrittenDeclaration) : List (Tree Rule) :=
  if c = .scope ∧ ds ≠ [] then [.node (Rule.ofScope o ds) []] else []

theorem child?_eq_rule {item : Item} {d : Draft} (h : child? o ns c item = some d) :
    ∃ r us, d = rule false r us := by
  cases item with
  | declaration d => cases h
  | rule st =>
      rw [child?] at h
      split at h
      · cases h
        rw [ofStatement]
        split <;> exact ⟨_, _, rfl⟩
      · cases h

/-- A rule without a fixed place stays in front of those that are settled behind it. -/
theorem settle_cons {t : Tree Rule} (hrank : t.value.head.rank? = none)
    (hfeatures : t.value.head.features? = none) (u : Tree Rule) (ts : List (Tree Rule)) :
    settle false u (t :: ts) = t :: settle false u ts := by
  have hslot : slot u.value ((t :: ts).map Tree.value) = slot u.value (ts.map Tree.value) + 1 := by
    unfold slot
    cases u.value.head.rank? with
    | none => rfl
    | some n => simp only [List.map_cons, List.findIdx_cons, hrank, Option.any_none, cond_false]
  have hmerge : ∀ m, mergeInto? m (t :: ts) = (mergeInto? m ts).map (t :: ·) := by
    intro m
    obtain ⟨r, us⟩ := t
    rw [mergeInto?]
    replace hfeatures : r.head.features? = none := hfeatures
    rw [hfeatures]
  unfold settle
  rw [hslot, List.insertIdx_succ_cons]
  cases u.value.head.features? with
  | none => rfl
  | some m =>
      simp only [Option.bind_some, hmerge]
      cases mergeInto? m ts <;> rfl

theorem treesUnder_cons {t : Tree Rule} (hrank : t.value.head.rank? = none)
    (hfeatures : t.value.head.features? = none) : ∀ (ds : List Draft) (ts : List (Tree Rule)),
    (∀ d ∈ ds, ∃ r us, d = rule false r us) → treesUnder (t :: ts) ds = t :: treesUnder ts ds
  | [], _, _ => rfl
  | d :: ds, ts, h => by
      obtain ⟨⟨r, us, rfl⟩, hds⟩ := List.forall_mem_cons.mp h
      rw [treesUnder, treesUnder, settle_cons hrank hfeatures]
      exact treesUnder_cons hrank hfeatures ds _ hds

theorem childrenOf_none (o : ReadOptions) (ns : Namespaces) (c : RuleContext) (items : List Item) :
    childrenOf none (items.filterMap (part? o ns c)) = items.filterMap (child? o ns c) := by
  induction items with
  | nil => rfl
  | cons item items ih =>
      cases item with
      | declaration d => exact ih
      | rule st =>
          rw [List.filterMap_cons, List.filterMap_cons, part?, child?]
          cases st.read c ns with
          | error e => exact ih
          | ok head => exact congrArg _ ih

/-- The rule for declarations, if it arises, stands in front of all rules that were read. -/
theorem treesUnder_childrenOf {place : Rule} (hrank : place.head.rank? = none)
    (hfeatures : place.head.features? = none) (o : ReadOptions) (ns : Namespaces) (c : RuleContext) :
    ∀ (items : List Item) (ts : List (Tree Rule)),
    treesUnder ts (childrenOf (some (rule true place [])) (items.filterMap (part? o ns c))) =
      (if items.filterMap Item.declaration? = [] then [] else [.node place []]) ++
        treesUnder ts (items.filterMap (child? o ns c))
  | [], _ => rfl
  | .declaration d :: items, ts => by
      have hrules : ∀ d ∈ items.filterMap (child? o ns c), ∃ r us, d = rule false r us := by
        intro d hd
        obtain ⟨item, -, hitem⟩ := List.mem_filterMap.mp hd
        exact child?_eq_rule hitem
      show treesUnder ts (rule true place [] :: childrenOf none (items.filterMap (part? o ns c))) =
        .node place [] :: treesUnder ts (items.filterMap (child? o ns c))
      rw [childrenOf_none, treesUnder]
      exact treesUnder_cons (t := .node place []) hrank hfeatures _ ts hrules
  | .rule st :: items, ts => by
      have ih := treesUnder_childrenOf hrank hfeatures o ns c items
      have hds : (Item.rule st :: items).filterMap Item.declaration? = items.filterMap Item.declaration? := rfl
      rw [hds, List.filterMap_cons, List.filterMap_cons]
      cases hread : st.read c ns with
      | error e =>
          simp only [part?, child?, hread]
          exact ih ts
      | ok head =>
          simp only [part?, child?, hread, childrenOf]
          have hchild : child? o ns c (.rule st) = some (ofStatement o ns c head st) := by rw [child?, hread]
          obtain ⟨r, us, hr⟩ := child?_eq_rule hchild
          rw [hr, treesUnder, treesUnder, ih]

/-- The tree of a rule with the items of its block. -/
theorem tree_ofItems (o : ReadOptions) (ns : Namespaces) (r : Rule) (items : List Item) :
    (ofItems o ns r items).tree =
      .node (r.withDeclarations o (items.filterMap Item.declaration?))
        (scopeTrees o r.blockContext (items.filterMap Item.declaration?) ++
          treesUnder [] (items.filterMap (child? o ns r.blockContext))) := by
  rw [ofItems, tree]
  congr 1
  unfold scopeDraft scopeTrees
  by_cases hscope : r.blockContext = .scope
  · rw [if_pos hscope, treesUnder_childrenOf rfl rfl]
    simp only [hscope, true_and, ite_not]
  · rw [if_neg hscope, childrenOf_none, if_neg (fun h => hscope h.1)]
    rfl

/-- Siblings with some trees put beside them, one after the other. -/
def settleAll (ts cs : List (Tree Rule)) : List (Tree Rule) := cs.foldl (fun ts t => settle false t ts) ts

theorem treesUnder_eq_settleAll : ∀ (ds : List Draft) (ts : List (Tree Rule)),
    (∀ d ∈ ds, ∃ r us, d = rule false r us) → treesUnder ts ds = settleAll ts (ds.map tree)
  | [], _, _ => rfl
  | d :: ds, ts, h => by
      obtain ⟨⟨r, us, rfl⟩, hds⟩ := List.forall_mem_cons.mp h
      rw [treesUnder, treesUnder_eq_settleAll ds _ hds]
      rfl

/-- The tree of the rule that an item is in a block. -/
def childTree? (o : ReadOptions) (ns : Namespaces) (c : RuleContext) (item : Item) : Option (Tree Rule) :=
  (child? o ns c item).map tree

/-- The children of a rule settle in the order in which they were read. -/
theorem tree_ofItems_settled (o : ReadOptions) (ns : Namespaces) (r : Rule) (items : List Item) :
    (ofItems o ns r items).tree =
      .node (r.withDeclarations o (items.filterMap Item.declaration?))
        (scopeTrees o r.blockContext (items.filterMap Item.declaration?) ++
          settleAll [] (items.filterMap (childTree? o ns r.blockContext))) := by
  have hrules : ∀ d ∈ items.filterMap (child? o ns r.blockContext), ∃ r us, d = rule false r us := by
    intro d hd
    obtain ⟨item, -, hitem⟩ := List.mem_filterMap.mp hd
    exact child?_eq_rule hitem
  rw [tree_ofItems, treesUnder_eq_settleAll _ _ hrules, List.map_filterMap]
  rfl

end Draft

/-! ## Without what is rejected -/

/-- Whether an item is valid in the block of a rule; rules are looked at elsewhere. -/
def Item.isAdmittedIn (o : ReadOptions) (r : Rule) : Item → Bool
  | .declaration d => r.admits o d
  | .rule _ => true

theorem declarations_filter (o : ReadOptions) (r : Rule) (items : List Item) :
    (items.filter (Item.isAdmittedIn o r)).filterMap Item.declaration? =
      (items.filterMap Item.declaration?).filter (r.admits o) := by
  induction items with
  | nil => rfl
  | cons item items ih =>
      cases item with
      | rule st => exact ih
      | declaration d =>
          show _ = (d :: items.filterMap Item.declaration?).filter (r.admits o)
          cases hd : r.admits o d with
          | true =>
              rw [List.filter_cons_of_pos (by exact hd), List.filter_cons_of_pos hd, ← ih]
              rfl
          | false =>
              rw [List.filter_cons_of_neg (by exact Bool.eq_false_iff.mp hd),
                List.filter_cons_of_neg (Bool.eq_false_iff.mp hd), ih]

theorem children_filter (o : ReadOptions) (r : Rule) (ns : Namespaces) (c : RuleContext) (items : List Item) :
    (items.filter (Item.isAdmittedIn o r)).filterMap (Draft.child? o ns c) =
      items.filterMap (Draft.child? o ns c) := by
  rw [List.filterMap_filter]
  refine List.filterMap_congr fun item _ => ?_
  cases item with
  | declaration d => exact ite_self _
  | rule st => rfl

/-- None of the declarations is valid in the block of a rule, and yet a place is made for them. -/
structure Rule.KeepsTrace (o : ReadOptions) (r : Rule) (ds : List WrittenDeclaration) : Prop where
  place : r.MakesPlace o
  nonempty : ds ≠ []
  rejected : ∀ d ∈ ds, r.admits o d = false

theorem Rule.keepsTrace_iff :
    r.KeepsTrace o ds ↔ r.MakesPlace o ∧ ds ≠ [] ∧ ds.filter (r.admits o) = [] := by
  simp only [List.filter_eq_nil_iff, Bool.not_eq_true]
  exact ⟨fun h => ⟨h.place, h.nonempty, h.rejected⟩, fun h => ⟨h.1, h.2.1, h.2.2⟩⟩

/-- A set of declarations is made for those that come to a grouping rule. -/
theorem Rule.declarations_withDeclarations (hblock : r.blockContext = .nestedGroup)
    (hkeeps : o.keepsGroupDeclarations = true) (hds : ds ≠ []) :
    (r.withDeclarations o ds).declarations.isSome = true := by
  unfold withDeclarations
  simp only [hblock, hkeeps, Bool.true_and, List.isEmpty_eq_false_iff.mpr hds, Bool.not_false, if_true,
    Option.isSome_some]

namespace Draft

/-- Rejected declarations make no difference to the rule for declarations, but for an empty one. -/
theorem scopeTrees_filter (h : r.MakesPlace o → ds.filter (r.admits o) = [] → ds = []) :
    scopeTrees o r.blockContext (ds.filter (r.admits o)) = scopeTrees o r.blockContext ds := by
  unfold scopeTrees
  by_cases hscope : r.blockContext = .scope
  · have hnil : ds.filter (r.admits o) ≠ [] ↔ ds ≠ [] := by
      rw [not_iff_not]
      refine ⟨h (Or.inl hscope), ?_⟩
      rintro rfl
      rfl
    simp only [hnil]
    rw [Rule.admits_of_place (Or.inl hscope), Rule.ofScope_filter]
  · rw [if_neg (fun h => hscope h.1), if_neg (fun h => hscope h.1)]

/-- A rule without the declarations that are rejected in its block is the same rule, with the same set of
declarations and the same children, exactly if those leave no trace. -/
theorem tree_admitted_iff (o : ReadOptions) (ns : Namespaces) (head : RuleHead) (c : RuleContext)
    (items : List Item) :
    (ofItems o ns (Rule.fresh head c) (items.filter (Item.isAdmittedIn o (Rule.fresh head c)))).tree =
        (ofItems o ns (Rule.fresh head c) items).tree ↔
      ¬ (Rule.fresh head c).KeepsTrace o (items.filterMap Item.declaration?) := by
  have hnone := Rule.declarations_of_nestedGroup head c
  have hsame := Rule.withDeclarations_filter o head c (items.filterMap Item.declaration?)
  rw [tree_ofItems, tree_ofItems, declarations_filter, children_filter, Rule.keepsTrace_iff, Tree.node.injEq]
  generalize items.filterMap Item.declaration? = ds at hsame ⊢
  generalize Rule.fresh head c = r at hnone hsame ⊢
  constructor
  · rintro ⟨hvalue, hchildren⟩ ⟨hscope | ⟨hblock, hkeeps⟩, hds, hempty⟩
    · -- the rule for declarations stands in front of the others in one of the trees only
      rw [hempty, List.append_left_inj, scopeTrees, scopeTrees, if_neg (fun h => h.2 rfl),
        if_pos ⟨hscope, hds⟩] at hchildren
      cases hchildren
    · have hsome := Rule.declarations_withDeclarations hblock hkeeps hds
      rw [← hvalue, hempty] at hsome
      have hr : r.withDeclarations o [] = r := by
        unfold Rule.withDeclarations
        simp only [hblock, List.isEmpty_nil, Bool.not_true, Bool.and_false, Bool.false_eq_true, if_false]
      rw [hr, hnone hblock] at hsome
      cases hsome
  · intro h
    have hempty : r.MakesPlace o → ds.filter (r.admits o) = [] → ds = [] := by
      intro hplace hempty
      by_contra hds
      exact h ⟨hplace, hds, hempty⟩
    exact ⟨hsame hempty, by rw [scopeTrees_filter hempty]⟩

/-- The declaration `x: 1` is not valid, but it comes to a scope, where it leaves a rule without
declarations. -/
theorem rejected_leaves_scope_rule :
    ¬ ∀ (o : ReadOptions) (ns : Namespaces) (head : RuleHead) (c : RuleContext) (items : List Item),
      (ofItems o ns (Rule.fresh head c) (items.filter (Item.isAdmittedIn o (Rule.fresh head c)))).tree =
        (ofItems o ns (Rule.fresh head c) items).tree := by
  intro h
  have htree := h ⟨.basic, false⟩ .empty (.scope none none) .stylesheet
    (Statement.split .declarations (ComponentValue.ofText "x:1"))
  have htext := congrArg (fun t => Rule.listText [t]) htree
  revert htext
  decide +kernel

end Draft

end StyleTree
