/-
# `Proofs.Rule.Rereading` — trees of rules, written and read again

The text of a tree is read as one statement wherever it stands, if each rule
of the tree is contained (`exists_rereads`).  What is read of it is a tree
again, or nothing, and it shows the same as the first (`Shown`) if and only
if each rule, for itself, is reread: its head where that has more than
names, and each of its declarations.

The induction is on the tree.  A block is split into the declarations of its
rule and one statement for each child, so what is read of the children is
known before anything is known of the rule.  That they settle as they stand
is due to their order (`settleAll_of_inOrder`).
-/
import StyleTree.Proofs.Feature.Text
import StyleTree.Proofs.Rule.Contents
import StyleTree.Proofs.Rule.Legible
import StyleTree.Proofs.Rule.Openings
import StyleTree.Proofs.Rule.Siblings

namespace StyleTree

open ComponentValue Statement
open StyleTree.Tree (Every EveryOf Fits FitAll Families FamiliesOf mapAll)

variable {o : ReadOptions} {ns : Namespaces} {keeps : Bool} {c : RuleContext} {st : Statement} {head : RuleHead}
variable {r r' : Rule} {ts us : List (Tree Rule)} {t u : Tree Rule}

/-! ## What the text of a rule shows -/

namespace Rule

/-- The kind of a rule, the text of its head, its feature values if it has some, and its declarations. -/
structure Shown where
  kind : RuleKind
  head : String
  features : Option FeatureValues
  entries : List (String × DeclaredValue)
  deriving DecidableEq

def shown (r : Rule) : Shown := ⟨r.kind, r.head.text, r.head.features?, r.entries⟩

theorem shown_eq_iff : r.shown = r'.shown ↔ r.kind = r'.kind ∧ r.head.text = r'.head.text ∧
    r.head.features? = r'.head.features? ∧ r.entries = r'.entries := by
  rw [shown, shown, Shown.mk.injEq]

theorem isStatement_eq (head : RuleHead) : head.isStatement = Sheet.isPrologue head.kind := by cases head <;> rfl

mutual

/-- Trees that show the same have the same text. -/
theorem text_eq_of_shown : ∀ {t u : Tree Rule}, t.map shown = u.map shown → text t = text u
  | .node r ts, .node r' us, h => by
      rw [Tree.map, Tree.map, Tree.node.injEq] at h
      obtain ⟨hkind, hhead, hfeatures, hentries⟩ := shown_eq_iff.mp h.1
      have htexts := texts_eq_of_shown h.2
      have hstatement : r.head.isStatement = r'.head.isStatement := by
        rw [isStatement_eq, isStatement_eq]
        exact congrArg Sheet.isPrologue hkind
      cases hm : r.head.features? with
      | some m =>
          rw [text_of_features (RuleHead.eq_of_features? hm),
            text_of_features (RuleHead.eq_of_features? (hfeatures.symm.trans hm))]
      | none =>
          rw [hm] at hfeatures
          cases hb : r.head.isStatement with
          | true => rw [text_of_statement hb, text_of_statement (hstatement.symm.trans hb), hhead]
          | false =>
              rw [text_of_block hm hb, text_of_block hfeatures.symm (hstatement.symm.trans hb), hhead, hentries, htexts]

theorem texts_eq_of_shown : ∀ {ts us : List (Tree Rule)}, mapAll shown ts = mapAll shown us → texts ts = texts us
  | [], [], _ => rfl
  | t :: ts, u :: us, h => by
      rw [mapAll, mapAll, List.cons.injEq] at h
      rw [texts, texts, text_eq_of_shown h.1, texts_eq_of_shown h.2]
  | [], _ :: _, h => by cases h
  | _ :: _, [], h => by cases h

end

theorem listText_eq_of_shown (h : mapAll shown ts = mapAll shown us) : listText ts = listText us := by
  rw [listText, listText, texts_eq_of_shown h]

/-! ## Conditions on each rule -/

/-- What reading makes sure of, whatever the text. -/
structure IsSound (r : Rule) : Prop where
  valid : r.head.IsValid
  legible : r.IsLegible
  regular : ∀ b, r.declarations = some b → b.IsRegular
  lawful : ∀ m, r.head = .featureBlock m → m.IsLawful

/-- Nothing of the rule spills over: not its head, where that has more than names, and no declaration. -/
def IsContained (r : Rule) : Prop :=
  (r.kind ∈ RuleKind.composed → r.head.IsContained r.context) ∧ ∀ b ∈ r.declarations, b.IsContained

instance (r : Rule) : Decidable r.IsContained := inferInstanceAs (Decidable (_ ∧ _))

/-- The head, where that has more than names, and each declaration are read as they were written. -/
def IsReread (o : ReadOptions) (ns : Namespaces) (r : Rule) : Prop :=
  (r.kind ∈ RuleKind.composed → r.head.IsReread r.context ns) ∧
    ∀ b ∈ r.declarations, ∀ e ∈ b.entries, DeclarationBlock.IsReread o.grammar b.context e

instance (o : ReadOptions) (ns : Namespaces) (r : Rule) : Decidable (r.IsReread o ns) :=
  inferInstanceAs (Decidable (_ ∧ _))

end Rule

/-- The one rule fits in among siblings where the other does. -/
def Rule.TakesPlaceOf (r' r : Rule) : Prop := r'.head.rank? = none ∨ r'.rankAndKind = r.rankAndKind

open Rule

/-! ## One rule -/

/-- The text of a tree is read as a statement.  What becomes of that keeps the place of the tree among its siblings,
and shows the same if and only if each rule is reread; and heads made of names are read as they were. -/
structure Rereads (keeps : Bool) (c : RuleContext) (t : Tree Rule) (st : Statement) : Prop where
  spells : SpellsItem c.contentForm (Rule.text t) (.rule st)
  place : ∀ o ns u, Draft.childTree? o ns c (.rule st) = some u → u.value.TakesPlaceOf t.value
  reads : ∀ o ns, o.keepsGroupDeclarations = keeps →
    ((Draft.childTree? o ns c (.rule st)).map (Tree.map shown) = some (t.map shown) ↔ Every (Rule.IsReread o ns) t)
  same : t.value.kind ∉ RuleKind.composed → t.value.kind ≠ .featureBlock → ∀ ns, st.read c ns = .ok t.value.head

namespace Draft

theorem childTree?_eq_some : childTree? o ns c (.rule st) = some t ↔
    ∃ head, st.read c ns = .ok head ∧ t = (ofStatement o ns c head st).tree := by
  rw [childTree?, child?]
  cases st.read c ns with
  | error e => simp
  | ok head => simp [eq_comm]

end Draft

/-- Where there are rules with more than names in front of their block there is no rule with a rank. -/
theorem RuleHead.rank?_of_composed {k : RuleKind} (hk : k ∈ RuleKind.composed) (hc : c.allows k = true)
    (hhead : c.allows head.kind = true) : head.rank? = none := by
  have hranked : c.allows .margin = false ∧ c.allows .featureBlock = false := by
    cases c with
    | page | fontFeatureValues =>
        obtain rfl := of_decide_eq_true hc
        exact absurd hk (by decide)
    | _ => exact ⟨rfl, rfl⟩
  cases head with
  | margin i => exact absurd (hranked.1.symm.trans hhead) Bool.false_ne_true
  | featureBlock m => exact absurd (hranked.2.symm.trans hhead) Bool.false_ne_true
  | _ => rfl

/-- A statement that a head leads to is read as a head with the same text if and only if that is so in question and
the head is reread. -/
theorem RuleHead.exists_read_iff (hsole : head.kind ∈ RuleKind.composed → head.statement? c = some st)
    (hsame : head.kind ∉ RuleKind.composed → ∀ ns, st.read c ns = .ok head) (ns : Namespaces) :
    (∃ head', st.read c ns = .ok head' ∧ head'.kind = head.kind ∧ head'.text = head.text) ↔
      (head.kind ∈ RuleKind.composed → head.IsReread c ns) := by
  by_cases hk : head.kind ∈ RuleKind.composed
  · rw [forall_prop_of_true hk, isReread_iff (hsole hk)]
  · exact iff_of_true ⟨head, hsame hk ns, rfl, rfl⟩ fun hk' => absurd hk' hk

/-! ## Siblings -/

theorem Rule.MayPrecede.of_takesPlaceOf {s s' : Rule} (h : r.MayPrecede r') (hs : s.TakesPlaceOf r)
    (hs' : s'.TakesPlaceOf r') : s.MayPrecede s' := by
  rcases hs with hs | hs
  · exact mayPrecede_of_none_left hs
  rcases hs' with hs' | hs'
  · exact mayPrecede_of_none_right hs'
  rw [rankAndKind, rankAndKind, Prod.mk.injEq] at hs hs'
  rw [MayPrecede, hs.1, hs.2, hs'.1, hs'.2]
  exact h

theorem exists_left_of_forall₂ {α β : Type} {R : α → β → Prop} {as : List α} {bs : List β} {b : β}
    (h : List.Forall₂ R as bs) (hb : b ∈ bs) : ∃ a ∈ as, R a b := by
  induction h with
  | nil => cases hb
  | cons hr hrs ih =>
      rcases List.mem_cons.mp hb with rfl | hb
      · exact ⟨_, List.mem_cons_self, hr⟩
      · obtain ⟨a, ha, hR⟩ := ih hb
        exact ⟨a, List.mem_cons_of_mem _ ha, hR⟩

/-- Siblings that are read again are in order. -/
theorem Rereads.inOrder {sts : List Statement} (h : List.Forall₂ (Rereads keeps c) ts sts) (o : ReadOptions)
    (ns : Namespaces) (horder : InOrder (ts.map Tree.value)) :
    InOrder (((sts.map .rule).filterMap (Draft.childTree? o ns c)).map Tree.value) := by
  have hplace : ∀ {ts sts}, List.Forall₂ (Rereads keeps c) ts sts →
      ∀ r ∈ ((sts.map .rule).filterMap (Draft.childTree? o ns c)).map Tree.value,
        ∃ r' ∈ ts.map Tree.value, r.TakesPlaceOf r' := by
    intro ts sts h r hr
    obtain ⟨u, hu, rfl⟩ := List.mem_map.mp hr
    obtain ⟨item, hitem, hu⟩ := List.mem_filterMap.mp hu
    obtain ⟨st, hst, rfl⟩ := List.mem_map.mp hitem
    obtain ⟨t, ht, hreads⟩ := exists_left_of_forall₂ h hst
    exact ⟨_, List.mem_map_of_mem ht, hreads.place o ns u hu⟩
  induction h with
  | nil => exact List.Pairwise.nil
  | @cons t st ts sts ht hts ih =>
      obtain ⟨hbefore, hothers⟩ := List.pairwise_cons.mp horder
      rw [List.map_cons]
      cases hu : Draft.childTree? o ns c (.rule st) with
      | none =>
          rw [List.filterMap_cons_none hu]
          exact ih hothers
      | some u =>
          rw [List.filterMap_cons_some hu]
          refine List.pairwise_cons.mpr ⟨fun r hr => ?_, ih hothers⟩
          obtain ⟨r', hr', htakes⟩ := hplace hts r hr
          exact (hbefore r' hr').of_takesPlaceOf (ht.place o ns u hu) htakes

/-- The texts of siblings, each for itself, are read as their statements. -/
theorem Rereads.spells_texts {sts : List Statement} (h : List.Forall₂ (Rereads keeps c) ts sts) :
    List.Forall₂ (SpellsItem c.contentForm) (texts ts) (sts.map .rule) := by
  induction h with
  | nil => exact .nil
  | cons ht _ ih => exact .cons ht.spells ih

/-- One tree less does not show the same. -/
theorem Tree.mapAll_ne_of_length_le {α β : Type} {f : α → β} {t : Tree α} {ts us : List (Tree α)}
    (h : us.length ≤ ts.length) : mapAll f us ≠ mapAll f (t :: ts) := by
  intro heq
  have hlength := congrArg List.length heq
  rw [Tree.mapAll_eq_map, Tree.mapAll_eq_map, List.length_map, List.length_map, List.length_cons] at hlength
  omega

/-- Siblings show the same when they are read again if and only if all rules in them are reread. -/
theorem Rereads.shown_iff {sts : List Statement} (h : List.Forall₂ (Rereads keeps c) ts sts) (ns : Namespaces)
    (hkeeps : o.keepsGroupDeclarations = keeps) :
    mapAll shown ((sts.map .rule).filterMap (Draft.childTree? o ns c)) = mapAll shown ts ↔
      EveryOf (Rule.IsReread o ns) ts := by
  induction h with
  | nil => exact iff_of_true rfl Tree.everyOf_nil
  | @cons t st ts sts ht hts ih =>
      have hreads := ht.reads o ns hkeeps
      rw [Tree.everyOf_cons, ← hreads, ← ih, List.map_cons]
      cases hu : Draft.childTree? o ns c (.rule st) with
      | none =>
          have hle := List.length_filterMap_le (Draft.childTree? o ns c) (sts.map .rule)
          rw [List.length_map, ← hts.length_eq] at hle
          rw [List.filterMap_cons_none hu]
          exact iff_of_false (Tree.mapAll_ne_of_length_le hle) (by rintro ⟨⟨⟩, -⟩)
      | some u => rw [List.filterMap_cons_some hu, mapAll, mapAll, List.cons.injEq, Option.map_some, Option.some.injEq]

/-! ## Rules and what is below them -/

theorem Tree.eq_nil_of_fitAll (h : FitAll keeps .declarations ts) : ts = [] := by
  cases ts with
  | nil => rfl
  | cons t ts => cases (Tree.fitAll_cons.mp h).1.value.allowed

theorem Rule.declarations_eq_none (h : r.DeclaresOwn keeps) (hk : r.kind.hasDeclarations = false)
    (hgroup : r.kind.isGroup = false) : r.declarations = none := by
  cases hb : r.declarations with
  | none => rfl
  | some b =>
      rw [(h.kept hk hb).2.1] at hgroup
      cases hgroup

/-- A block of feature values. -/
theorem rereads_features {m : FeatureValues} (hm : r.head = .featureBlock m) (hfits : Fits keeps c (.node r ts))
    (hsound : r.IsSound) :
    Rereads keeps c (.node r ts) ⟨some m.feature.name, [], some (FeatureValues.bodyValues m.entries)⟩ := by
  obtain ⟨hrule, hts⟩ := Tree.fits_node.mp hfits
  have hkind : r.kind = .featureBlock := by rw [Rule.kind, hm]; rfl
  obtain rfl : ts = [] := by
    rw [blockContext, hkind] at hts
    exact Tree.eq_nil_of_fitAll hts
  obtain rfl : c = .fontFeatureValues := by
    have hallowed := hrule.allowed
    rw [hkind] at hallowed
    cases c <;> first | rfl | cases hallowed
  have hnone : r.declarations = none := declarations_eq_none hrule.declares (hkind ▸ rfl) (hkind ▸ rfl)
  have htree : Tree.node r [] = m.tree := by
    obtain ⟨head, declarations, context⟩ := r
    obtain rfl : head = .featureBlock m := hm
    obtain rfl : declarations = none := hnone
    obtain rfl : context = .fontFeatureValues := hrule.context_eq
    rfl
  have hnames := hsound.legible.features m hm
  have hwritable : m.IsWritable m.feature := ⟨rfl, hsound.lawful m hm, fun e he => (hnames e he).clean⟩
  have herase : m.erase "" = m := by
    rw [FeatureValues.erase, SortedMap.erase_of_ne fun e he => (hnames e he).1]
  have hread : ∀ o ns, Draft.childTree? o ns .fontFeatureValues
      (.rule ⟨some m.feature.name, [], some (FeatureValues.bodyValues m.entries)⟩) = some (.node r []) := by
    intro o ns
    rw [Draft.childTree?_fontFeatureValues, Draft.writtenFeatures?_statement, Option.map_some,
      FeatureValues.declareAll_erase hwritable, herase, htree]
  constructor
  · rw [text_of_features hm]
    exact ⟨_, FeatureValues.spells_text hwritable.clean _⟩
  · intro o ns u hu
    rw [hread] at hu
    cases hu
    exact .inr rfl
  · intro o ns _
    rw [hread, Option.map_some]
    refine iff_of_true rfl (Tree.every_node.mpr ⟨⟨fun hk => ?_, by rw [hnone]; rintro _ ⟨⟩⟩, Tree.everyOf_nil⟩)
    rw [hkind] at hk
    exact absurd hk (by decide)
  · exact fun _ hk => absurd hkind hk

theorem RuleHead.features?_of_ne (h : head.kind ≠ .featureBlock) : head.features? = none := by
  cases head with
  | featureBlock m => exact absurd rfl h
  | _ => rfl

theorem Draft.head_of_ne_featureBlock (hk : head.kind ≠ .featureBlock) :
    (ofStatement o ns c head st).value.head = head := by
  rcases head_ofStatement o ns c head st with hhead | ⟨m, m', rfl, -⟩
  · exact hhead
  · exact absurd rfl hk

theorem Rule.entries_of_scope (h : r.DeclaresOwn keeps) (hscope : r.blockContext = .scope) : r.entries = [] := by
  cases hb : r.declarations with
  | none => rw [entries, hb]; rfl
  | some b =>
      cases hk : r.kind.hasDeclarations with
      | true => exact absurd hscope (blockContext_of_hasDeclarations hk).1
      | false =>
          have hgroup := (h.kept hk hb).2.2.1
          rw [hscope] at hgroup
          cases hgroup

theorem Draft.kind_of_shown (h : (ofStatement o ns c head st).tree.map shown = t.map shown) :
    head.kind = t.value.kind := by
  have hvalue := congrArg (fun t : Tree Shown => t.value.kind) h
  simp only [Tree.value_map, value_tree] at hvalue
  exact (kind_ofStatement o ns c head st).symm.trans hvalue

/-- What is read of a rule, once its head is: the declarations and the children make the difference. -/
theorem shown_ofStatement_iff {sts : List Statement} (hr : r.Fits o.keepsGroupDeclarations c) (hsound : r.IsSound)
    (hkind : head.kind = r.kind) (htext : head.text = r.head.text) (hfeatures : r.kind ≠ .featureBlock)
    (horder : InOrder (ts.map Tree.value))
    (hts : List.Forall₂ (Rereads o.keepsGroupDeclarations r.blockContext) ts sts)
    (hitems : st.items r.blockContext = r.entries.map (fun e => .declaration (.ofEntry e)) ++ sts.map .rule)
    (ns : Namespaces) :
    (Draft.ofStatement o ns c head st).tree.map shown = (Tree.node r ts).map shown ↔
      (∀ b ∈ r.declarations, ∀ e ∈ b.entries, DeclarationBlock.IsReread o.grammar b.context e) ∧
        EveryOf (Rule.IsReread o ns) ts := by
  have hblock := blockContext_fresh hkind hr.context_eq
  have hds : (st.items r.blockContext).filterMap Item.declaration? = r.entries.map .ofEntry := by
    have hrules : (sts.map .rule).filterMap Item.declaration? = [] := by
      rw [List.filterMap_map]
      exact List.filterMap_eq_nil_iff.mpr fun _ _ => rfl
    rw [hitems, List.filterMap_append, hrules, List.append_nil, List.filterMap_map]
    exact congrFun List.filterMap_eq_map _
  have hcs : (st.items r.blockContext).filterMap (Draft.childTree? o ns r.blockContext) =
      (sts.map .rule).filterMap (Draft.childTree? o ns r.blockContext) := by
    have hdeclarations : (r.entries.map fun e => .declaration (.ofEntry e)).filterMap
        (Draft.childTree? o ns r.blockContext) = [] := by
      rw [List.filterMap_map]
      exact List.filterMap_eq_nil_iff.mpr fun _ _ => rfl
    rw [hitems, List.filterMap_append, hdeclarations, List.nil_append]
  have hscope : Draft.scopeTrees o r.blockContext (r.entries.map .ofEntry) = [] := by
    refine if_neg fun h => h.2 ?_
    rw [entries_of_scope hr.declares h.1, List.map_nil]
  have hnone : ∀ m, head ≠ .featureBlock m := by
    rintro m rfl
    exact hfeatures hkind.symm
  rw [Draft.tree_ofStatement o ns head st rfl, hblock, hds, hcs, hscope, List.nil_append,
    Draft.settleAll_of_inOrder _ (Rereads.inOrder hts o ns horder), Tree.map, Tree.map, Tree.node.injEq,
    Rereads.shown_iff hts ns rfl, ← entries_reread hr hkind hnone hsound.regular]
  refine and_congr_left fun _ => ?_
  have hhead : ((fresh head c).withDeclarations o (r.entries.map .ofEntry)).head = head := by
    rcases head_withDeclarations o (fresh head c) (r.entries.map .ofEntry) with hhead | ⟨m, hm, -⟩
    · exact hhead
    · exact absurd hm (hnone m)
  have hnoFeatures : head.features? = r.head.features? :=
    (RuleHead.features?_of_ne (hkind.trans_ne hfeatures)).trans (RuleHead.features?_of_ne hfeatures).symm
  rw [shown_eq_iff, kind_withDeclarations, hhead]
  exact ⟨fun h => h.2.2.2, fun h => ⟨hkind, htext, hnoFeatures, h⟩⟩

/-- A rule whose head leads to the statement `st'`, if what is split from the block is known. -/
theorem rereads_of_items {st' : Statement} {sts : List Statement} (hr : r.Fits keeps c) (hsound : r.IsSound)
    (hfeatures : r.kind ≠ .featureBlock) (hspells : SpellsItem c.contentForm (Rule.text (.node r ts)) (.rule st))
    (hread : ∀ ns, st.read c ns = st'.read c ns)
    (hsole : r.kind ∈ RuleKind.composed → r.head.statement? c = some st')
    (hsame : r.kind ∉ RuleKind.composed → ∀ ns, st'.read c ns = .ok r.head)
    (horder : InOrder (ts.map Tree.value)) (hts : List.Forall₂ (Rereads keeps r.blockContext) ts sts)
    (hitems : st.classify c = .ok r.kind →
      st.items r.blockContext = r.entries.map (fun e => .declaration (.ofEntry e)) ++ sts.map .rule) :
    Rereads keeps c (.node r ts) st := by
  refine ⟨hspells, fun o ns u hu => ?_, fun o ns hkeeps => ?_, fun hk _ ns => (hread ns).trans (hsame hk ns)⟩
  · obtain ⟨head, hhead, rfl⟩ := Draft.childTree?_eq_some.mp hu
    rw [Draft.value_tree]
    by_cases hk : r.kind ∈ RuleKind.composed
    · left
      have hnone := RuleHead.rank?_of_composed hk hr.allowed (read_eq_ok.mp hhead).2.1
      by_contra hrank
      have hsome := Draft.isSome_rank?_ofStatement (Option.ne_none_iff_isSome.mp hrank)
      rw [hnone] at hsome
      cases hsome
    · right
      obtain rfl : r.head = head := Except.ok.inj ((hsame hk ns).symm.trans ((hread ns).symm.trans hhead))
      rw [rankAndKind, rankAndKind, Rule.kind, Draft.head_of_ne_featureBlock hfeatures]
      rfl
  · have hheads : _ ↔ (r.kind ∈ RuleKind.composed → r.head.IsReread c ns) :=
      RuleHead.exists_read_iff hsole hsame ns
    rw [Option.map_eq_some_iff, Tree.every_node, Rule.IsReread, hr.context_eq, and_assoc, ← hheads]
    constructor
    · rintro ⟨u, hu, hshown⟩
      obtain ⟨head, hhead, rfl⟩ := Draft.childTree?_eq_some.mp hu
      have hvalue := congrArg Tree.value hshown
      rw [Tree.value_map, Tree.value_map, Draft.value_tree, shown_eq_iff, Draft.kind_ofStatement] at hvalue
      obtain ⟨hkind, htext, -⟩ := hvalue
      have hne : head.kind ≠ .featureBlock := hkind.trans_ne hfeatures
      rw [Draft.head_of_ne_featureBlock hne] at htext
      subst hkeeps
      refine ⟨⟨head, (hread ns).symm.trans hhead, hkind, htext⟩, ?_⟩
      exact (shown_ofStatement_iff hr hsound hkind htext hfeatures horder hts
        (hitems (hkind ▸ (read_eq_ok.mp hhead).1)) ns).mp hshown
    · rintro ⟨⟨head, hhead, hkind, htext⟩, hbelow⟩
      have hkind : head.kind = r.kind := hkind
      have hhead := (hread ns).trans hhead
      subst hkeeps
      refine ⟨_, Draft.childTree?_eq_some.mpr ⟨head, hhead, rfl⟩, ?_⟩
      exact (shown_ofStatement_iff hr hsound hkind htext hfeatures horder hts
        (hitems (hkind ▸ (read_eq_ok.mp hhead).1)) ns).mpr hbelow

theorem Rule.blockContext_of_isPrologue (h : r.DeclaresOwn keeps) (hk : Sheet.isPrologue r.kind = true) :
    r.blockContext = .declarations ∧ r.declarations = none := by
  have hkind : r.kind = .importRule ∨ r.kind = .namespaceRule ∨ r.kind = .layerStatement := by
    cases hr : r.kind <;> rw [hr] at hk <;> first | cases hk; done | simp
  have hown : r.kind.hasDeclarations = false ∧ r.kind.isGroup = false := by
    rcases hkind with hk | hk | hk <;> rw [hk] <;> exact ⟨rfl, rfl⟩
  refine ⟨?_, declarations_eq_none h hown.1 hown.2⟩
  rcases hkind with hk | hk | hk <;> rw [blockContext, hk] <;> rfl

/-- The parts of a block are read as its declarations and its children. -/
theorem spells_contents {sts : List Statement} (h : r.DeclaresOwn keeps) (hsound : r.IsSound)
    (hcontained : r.IsContained) (hts : List.Forall₂ (Rereads keeps r.blockContext) ts sts) :
    List.Forall₂ (SpellsItem r.blockContext.contentForm) (r.entries.map DeclarationBlock.entryText ++ texts ts)
      (r.entries.map (fun e => .declaration (.ofEntry e)) ++ sts.map .rule) := by
  refine List.rel_append ?_ (Rereads.spells_texts hts)
  cases hb : r.declarations with
  | none =>
      rw [entries, hb]
      exact .nil
  | some b =>
      rw [contentForm_of_declarations h hb, entries, hb]
      exact (hcontained.2 b hb).spells (hsound.regular b hb)

/-! ## Trees -/

mutual

/-- What a tree is written as is read as one statement, if each of its rules is contained. -/
theorem exists_rereads : ∀ {t : Tree Rule} {c : RuleContext}, Fits keeps c t → Every IsSound t →
    Every IsContained t → Families (fun _ => InOrder) t → ∃ st, Rereads keeps c t st
  | .node r ts, c, hfits, hsound, hcontained, horder => by
      obtain ⟨hr, hfits'⟩ := Tree.fits_node.mp hfits
      obtain ⟨hsoundr, hsound'⟩ := Tree.every_node.mp hsound
      obtain ⟨hcontainedr, hcontained'⟩ := Tree.every_node.mp hcontained
      obtain ⟨horderr, horder'⟩ := Tree.families_node.mp horder
      by_cases hfeatures : r.kind = .featureBlock
      · obtain ⟨m, hm⟩ := features?_of_kind hfeatures
        exact ⟨_, rereads_features (RuleHead.eq_of_features? hm) hfits hsoundr⟩
      obtain ⟨st, hleads, hsole, hsame⟩ := RuleHead.exists_leads hsoundr.valid hsoundr.legible.head hr.allowed
        hfeatures fun hk => hr.context_eq ▸ hcontainedr.1 hk
      obtain ⟨sts, hts⟩ := exists_rereadsAll hfits' hsound' hcontained' horder'
      cases hstatement : r.head.isStatement with
      | true =>
          have hprologue : Sheet.isPrologue r.kind = true := (isStatement_eq r.head).symm.trans hstatement
          obtain ⟨hblock, hnone⟩ := blockContext_of_isPrologue hr.declares hprologue
          rw [hblock] at hfits'
          obtain rfl := Tree.eq_nil_of_fitAll hfits'
          cases hts
          have hspells := hleads.ends hstatement
          rw [← text_of_statement hstatement] at hspells
          refine ⟨st, rereads_of_items hr hsoundr hfeatures hspells (fun _ => rfl) hsole hsame horderr .nil
            fun hkind => ?_⟩
          rw [Statement.items, block_of_classify hkind hprologue, entries, hnone]
          rfl
      | false =>
          obtain ⟨pre, hopens⟩ := hleads.opens hstatement
          obtain ⟨ws, hws, hspells⟩ := hopens.exists_spells (spells_contents hr.declares hsoundr hcontainedr hts)
          rw [← text_of_block (RuleHead.features?_of_ne hfeatures) hstatement] at hspells
          have hblock : st.block.isSome = true := by rw [hopens.block]; rfl
          exact ⟨_, rereads_of_items hr hsoundr hfeatures hspells (fun ns => read_withBlock hblock ws) hsole hsame
            horderr hts fun _ => hws⟩

theorem exists_rereadsAll : ∀ {ts : List (Tree Rule)} {c : RuleContext}, FitAll keeps c ts → EveryOf IsSound ts →
    EveryOf IsContained ts → FamiliesOf (fun _ => InOrder) ts → ∃ sts, List.Forall₂ (Rereads keeps c) ts sts
  | [], _, _, _, _, _ => ⟨[], .nil⟩
  | t :: ts, c, hfits, hsound, hcontained, horder => by
      obtain ⟨hfits, hfits'⟩ := Tree.fitAll_cons.mp hfits
      obtain ⟨hsound, hsound'⟩ := Tree.everyOf_cons.mp hsound
      obtain ⟨hcontained, hcontained'⟩ := Tree.everyOf_cons.mp hcontained
      obtain ⟨horder, horder'⟩ := Tree.familiesOf_cons.mp horder
      obtain ⟨st, ht⟩ := exists_rereads hfits hsound hcontained horder
      obtain ⟨sts, hts⟩ := exists_rereadsAll hfits' hsound' hcontained' horder'
      exact ⟨st :: sts, .cons ht hts⟩

end

end StyleTree
