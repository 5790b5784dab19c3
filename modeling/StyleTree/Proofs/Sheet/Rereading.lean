/-
# `Proofs.Sheet.Rereading` — the text of a sheet, read again

The text of a sheet is one statement for each rule at its top level, if each
rule is contained (`Rule.Rereading`).  The top level is read from the front,
with the zone and the namespaces as they are there.  Neither makes a
difference: the rules that may stand before a namespace rule do not look at
the namespaces, and all others stand behind the last of them
(`namespaces_of_body`).  So the sheet that is read shows the same as the
first if and only if each rule is reread, for itself, with the namespaces of
the sheet (`sheet_reads_back_iff`).
-/
import StyleTree.Proofs.Rule.Rereading
import StyleTree.Proofs.Sheet.Declarations
import StyleTree.Proofs.Sheet.Features
import StyleTree.Proofs.Sheet.Heads
import StyleTree.Proofs.Sheet.Namespaces
import StyleTree.Proofs.Sheet.Order
import StyleTree.Proofs.Sheet.Renewal
import StyleTree.Proofs.Sheet.Siblings

namespace StyleTree

open ComponentValue Statement
open StyleTree.Tree (Every EveryOf Fits FitAll mapAll bareAll)
open StyleTree.Rule (shown IsSound)

variable {o : ReadOptions} {ns : Namespaces} {keeps imports : Bool} {st : Statement} {head : RuleHead} {z : Zone}
variable {ts : List (Tree Rule)} {sts : List Statement} {c : RuleContext}

/-! ## Namespaces at the top level -/

/-- Rules that may stand before a namespace rule are read without a look at the namespaces. -/
theorem Statement.read_of_isPrologue (h : st.read c ns = .ok head) (hk : Sheet.isPrologue head.kind = true)
    (ns' : Namespaces) : st.read c ns' = .ok head := by
  obtain ⟨hclassify, hallowed, hprelude⟩ := read_eq_ok.mp h
  refine read_eq_ok.mpr ⟨hclassify, hallowed, ?_⟩
  rw [← hprelude]
  generalize head.kind = k at hk
  cases k <;> first | rfl | cases hk

theorem RuleHead.isReread_of_isPrologue (hk : Sheet.isPrologue head.kind = true) (h : head.IsReread c ns)
    (ns' : Namespaces) : head.IsReread c ns' := by
  obtain ⟨head', hreread, hkind, htext⟩ := h
  obtain ⟨st, hst, hread⟩ := Option.bind_eq_some_iff.mp hreread
  have hread : st.read c ns = .ok head' := toOption_eq_some_iff.mp hread
  exact (isReread_iff hst).mpr ⟨head', read_of_isPrologue hread (hkind ▸ hk) ns', hkind, htext⟩

/-- The namespaces behind some rules. -/
def Namespaces.behind (ns : Namespaces) (ts : List (Tree Rule)) : Namespaces :=
  ts.foldl (fun ns t => t.value.head.declare ns) ns

theorem RuleHead.declare_of_kind (h : head.kind ≠ .namespaceRule) (ns : Namespaces) : head.declare ns = ns :=
  declare_of_none (declaration?_eq_none h) ns

/-- Behind the beginning of the body no namespace is declared. -/
theorem namespaces_of_body (h : (Zone.behind (some .body) (ts.map fun t => t.value.kind)).isSome = true)
    (ns : Namespaces) : ns.behind ts = ns := by
  have hbody : Zone.Body (ts.map fun t => t.value.kind) := (Zone.behind_isSome_iff .body).mp h
  clear h
  induction ts with
  | nil => rfl
  | cons t ts ih =>
      obtain ⟨ht, hts⟩ := Zone.body_cons.mp hbody
      rw [Namespaces.behind, List.foldl_cons, RuleHead.declare_of_kind ht.2]
      exact ih hts

/-! ## The top level, read again -/

theorem Draft.length_sheet_le (o : ReadOptions) (imports : Bool) (items : List Item) : ∀ z ns,
    (sheet o imports z ns items).1.length ≤ items.length := by
  induction items with
  | nil => exact fun _ _ => Nat.le_refl 0
  | cons item items ih =>
      intro z ns
      cases item with
      | declaration d => exact Nat.le_succ_of_le (ih z ns)
      | rule st =>
          cases hr : st.readTop? imports z ns with
          | none =>
              rw [sheet_of_none hr]
              exact Nat.le_succ_of_le (ih z ns)
          | some found =>
              rw [sheet_of_some hr]
              exact Nat.succ_le_succ (ih _ _)

/-- What a tree declares is what is declared where it is read again. -/
theorem Rereads.declare_eq {t : Tree Rule} (h : Rereads keeps c t st) (hread : st.read c ns = .ok head)
    (hkind : head.kind = t.value.kind) : head.declare ns = t.value.head.declare ns := by
  by_cases hk : t.value.kind = .namespaceRule
  · have hsame := h.same (by rw [hk]; decide) (by rw [hk]; decide) ns
    rw [Except.ok.inj (hread.symm.trans hsame)]
  · rw [RuleHead.declare_of_kind (hkind.trans_ne hk), RuleHead.declare_of_kind hk]

/-- At the top level a rule is reread with the namespaces there if and only if it is with those of the sheet. -/
theorem every_isReread_iff {t : Tree Rule} (hfits : Fits keeps .stylesheet t)
    (hz : (Zone.behind (some z) ((t :: ts).map fun t => t.value.kind)).isSome = true) (ns : Namespaces) :
    Every (Rule.IsReread o ns) t ↔ Every (Rule.IsReread o (ns.behind (t :: ts))) t := by
  by_cases hk : Sheet.isPrologue t.value.kind = true
  · obtain ⟨r, us⟩ := t
    obtain ⟨hr, hus⟩ := Tree.fits_node.mp hfits
    have hblock := (Rule.blockContext_of_isPrologue hr.declares hk).1
    rw [hblock] at hus
    obtain rfl := Tree.eq_nil_of_fitAll hus
    have hmove : ∀ {ns ns'}, r.IsReread o ns → r.IsReread o ns' :=
      fun h => ⟨fun hcomposed => RuleHead.isReread_of_isPrologue hk (h.1 hcomposed) _, h.2⟩
    rw [Tree.every_node, Tree.every_node]
    exact and_congr ⟨hmove, hmove⟩ (iff_of_true Tree.everyOf_nil Tree.everyOf_nil)
  · have hbody : z.advance t.value.kind = some .body :=
      Zone.advance_other z (fun h => hk (h ▸ rfl)) (fun h => hk (h ▸ rfl)) fun h => hk (h ▸ rfl)
    rw [List.map_cons, Zone.behind_cons, hbody] at hz
    rw [Namespaces.behind, List.foldl_cons, RuleHead.declare_of_kind fun h => hk (by rw [Rule.kind, h]; rfl)]
    exact Iff.of_eq (congrArg (fun ns => Every (Rule.IsReread o ns) t) (namespaces_of_body hz ns).symm)

/-- Where what is read of a statement shows the same as the tree, the zone and the namespaces behind it are those
behind the tree. -/
theorem Rereads.sheet_eq {t : Tree Rule} {z' : Zone} (h : Rereads keeps .stylesheet t st)
    (hadvance : z.advance t.value.kind = some z') (himport : imports = false → t.value.kind ≠ .importRule)
    (hshown : (Draft.childTree? o ns .stylesheet (.rule st)).map (Tree.map shown) = some (t.map shown))
    (items : List Item) :
    ∃ d : Draft, d.tree.map shown = t.map shown ∧ Draft.sheet o imports z ns (.rule st :: items) =
      (d :: (Draft.sheet o imports z' (t.value.head.declare ns) items).1,
        (Draft.sheet o imports z' (t.value.head.declare ns) items).2) := by
  obtain ⟨u, hu, hshown⟩ := Option.map_eq_some_iff.mp hshown
  obtain ⟨head, hread, rfl⟩ := Draft.childTree?_eq_some.mp hu
  have hkind := Draft.kind_of_shown hshown
  have htop : st.readTop? imports z ns = some (head, z') := by
    refine readTop?_eq_some.mpr ⟨hread, ?_, ?_⟩
    all_goals rw [hkind]
    · exact fun h => himport h.2 h.1
    · exact hadvance
  refine ⟨_, hshown, ?_⟩
  rw [Draft.sheet_of_some htop, h.declare_eq hread hkind]

/-- Trees that are read and show the same as those written begin with one that does. -/
theorem shown_of_sheet {t : Tree Rule} {items : List Item} (hlength : items.length ≤ ts.length)
    (h : mapAll shown ((Draft.sheet o imports z ns (.rule st :: items)).1.map Draft.tree) = mapAll shown (t :: ts)) :
    (Draft.childTree? o ns .stylesheet (.rule st)).map (Tree.map shown) = some (t.map shown) := by
  cases hr : st.readTop? imports z ns with
  | none =>
      have hle := Draft.length_sheet_le o imports items z ns
      rw [← List.length_map (f := Draft.tree)] at hle
      rw [Draft.sheet_of_none hr] at h
      exact absurd h (Tree.mapAll_ne_of_length_le (hle.trans hlength))
  | some found =>
      have hread := (readTop?_eq_some.mp hr).1
      rw [Draft.sheet_of_some hr, List.map_cons, mapAll, mapAll, List.cons.injEq] at h
      rw [Draft.childTree?_eq_some.mpr ⟨_, hread, rfl⟩, Option.map_some, h.1]

/-- The rules of a sheet, read again from any zone that they may follow. -/
theorem shown_sheet_iff (hfits : FitAll keeps .stylesheet ts) (hts : List.Forall₂ (Rereads keeps .stylesheet) ts sts)
    (hkeeps : o.keepsGroupDeclarations = keeps)
    (himports : imports = false → ∀ t ∈ ts, t.value.kind ≠ .importRule) : ∀ z ns,
    (Zone.behind (some z) (ts.map fun t => t.value.kind)).isSome = true →
      (mapAll shown ((Draft.sheet o imports z ns (sts.map .rule)).1.map Draft.tree) = mapAll shown ts ↔
        EveryOf (Rule.IsReread o (ns.behind ts)) ts) ∧
      (EveryOf (Rule.IsReread o (ns.behind ts)) ts →
        (Draft.sheet o imports z ns (sts.map .rule)).2 = ns.behind ts) := by
  induction hts with
  | nil => exact fun z ns _ => ⟨iff_of_true rfl Tree.everyOf_nil, fun _ => rfl⟩
  | @cons t st ts sts ht hts ih =>
      obtain ⟨hfit, hfits⟩ := Tree.fitAll_cons.mp hfits
      intro z ns hz
      have hreads := (ht.reads o ns hkeeps).trans (every_isReread_iff hfit hz ns)
      rw [List.map_cons, Zone.behind_cons] at hz
      obtain ⟨z', hadvance⟩ : ∃ z', z.advance t.value.kind = some z' := by
        cases hadvance : z.advance t.value.kind with
        | none =>
            rw [hadvance, Zone.behind_none] at hz
            cases hz
        | some z' => exact ⟨z', rfl⟩
      rw [hadvance] at hz
      obtain ⟨hshown, hnamespaces⟩ := ih hfits (fun himp u hu => himports himp u (List.mem_cons_of_mem t hu)) z'
        (t.value.head.declare ns) hz
      have hbehind : ns.behind (t :: ts) = (t.value.head.declare ns).behind ts := rfl
      have hlength : (sts.map Item.rule).length ≤ ts.length := by rw [List.length_map, hts.length_eq]
      have himport := fun himp => himports himp t List.mem_cons_self
      rw [Tree.everyOf_cons, ← hreads, hbehind, List.map_cons]
      refine ⟨⟨fun h => ?_, fun ⟨hfirst, hothers⟩ => ?_⟩, fun ⟨hfirst, hothers⟩ => ?_⟩
      · have hfirst := shown_of_sheet hlength h
        obtain ⟨d, -, heq⟩ := ht.sheet_eq hadvance himport hfirst (sts.map .rule)
        rw [heq, List.map_cons, mapAll, mapAll, List.cons.injEq] at h
        exact ⟨hfirst, hshown.mp h.2⟩
      · obtain ⟨d, hd, heq⟩ := ht.sheet_eq hadvance himport hfirst (sts.map .rule)
        rw [heq, List.map_cons, mapAll, mapAll, hd, hshown.mpr hothers]
      · obtain ⟨d, -, heq⟩ := ht.sheet_eq hadvance himport hfirst (sts.map .rule)
        rw [heq]
        exact hnamespaces hothers

/-! ## Sheets -/

namespace Sheet

variable {c : HostSettings} {text : String}

/-- The trees of the sheet, with what the text of each rule shows. -/
def shown (s : Sheet) : List (Tree Rule.Shown) := mapAll Rule.shown (bareAll s.forest)

/-- No rule of the sheet spills over. -/
def IsContained (s : Sheet) : Prop := EveryOf Rule.IsContained (bareAll s.forest)

instance (s : Sheet) : Decidable s.IsContained :=
  inferInstanceAs (Decidable (∀ r ∈ Tree.valuesOf (bareAll s.forest), r.IsContained))

/-- Each rule of the sheet, taken for itself, is read as it was written. -/
def IsReread (s : Sheet) : Prop := EveryOf (Rule.IsReread s.settings.options s.namespaces) (bareAll s.forest)

instance (s : Sheet) : Decidable s.IsReread :=
  inferInstanceAs (Decidable
    (∀ r ∈ Tree.valuesOf (bareAll s.forest), r.IsReread s.settings.options s.namespaces))

theorem everyOf_isSound (c : HostSettings) (text : String) : EveryOf IsSound (bareAll (read c text).forest) := by
  have hbare := forest_read c text
  have hproduced := Tree.everyOf_bareAll.mpr (Rule.ruleInvariant_isProduced.everyOf_ofText hbare)
  have hregular := Tree.everyOf_bareAll.mpr (Rule.ruleInvariant_isRegular.everyOf_ofText hbare)
  have hlawful := Tree.everyOf_bareAll.mpr (Rule.ruleInvariant_hasLawfulFeatures.everyOf_ofText hbare)
  have hlegible := Draft.everyOf_isLegible c.options (!c.constructed) text
  rw [← hbare] at hlegible
  exact fun r hr => ⟨(hproduced r hr).isValid, hlegible r hr, hregular r hr, hlawful r hr⟩

theorem behind_of_read (c : HostSettings) (text : String) :
    Namespaces.empty.behind (bareAll (read c text).forest) = (read c text).namespaces := by
  have hdeclared : (read c text).namespaces = Namespaces.ofList (Tree.declarations (read c text).forest) :=
    namespaces_ofText (forest_read c text)
  have hrules := foldl_declare ((bareAll (read c text).forest).map Tree.value) .empty
  rw [List.foldl_map, List.filterMap_map] at hrules
  rw [hdeclared, Namespaces.ofList_eq, declarations_eq_bareAll]
  exact hrules

/-- The text of a sheet, one line for each rule at the top, is read as its statements. -/
theorem split_listText {sts : List Statement} {ts : List (Tree Rule)}
    (h : List.Forall₂ (Rereads keeps .stylesheet) ts sts) :
    split .stylesheet (ofText (Rule.listText ts)) = sts.map .rule := by
  have hspells := Rereads.spells_texts h
  cases h with
  | nil => rw [Rule.listText, Rule.texts, Text.joined, ofText_empty, split, List.map_nil]
  | cons _ _ =>
      obtain ⟨vs, hvs⟩ := exists_spells_joined hspells (List.cons_ne_nil _ _) (.inr rfl)
      exact hvs.split_ofText

/-- What is written for a sheet in which no rule spills over is read as a sheet again.  The two show the same if and
only if each rule, for itself, is read as it was written; and then they are written alike. -/
theorem sheet_reads_back_iff (c : HostSettings) (text : String) (h : (read c text).IsContained) :
    ((read c (read c text).text).shown = (read c text).shown ↔ (read c text).IsReread) ∧
      ((read c text).IsReread → (read c (read c text).text).text = (read c text).text ∧
        (read c (read c text).text).namespaces = (read c text).namespaces) := by
  have hbare := forest_read c text
  have hzones := inZones_ofText hbare
  have hfits := fitAll_of_bare hbare
  obtain ⟨sts, hsts⟩ := exists_rereadsAll hfits (everyOf_isSound c text) h (familiesOf_of_bare hbare)
  have himports : (!c.constructed) = false → ∀ t ∈ bareAll (read c text).forest, t.value.kind ≠ .importRule := by
    intro hc t ht hk
    refine hzones.no_import (by simpa using hc) ?_
    rw [topKinds_eq_map_bareAll]
    exact hk ▸ List.mem_map_of_mem ht
  have hzone := (Zone.accepts_iff_inOrder _).mpr hzones.inOrder
  rw [topKinds_eq_map_bareAll] at hzone
  obtain ⟨hshown, hnamespaces⟩ := shown_sheet_iff (o := c.options) hfits hsts rfl himports .start .empty hzone
  rw [behind_of_read, ← split_listText hsts] at hshown hnamespaces
  have hreread : (read c (read c text).text).shown = (read c text).shown ↔ (read c text).IsReread := by
    rw [shown, forest_read]
    exact hshown
  exact ⟨hreread, fun hr => ⟨Rule.listText_eq_of_shown (hreread.mpr hr), hnamespaces hr⟩⟩

/-- A namespace that is used, blocks in blocks, and values with brackets and a mark. -/
theorem sheet_reads_back_iff_nested :
    let s := read .scripted
      "@namespace a url(x);@media print and (color)\x7ba|b\x7bcolor:red!important;--x:[;];&:hover c\x7b\x7d\x7d\x7d"
    s.IsContained ∧ (read .scripted s.text).shown = s.shown ∧ (read .scripted s.text).text = s.text := by
  intro s
  obtain ⟨hcontained, hreread⟩ : s.IsContained ∧ s.IsReread := by decide +kernel
  obtain ⟨hshown, halike⟩ := sheet_reads_back_iff .scripted _ hcontained
  exact ⟨hcontained, hshown.mpr hreread, (halike hreread).1⟩

/-- A medium that is written without an escape that it needs, and an offset that loses its sign. -/
example : let s := read .scripted "@media \\31 x\x7b\x7d@keyframes a\x7b-0.0%\x7b\x7d\x7d"
    s.IsContained ∧ ¬ s.IsReread := by decide +kernel

end Sheet

end StyleTree
