/-
# `Proofs.Sheet.Children` — children written among declarations

Where the block of a rule holds declarations, its children are written among
them, and the first value of a child's text decides how it is read back:

    @name …       a rule
    name …        a declaration
    all else      a rule, if a block comes before any semicolon

A child that is no style rule begins with its keyword.  A style rule begins
as its first selector does (`child_reads_as_rule`).  Selectors that begin
with a name are not read from such a block, but insertion and the change of
selectors read their text as it stands at the top level, and dropping the
selectors in front can bring one there, too.
-/
import StyleTree.Proofs.Rule.First
import StyleTree.Proofs.Sheet.Heads

namespace StyleTree

open ComponentValue Statement

variable {s t : String} {vs : List ComponentValue} {v : ComponentValue}

/-! ## Texts among declarations -/

/-- Among declarations the text is read as a rule first. -/
def ReadsAsRule (s : String) : Prop := ∃ st items, split .declarations (ofText s) = .rule st :: items

/-- The text is one prelude, without a semicolon, and one block in braces behind it. -/
def isBraced (s : String) : Bool :=
  match ofText s with
  | [] => false
  | v :: vs =>
    let r := preludeOf true (v :: vs)
    !isSkipped .declarations v && r.2.1.block?.isSome && r.2.2.isEmpty

theorem exists_of_isBraced (h : isBraced s = true) :
    ∃ v vs pre contents, ofText s = v :: vs ∧ isSkipped .declarations v = false ∧
      v :: vs = pre ++ [.block (.bracket .curly) contents] ∧ Plain true pre := by
  unfold isBraced at h
  split at h
  · cases h
  · next v vs hs =>
      simp only [Bool.and_eq_true, Bool.not_eq_true'] at h
      obtain ⟨⟨hkept, hblock⟩, hrest⟩ := h
      have hends := ends_preludeOf true (v :: vs)
      generalize preludeOf true (v :: vs) = r at hends hblock hrest
      generalize hvs : v :: vs = ws at hends
      cases hends with
      | block hplain =>
          obtain rfl := List.isEmpty_iff.mp hrest
          exact ⟨v, vs, _, _, hs, hkept, hvs, hplain⟩
      | _ => cases hblock

/-- A text that starts with a name and has no semicolon gives no rule. -/
theorem split_of_ident {n : String} (h : ∀ v ∈ vs, v.isSemicolon = false) :
    ∀ st items, split .declarations (.token (.ident n) :: vs) ≠ .rule st :: items := by
  intro st items hsplit
  have huntil : untilSemicolon (vs ++ []) = _ := untilSemicolon_of_plain h
  rw [List.append_nil, untilSemicolon] at huntil
  rw [split, nextItem_declaration, huntil, List.append_nil] at hsplit
  cases hd : WrittenDeclaration.ofValues? (.token (.ident n) :: vs) with
  | none =>
      rw [hd, split] at hsplit
      cases hsplit
  | some d =>
      rw [hd, split] at hsplit
      cases hsplit

/-- A prelude and a block are read as a rule unless they start with a name. -/
theorem readsAsRule_iff_of_isBraced (h : isBraced s = true) : ReadsAsRule s ↔ ¬ StartsWithIdent s := by
  obtain ⟨v, vs, pre, contents, hs, hkept, hvs, hplain⟩ := exists_of_isBraced h
  unfold ReadsAsRule StartsWithIdent
  rw [hs]
  -- a piece that is a rule is the first item
  have hrule : ∀ {st}, Piece .declarations (v :: vs) (some (.rule st)) →
      ∃ st items, split .declarations (v :: vs) = .rule st :: items := by
    intro st hpiece
    have hsplit := split_piece hpiece []
    rw [List.append_nil] at hsplit
    exact ⟨_, _, hsplit⟩
  rcases starts_cases .declarations v with hskip | ⟨n, rfl⟩ | ⟨-, n, rfl⟩ | hv
  · rw [hkept] at hskip
    cases hskip
  · refine iff_of_true ?_ (by rintro ⟨_, _, ⟨⟩⟩)
    cases pre with
    | nil => cases hvs
    | cons u pre =>
        obtain ⟨rfl, rfl⟩ := List.cons.inj hvs
        exact hrule (.atBlock (plain_cons.mp hplain).2)
  · refine iff_of_false ?_ (fun hn => hn ⟨n, _, rfl⟩)
    rintro ⟨st, items, hsplit⟩
    refine split_of_ident (fun u hu => ?_) st items hsplit
    have hmem : u ∈ pre ++ [.block (.bracket .curly) contents] := hvs ▸ List.mem_cons_of_mem _ hu
    rcases List.mem_append.mp hmem with hu | hu
    · exact (hplain u hu).2
    · rw [List.mem_singleton.mp hu]
      rfl
  · refine iff_of_true (hrule (.qualified hv hvs hplain)) ?_
    rintro ⟨n, us, hn⟩
    obtain ⟨rfl, -⟩ := List.cons.inj hn
    cases hv.noName

/-! ## Margin boxes -/

/-- A valid margin rule is for a box that there is. -/
theorem RuleHead.IsValid.hasBox {head : RuleHead} (h : head.IsValid) : head.HasBox := by
  rintro i rfl
  exact h.2

/-! ## Children -/

namespace Sheet

/-- The value of a tree is the rule at its node. -/
theorem rule?_of_tree? {s : Sheet} {id : RuleId} {t : Tree Rule} (h : s.tree? id = some t) :
    s.rule? id = some t.value := by
  obtain ⟨u, hu, rfl⟩ := Option.map_eq_some_iff.mp h
  unfold Arena.tree? at hu
  unfold rule? Arena.value?
  cases hsize : s.arena.size with
  | zero =>
      rw [hsize] at hu
      cases hu
  | succ n =>
      rw [hsize, Arena.treeFrom] at hu
      obtain ⟨node, hnode, rfl⟩ := Option.map_eq_some_iff.mp hu
      rw [hnode]
      rfl

/-- Every child that is written among declarations is read back as a rule first. -/
def ChildrenReadAsRules (s : Sheet) : Prop :=
  ∀ p c r t, s.rule? p = some r → r.blockContext.contentForm = .declarations →
    c ∈ s.arena.children p → s.tree? c = some t → ReadsAsRule (Rule.text t)

end Sheet

theorem RuleContext.contentForm_of_allows_keyframe {c : RuleContext} (h : c.allows .keyframe = true) :
    c.contentForm ≠ .declarations := by
  cases c with
  | keyframes => exact nofun
  | _ => cases h

namespace SharedSheet

/-- Whatever was done to a sheet: of the children that are written among declarations, those that are no
style rules are read back as rules.  A style rule is taken for a declaration exactly if its first selector
begins with a name; and if its text is a prelude and a block, it is else read back as a rule. -/
theorem child_reads_as_rule {σ : SharedSheet} (h : σ.Reachable) {p c : RuleId} {r : Rule} {t : Tree Rule}
    (hr : σ.sheet.rule? p = some r) (hform : r.blockContext.contentForm = .declarations)
    (hc : c ∈ σ.sheet.arena.children p) (ht : σ.sheet.tree? c = some t) :
    (t.value.kind ≠ .style → ReadsAsRule (Rule.text t)) ∧
      (t.value.kind = .style →
        (StartsWithIdent (Rule.text t) ↔ t.value.head.startsNamed = true) ∧
          (isBraced (Rule.text t) = true →
            (ReadsAsRule (Rule.text t) ↔ t.value.head.startsNamed = false))) := by
  obtain ⟨ts, hs, hfit⟩ := Sheet.invariant_fits.of_reachable h
  have hrc := Sheet.rule?_of_tree? ht
  have hallows := (hs.inContext hfit).allows_child hc hr hrc
  have hbox := (Rule.ruleInvariant_isProduced.of_reachable h hrc).isValid.hasBox
  obtain ⟨rc, us⟩ := t
  refine ⟨fun hstyle => ?_, fun hstyle => ?_⟩
  · have hkey : rc.kind ≠ .keyframe := fun hk =>
      RuleContext.contentForm_of_allows_keyframe (hk ▸ hallows) hform
    exact split_of_beginsAt (Rule.beginsAt_text hbox hstyle hkey)
  · have hident : StartsWithIdent (Rule.text (.node rc us)) ↔ rc.head.startsNamed = true :=
      Rule.startsWithIdent_iff hstyle
    refine ⟨hident, fun hbraced => ?_⟩
    rw [readsAsRule_iff_of_isBraced hbraced, hident, Bool.not_eq_true]
    exact Iff.rfl

/-- A grouping rule and a style rule in the block of a style rule. -/
theorem children_read_as_rules_nested :
    let σ := ofSheet (Sheet.read .scripted "a{@media print{}&:hover{}}")
    ∃ t u, σ.sheet.tree? ⟨2, 1⟩ = some t ∧ σ.sheet.tree? ⟨3, 1⟩ = some u ∧ ReadsAsRule (Rule.text t) ∧
      ReadsAsRule (Rule.text u) := by
  intro σ
  have hσ : σ.Reachable := ⟨σ, [], .read _ _, rfl⟩
  obtain ⟨hform, hmedia, hstyle, htree, htree'⟩ :
      (σ.sheet.rule? ⟨1, 1⟩).map (fun r => r.blockContext.contentForm) = some .declarations ∧
        ⟨2, 1⟩ ∈ σ.sheet.arena.children ⟨1, 1⟩ ∧ ⟨3, 1⟩ ∈ σ.sheet.arena.children ⟨1, 1⟩ ∧
        (σ.sheet.tree? ⟨2, 1⟩).map (fun t => t.value.kind) = some .media ∧
        (σ.sheet.tree? ⟨3, 1⟩).map (fun t => (t.value.kind, t.value.head.startsNamed, isBraced (Rule.text t))) =
          some (.style, false, true) := by
    decide +kernel
  obtain ⟨r, hr, hform⟩ := Option.map_eq_some_iff.mp hform
  obtain ⟨t, ht, hk⟩ := Option.map_eq_some_iff.mp htree
  obtain ⟨u, hu, hfacts⟩ := Option.map_eq_some_iff.mp htree'
  simp only [Prod.mk.injEq] at hfacts
  obtain ⟨hkind, hnamed, hbraced⟩ := hfacts
  refine ⟨t, u, ht, hu, (child_reads_as_rule hσ hr hform hmedia ht).1 (by rw [hk]; decide), ?_⟩
  exact (((child_reads_as_rule hσ hr hform hstyle hu).2 hkind).2 hbraced).mpr hnamed

/-- A style rule inserted under a scope begins with a name, and is lost when the text is read back. -/
theorem child_taken_for_declaration :
    let σ := (ofSheet (Sheet.read .scripted "@scope{}")).step (.edit (.insert (.under ⟨1, 1⟩) "b{}" 0))
    σ.Reachable ∧ ¬ σ.sheet.ChildrenReadAsRules := by
  intro σ
  refine ⟨⟨_, [.edit (.insert (.under ⟨1, 1⟩) "b{}" 0)], .read _ _, rfl⟩, fun h => ?_⟩
  obtain ⟨hform, hchild, hsplit⟩ :
      (σ.sheet.rule? ⟨1, 1⟩).map (fun r => r.blockContext.contentForm) = some .declarations ∧
        ⟨2, 1⟩ ∈ σ.sheet.arena.children ⟨1, 1⟩ ∧
        (σ.sheet.tree? ⟨2, 1⟩).map (fun t => (split .declarations (ofText (Rule.text t))).length) = some 0 := by
    decide +kernel
  obtain ⟨r, hr, hform⟩ := Option.map_eq_some_iff.mp hform
  obtain ⟨t, ht, hsplit⟩ := Option.map_eq_some_iff.mp hsplit
  obtain ⟨st, items, hrule⟩ := h ⟨1, 1⟩ ⟨2, 1⟩ r t hr hform hchild ht
  rw [hrule] at hsplit
  cases hsplit

end SharedSheet

end StyleTree
