/-
# `Proofs.Rule.Openings` — the text of a head opens a statement

What a head is written as stands in front of a block, or of the semicolon
that ends the rule.  The statement that it opens there is known in advance
(`Leads`), but for two groups of kinds for two reasons:

    names, or nothing at all         all names are escaped, so the statement is
                                     read as the head (`Preludes`)
    selectors, queries, conditions   parts of them are written without escapes;
    and keys (`composed`)            what statement the text opens, if any, is
                                     seen by reading it alone (`IsContained`),
                                     and what that is read as need not be the
                                     head (`IsReread`)

In both cases it does not matter what is in the block, nor what stands
around the rule (`exists_leads`).
-/
import StyleTree.Proofs.Rule.Preludes
import StyleTree.Proofs.Rule.Reading
import StyleTree.Proofs.Statement.Texts

namespace StyleTree

open ComponentValue Statement

variable {head : RuleHead} {c : RuleContext} {ns : Namespaces} {st : Statement}

/-- The kinds of rules with more than names in front of their block. -/
def RuleKind.composed : List RuleKind := [style, importRule, media, supports, container, keyframe, scope]

theorem RuleKind.cases_composed (k : RuleKind) :
    k ∈ composed ∨ k ∈ named ∨ k ∈ [fontFace, startingStyle, viewTransition] ∨ k = .featureBlock := by
  cases k <;> decide

/-- Whether a statement is a rule depends on its block only as far as it has one. -/
theorem Statement.read_withBlock (h : st.block.isSome = true) (ws : List ComponentValue) :
    ({ st with block := some ws } : Statement).read c ns = st.read c ns := by
  obtain ⟨name, prelude, block⟩ := st
  obtain ⟨vs, rfl⟩ := Option.isSome_iff_exists.mp h
  rfl

theorem toOption_eq_some_iff {ε α : Type} {x : Except ε α} {a : α} : x.toOption = some a ↔ x = .ok a := by
  cases x <;> simp [Except.toOption]

namespace RuleHead

/-! ## Heads read alone -/

/-- The text of a head with the beginning of a block behind it, or with a semicolon. -/
def lead (head : RuleHead) : String := head.text ++ if head.isStatement then ";" else " \x7b"

/-- The statement that this is, taken alone. -/
def statement? (head : RuleHead) (c : RuleContext) : Option Statement := sole? c.contentForm (ofText head.lead)

/-- Taken alone, the text of the head opens one statement and leaves nothing open or behind it. -/
structure IsContained (head : RuleHead) (c : RuleContext) : Prop where
  ends : head.isStatement = true → EndsAlone head.text
  opens : head.isStatement = false → OpensAlone head.text
  sole : (head.statement? c).isSome = true

instance (head : RuleHead) (c : RuleContext) : Decidable (head.IsContained c) :=
  decidable_of_iff (_ ∧ _ ∧ _) ⟨fun h => ⟨h.1, h.2.1, h.2.2⟩, fun h => ⟨h.ends, h.opens, h.sole⟩⟩

/-- The head that is read where this one was written. -/
def reread? (head : RuleHead) (c : RuleContext) (ns : Namespaces) : Option RuleHead :=
  (head.statement? c).bind fun st => (st.read c ns).toOption

/-- That is one of the same kind with the same text. -/
def IsReread (head : RuleHead) (c : RuleContext) (ns : Namespaces) : Prop :=
  ∃ head', head.reread? c ns = some head' ∧ head'.kind = head.kind ∧ head'.text = head.text

instance (head : RuleHead) (c : RuleContext) (ns : Namespaces) : Decidable (head.IsReread c ns) :=
  decidable_of_iff ((head.reread? c ns).any fun head' => head'.kind = head.kind ∧ head'.text = head.text) (by
    simp only [IsReread, Option.any_eq_true, decide_eq_true_eq])

theorem isReread_iff (h : head.statement? c = some st) :
    head.IsReread c ns ↔ ∃ head', st.read c ns = .ok head' ∧ head'.kind = head.kind ∧ head'.text = head.text := by
  simp only [IsReread, reread?, h, Option.bind_some, toOption_eq_some_iff]

/-! ## Heads in front of anything -/

/-- Wherever the text of the head stands, with whatever block behind it if it takes one, it opens the statement. -/
structure Leads (head : RuleHead) (c : RuleContext) (st : Statement) : Prop where
  ends : head.isStatement = true → SpellsItem c.contentForm (head.text ++ ";") (.rule st)
  opens : head.isStatement = false → ∃ pre, Opens c.contentForm head.text pre st

theorem IsContained.leads (h : head.IsContained c) (hst : head.statement? c = some st) : head.Leads c st where
  ends hstatement := by
    rw [statement?, lead, if_pos hstatement] at hst
    exact (h.ends hstatement).spells hst
  opens hstatement := by
    rw [statement?, lead, if_neg (Bool.eq_false_iff.mp hstatement)] at hst
    exact (h.opens hstatement).exists_opens hst

theorem leads_introduced {kw : String} {vs : List ComponentValue} (hkw : IsKeyword kw)
    (h : Introduces kw head.text vs) (c : RuleContext) : head.Leads c (statementOf kw vs head.isStatement) where
  ends hstatement := by
    rw [hstatement]
    exact ⟨_, h.spells hkw c.contentForm⟩
  opens hstatement := by
    rw [hstatement]
    exact ⟨_, h.opens hkw c.contentForm⟩

theorem read_statementOf {kw : String} {vs : List ComponentValue}
    (hkind : AtRule.kindOf (AtRule.canonicalName kw) (!head.isStatement) = .ok head.kind)
    (hallowed : c.allows head.kind = true)
    (hprelude : ofPrelude? head.kind (statementOf kw vs head.isStatement) c ns = some head) :
    (statementOf kw vs head.isStatement).read c ns = .ok head :=
  read_eq_ok.mpr ⟨(classify_statementOf ..).trans hkind, hallowed, hprelude⟩

theorem read_named (hk : head.kind ∈ RuleKind.named) (hvalid : head.IsValid) (h : head.IsLegible)
    (hallowed : c.allows head.kind = true) (ns : Namespaces) :
    (statementOf head.keyword head.values head.isStatement).read c ns = .ok head :=
  read_statementOf (classify_keyword hk hvalid).2 hallowed (ofPrelude?_values hk hvalid h _ c ns)

/-- Heads without a prelude. -/
theorem exists_introduces_bare (hk : head.kind ∈ [RuleKind.fontFace, .startingStyle, .viewTransition])
    (hallowed : c.allows head.kind = true) : ∃ kw, IsKeyword kw ∧ Introduces kw head.text [] ∧
      ∀ ns, (statementOf kw [] head.isStatement).read c ns = .ok head := by
  cases head with
  | fontFace => exact ⟨"font-face", by decide, .bare, fun _ => read_statementOf (by decide +kernel) hallowed rfl⟩
  | startingStyle =>
      exact ⟨"starting-style", by decide, .bare, fun _ => read_statementOf (by decide +kernel) hallowed rfl⟩
  | viewTransition =>
      exact ⟨"view-transition", by decide, .bare, fun _ => read_statementOf (by decide +kernel) hallowed rfl⟩
  | _ => simp [kind] at hk

/-- Every head opens a statement, if it is contained where that is in question; and where it is not, the statement is
read as the head. -/
theorem exists_leads (hvalid : head.IsValid) (hlegible : head.IsLegible) (hallowed : c.allows head.kind = true)
    (hfeatures : head.kind ≠ .featureBlock) (hcontained : head.kind ∈ RuleKind.composed → head.IsContained c) :
    ∃ st, head.Leads c st ∧ (head.kind ∈ RuleKind.composed → head.statement? c = some st) ∧
      (head.kind ∉ RuleKind.composed → ∀ ns, st.read c ns = .ok head) := by
  by_cases hk : head.kind ∈ RuleKind.composed
  · have h := hcontained hk
    obtain ⟨st, hst⟩ := Option.isSome_iff_exists.mp h.sole
    exact ⟨st, h.leads hst, fun _ => hst, fun hk' => absurd hk hk'⟩
  rcases (RuleKind.cases_composed head.kind).resolve_left hk with hnamed | hbare | hfeature
  · obtain ⟨hkw, -⟩ := classify_keyword hnamed hvalid
    exact ⟨_, leads_introduced hkw (introduces hnamed hvalid hlegible) c, fun hk' => absurd hk' hk,
      fun _ => read_named hnamed hvalid hlegible hallowed⟩
  · obtain ⟨kw, hkw, htext, hread⟩ := exists_introduces_bare hbare hallowed
    exact ⟨_, leads_introduced hkw htext c, fun hk' => absurd hk' hk, fun _ => hread⟩
  · exact absurd hfeature hfeatures

end RuleHead

end StyleTree
