/-
# `Proofs.Sheet.Nesting` — what stands below style rules and scopes

A style rule admits only some kinds of rules (`RuleKind.nested`), and so does
a scope.  Each list is checked for itself, so the same holds further down
only as far as the contexts of the blocks hand it on:

    in a style rule      a grouping rule has a block of nested rules
    in such a block      again
    in a scope           a grouping rule has a block like one at the top
                         level, and what stands there is free

Hence the kinds are kept below a style rule or a scope exactly if they are
kept in each grouping rule that hangs in a scope (`ScopedGroup`).  Where
they are not, it is from the first rule of another kind in such a block
that other kinds begin (`Guarded.below`).
-/
import StyleTree.Proofs.Sheet.Contexts

namespace StyleTree

/-! ## Blocks of nested rules -/

/-- The blocks that admit only kinds which may stand under a style rule. -/
def RuleContext.isNested : RuleContext → Bool
  | styleBlock | nestedGroup | scope | declarations => true
  | _ => false

theorem RuleContext.nested_of_allows {c : RuleContext} {k : RuleKind} (hc : c.isNested = true)
    (h : c.allows k = true) : k ∈ RuleKind.nested := by
  cases c with
  | styleBlock | nestedGroup | scope => exact of_decide_eq_true h
  | declarations => cases h
  | _ => cases hc

namespace RuleKind

theorem eq_scope_of_blockContext {k : RuleKind} {c : RuleContext} (h : k.blockContext c = .scope) :
    k = .scope := by
  unfold blockContext groupContext at h
  split at h
  · split at h <;> cases h
  · split at h <;> first | rfl | cases h

/-- Among nested rules only grouping rules look at where they stand. -/
theorem isNested_blockContext {k : RuleKind} {c : RuleContext} (hk : k ∈ nested)
    (hg : k.isGroup = false) : (k.blockContext c).isNested = true := by
  cases k with
  | style | layerStatement | scope => rfl
  | layerBlock | media | supports | container | startingStyle => cases hg
  | _ => exact absurd hk (by decide)

/-- Of the blocks that admit nested rules only, a scope is the only one that does not hand this on. -/
theorem isNested_groupContext {k : RuleKind} {c : RuleContext} (hc : c.isNested = true)
    (h : c.allows k = true) (hg : k.isGroup = true) :
    c = .scope ∨ (k.blockContext c).isNested = true := by
  unfold blockContext
  rw [if_pos hg]
  cases c with
  | styleBlock | nestedGroup => exact Or.inr rfl
  | scope => exact Or.inl rfl
  | declarations => cases h
  | _ => cases hc

end RuleKind

namespace Sheet

variable {s : Sheet} {p c g x : RuleId} {r r' : Rule}

/-! ## Below a rule -/

/-- `x` is among the children of `p`, or below one of them. -/
def Below (s : Sheet) (p x : RuleId) : Prop := ∃ c ∈ s.arena.children p, s.arena.Under c x

/-- A grouping rule that hangs in a scope, directly or by other grouping rules. -/
inductive ScopedGroup (s : Sheet) : RuleId → Prop
  | scope {p g : RuleId} {r r' : Rule} : s.rule? p = some r → r.kind = .scope → g ∈ s.arena.children p →
      s.rule? g = some r' → r'.kind.isGroup = true → ScopedGroup s g
  | group {p g : RuleId} {r' : Rule} : ScopedGroup s p → g ∈ s.arena.children p → s.rule? g = some r' →
      r'.kind.isGroup = true → ScopedGroup s g

/-- Below style rules and scopes there are only rules of the kinds that style rules admit. -/
def NestedOnly (s : Sheet) : Prop :=
  ∀ p r, s.rule? p = some r → r.kind = .style ∨ r.kind = .scope →
    ∀ x r', s.Below p x → s.rule? x = some r' → r'.kind ∈ RuleKind.nested

theorem Below.child (hl : s.Linked) (h : s.Below p x) (hc : c ∈ s.arena.children x) : s.Below p c := by
  obtain ⟨d, hd, hu⟩ := h
  exact ⟨d, hd, hu.child ((hl.mem_children_iff x c).mp hc)⟩

/-- A scoped group is below a scope. -/
theorem ScopedGroup.exists_scope (hl : s.Linked) (h : s.ScopedGroup g) :
    ∃ p r, s.rule? p = some r ∧ r.kind = .scope ∧ s.Below p g := by
  induction h with
  | scope hr hk hc _ _ => exact ⟨_, _, hr, hk, _, hc, .refl⟩
  | group _ hc _ _ ih =>
      obtain ⟨p, r, hr, hk, hbelow⟩ := ih
      exact ⟨p, r, hr, hk, hbelow.child hl hc⟩

/-! ## One step down -/

/-- The block of the rule admits nested rules only, or the rule is a scoped group. -/
def Guarded (s : Sheet) (x : RuleId) : Prop :=
  ∃ r, s.rule? x = some r ∧ (r.blockContext.isNested = true ∨ s.ScopedGroup x)

theorem guarded_of_kind (hr : s.rule? p = some r) (hk : r.kind = .style ∨ r.kind = .scope) :
    s.Guarded p := by
  refine ⟨r, hr, Or.inl ?_⟩
  rw [Rule.blockContext]
  rcases hk with hk | hk
  · rw [hk]
    rfl
  · rw [hk]
    rfl

/-- A child of a nested kind is guarded as its parent is. -/
theorem Guarded.child (h : s.InContext) (hp : s.Guarded p) (hc : c ∈ s.arena.children p)
    (hr : s.rule? c = some r) (hk : r.kind ∈ RuleKind.nested) : s.Guarded c := by
  refine ⟨r, hr, ?_⟩
  cases hg : r.kind.isGroup with
  | false => exact Or.inl (RuleKind.isNested_blockContext hk hg)
  | true =>
      obtain ⟨rp, hrp, hblock | hscoped⟩ := hp
      · have hallows := h.allows_child hc hrp hr
        rcases RuleKind.isNested_groupContext hblock hallows hg with hscope | hnested
        · have hkind := RuleKind.eq_scope_of_blockContext hscope
          exact Or.inr (.scope hrp hkind hc hr hg)
        · rw [Rule.blockContext, h.context_eq hc hrp hr]
          exact Or.inl hnested
      · exact Or.inr (.group hscoped hc hr hg)

/-- What stands in a guarded rule is of a nested kind, unless that rule is a scoped group. -/
theorem Guarded.nested_or (h : s.InContext) (hp : s.Guarded p) (hc : c ∈ s.arena.children p)
    (hr : s.rule? c = some r) : r.kind ∈ RuleKind.nested ∨ s.ScopedGroup p := by
  obtain ⟨rp, hrp, hblock | hscoped⟩ := hp
  · exact Or.inl (RuleContext.nested_of_allows hblock (h.allows_child hc hrp hr))
  · exact Or.inr hscoped

/-! ## All the way down -/

/-- Above `x`, or at it, other kinds than the nested ones begin in a scoped group below `p`. -/
def Strays (s : Sheet) (p x : RuleId) : Prop :=
  ∃ g c r, (g = p ∨ s.Below p g) ∧ s.ScopedGroup g ∧ c ∈ s.arena.children g ∧ s.rule? c = some r ∧
    r.kind ∉ RuleKind.nested ∧ s.arena.Under c x

/-- Along the way down from a guarded rule, all rules are of nested kinds and guarded, or the way went
through a rule that strays. -/
theorem Guarded.below (h : s.InContext) (hl : s.Linked) (hp : s.Guarded p) (hx : s.Below p x)
    (hr : s.rule? x = some r) : r.kind ∈ RuleKind.nested ∧ s.Guarded x ∨ s.Strays p x := by
  -- one step down from a guarded rule `y`, which is `p` or below it
  have hstep : ∀ y c r, (y = p ∨ s.Below p y) → s.Guarded y → c ∈ s.arena.children y →
      s.rule? c = some r → r.kind ∈ RuleKind.nested ∧ s.Guarded c ∨ s.Strays p c := by
    intro y c r hy hguard hc hr
    by_cases hk : r.kind ∈ RuleKind.nested
    · exact Or.inl ⟨hk, hguard.child h hc hr hk⟩
    · have hscoped := (hguard.nested_or h hc hr).resolve_left hk
      exact Or.inr ⟨y, c, r, hy, hscoped, hc, hr, hk, .refl⟩
  obtain ⟨d, hd, hu⟩ := hx
  induction hu generalizing r with
  | refl => exact hstep p d r (Or.inl rfl) hp hd hr
  | @child y x hu hpar ih =>
      have hx := (hl.mem_children_iff y x).mpr hpar
      obtain ⟨ry, -, hry, -, -⟩ := h.child y x hx
      rcases ih hry with ⟨-, hguard⟩ | ⟨g, c, rc, hg, hscoped, hc, hrc, hk, huc⟩
      · exact hstep y x r (Or.inr ⟨d, hd, hu⟩) hguard hx hr
      · exact Or.inr ⟨g, c, rc, hg, hscoped, hc, hrc, hk, huc.child hpar⟩

end Sheet

namespace SharedSheet

/-- Whatever was done to a sheet, all rules below its style rules and scopes are of the kinds that style
rules admit, exactly if that is so of the rules in its scoped groups.  A rule of another kind below a style
rule or a scope is in a scoped group there, or below a rule of another kind in one. -/
theorem nested_only_iff {σ : SharedSheet} (h : σ.Reachable) :
    (σ.sheet.NestedOnly ↔ ∀ g c r, σ.sheet.ScopedGroup g → c ∈ σ.sheet.arena.children g →
      σ.sheet.rule? c = some r → r.kind ∈ RuleKind.nested) ∧
      ∀ p r, σ.sheet.rule? p = some r → r.kind = .style ∨ r.kind = .scope →
        ∀ x r', σ.sheet.Below p x → σ.sheet.rule? x = some r' → r'.kind ∉ RuleKind.nested →
          σ.sheet.Strays p x := by
  obtain ⟨ts, hs, hfit⟩ := Sheet.invariant_fits.of_reachable h
  have hc := hs.inContext hfit
  have hl : σ.sheet.Linked := Sheet.IsForest.linked ⟨ts, hs⟩
  have hstrays : ∀ p r, σ.sheet.rule? p = some r → r.kind = .style ∨ r.kind = .scope →
      ∀ x r', σ.sheet.Below p x → σ.sheet.rule? x = some r' → r'.kind ∉ RuleKind.nested →
        σ.sheet.Strays p x := by
    intro p r hr hk x r' hx hr' hk'
    rcases (Sheet.guarded_of_kind hr hk).below hc hl hx hr' with ⟨hnested, -⟩ | hstrays
    · exact absurd hnested hk'
    · exact hstrays
  refine ⟨⟨fun hall g c r hg hchild hr => ?_, fun hall p r hr hk x r' hx hr' => ?_⟩, hstrays⟩
  · obtain ⟨p, rp, hrp, hkp, hbelow⟩ := hg.exists_scope hl
    exact hall p rp hrp (Or.inr hkp) c r (hbelow.child hl hchild) hr
  · by_contra hk'
    obtain ⟨g, c, rc, -, hg, hchild, hrc, hkc, -⟩ := hstrays p r hr hk x r' hx hr' hk'
    exact hkc (hall g c rc hg hchild hrc)

/-- A scoped group that holds a style rule. -/
theorem nested_only_in_scope :
    let σ := ofSheet (Sheet.read .scripted "a{@scope{@media print{b{}}}}")
    σ.sheet.NestedOnly ∧ (σ.sheet.rule? ⟨3, 1⟩).map Rule.blockContext = some .group := by
  intro σ
  have hσ : σ.Reachable := ⟨σ, [], .read _ _, rfl⟩
  have hfacts : (∀ id ∈ σ.sheet.arena.ids,
        ((σ.sheet.rule? id).map Rule.kind).all (· ∈ RuleKind.nested) = true) ∧
      (σ.sheet.rule? ⟨3, 1⟩).map Rule.blockContext = some .group := by
    decide +kernel
  refine ⟨(nested_only_iff hσ).1.mpr fun g c r _ _ hr => ?_, hfacts.2⟩
  have hc := hfacts.1 c (Sheet.mem_ids_of_rule? hr)
  rw [hr] at hc
  exact of_decide_eq_true hc

/-- A scoped group that holds a rule of another kind, all below a style rule. -/
theorem font_face_below_style :
    let σ := ofSheet (Sheet.read .scripted "a{@scope{@media print{@font-face{}}}}")
    σ.Reachable ∧ ¬ σ.sheet.NestedOnly := by
  intro σ
  refine ⟨⟨σ, [], .read _ _, rfl⟩, fun h => ?_⟩
  obtain ⟨hstyle, hface, hchild, hgroup, hparent⟩ :
      (σ.sheet.rule? ⟨1, 1⟩).map Rule.kind = some .style ∧
        (σ.sheet.rule? ⟨4, 1⟩).map Rule.kind = some .fontFace ∧
        ⟨2, 1⟩ ∈ σ.sheet.arena.children ⟨1, 1⟩ ∧ σ.sheet.arena.parent? ⟨3, 1⟩ = some ⟨2, 1⟩ ∧
        σ.sheet.arena.parent? ⟨4, 1⟩ = some ⟨3, 1⟩ := by
    decide +kernel
  obtain ⟨r, hr, hk⟩ := Option.map_eq_some_iff.mp hstyle
  obtain ⟨r', hr', hk'⟩ := Option.map_eq_some_iff.mp hface
  have hbelow : σ.sheet.Below ⟨1, 1⟩ ⟨4, 1⟩ := ⟨⟨2, 1⟩, hchild, .child (.child .refl hgroup) hparent⟩
  have hnested := h ⟨1, 1⟩ r hr (Or.inl hk) ⟨4, 1⟩ r' hbelow hr'
  rw [hk'] at hnested
  exact absurd hnested (by decide)

end SharedSheet

end StyleTree
