/-
# `Proofs.Rule.Reading` — what it means that a statement was read

A statement is read in three steps: its kind is told from its name and its
block, the context admits the kind, and the prelude is read as one of that
kind.  `read_eq_ok` has the three as one equivalence.  The kinds that may
stand before a namespace rule have no block, so rules of these kinds have
nothing below them (`block_of_classify`).
-/
import StyleTree.Sheet.Lists

namespace StyleTree

variable {st : Statement} {c : RuleContext} {ns : Namespaces} {k : RuleKind} {head : RuleHead}

theorem Prelude.nothing_eq_some {h h' : RuleHead} {vs : List ComponentValue}
    (hn : Prelude.nothing h vs = some h') : h' = h := by
  unfold Prelude.nothing at hn
  split at hn
  · cases hn
    rfl
  · cases hn

/-- What a prelude says is of the kind it was read for. -/
theorem RuleHead.kind_of_ofPrelude? (h : RuleHead.ofPrelude? k st c ns = some head) :
    head.kind = k := by
  cases k with
  | layerBlock =>
      simp only [RuleHead.ofPrelude?] at h
      split at h
      · cases h
        rfl
      · obtain ⟨n, -, rfl⟩ := Option.map_eq_some_iff.mp h
        rfl
  | media =>
      cases h
      rfl
  | margin | featureBlock =>
      obtain ⟨_, -, h⟩ := Option.bind_eq_some_iff.mp h
      obtain rfl := Prelude.nothing_eq_some h
      rfl
  | fontFace | startingStyle | viewTransition =>
      obtain rfl := Prelude.nothing_eq_some h
      rfl
  | _ =>
      obtain ⟨_, -, rfl⟩ := Option.map_eq_some_iff.mp h
      rfl

theorem Statement.read_eq_ok :
    st.read c ns = .ok head ↔
      st.classify c = .ok head.kind ∧ c.allows head.kind = true ∧
        RuleHead.ofPrelude? head.kind st c ns = some head := by
  unfold Statement.read
  cases hk : st.classify c with
  | error e => simp
  | ok k =>
      simp only
      constructor
      · intro h
        split at h
        · next ha =>
            cases hp : RuleHead.ofPrelude? k st c ns with
            | none =>
                rw [hp] at h
                cases h
            | some head' =>
                rw [hp] at h
                cases h
                obtain rfl := RuleHead.kind_of_ofPrelude? hp
                exact ⟨rfl, ha, hp⟩
        · cases h
      · rintro ⟨hhead, ha, hp⟩
        cases hhead
        rw [if_pos ha, hp]

/-- A statement takes its place at the top level if it is read there, as an import only where imports
are admitted, and does not come too late. -/
theorem Statement.readTop?_eq_some {imports : Bool} {zone z : Zone} :
    st.readTop? imports zone ns = some (head, z) ↔
      st.read .stylesheet ns = .ok head ∧ ¬ (head.kind = .importRule ∧ imports = false) ∧
        zone.advance head.kind = some z := by
  unfold Statement.readTop?
  cases st.read .stylesheet ns with
  | error e => simp
  | ok head' =>
      by_cases hi : head'.kind = .importRule ∧ imports = false
      · have hb : (decide (head'.kind = .importRule) && !imports) = true := by simpa using hi
        simp only [if_pos hb]
        refine iff_of_false (fun h => by cases h) ?_
        rintro ⟨hhead, hn, -⟩
        cases hhead
        exact hn hi
      · have hb : ¬ (decide (head'.kind = .importRule) && !imports) = true := by simpa using hi
        simp only [if_neg hb, Option.map_eq_some_iff, Prod.mk.injEq]
        constructor
        · rintro ⟨z', hz, rfl, rfl⟩
          exact ⟨rfl, hi, hz⟩
        · rintro ⟨hhead, -, hz⟩
          cases hhead
          exact ⟨z, hz, rfl, rfl⟩

/-! ## Kinds without a block -/

/-- The kind of an at-rule that has a block. -/
def AtRule.Shape.blockKind? : AtRule.Shape → Option RuleKind
  | .block k => some k
  | .statement _ => none
  | .either k _ => some k

/-- What the table says of an at-rule with a block is no kind of the prologue. -/
theorem AtRule.table_blocks :
    ∀ e ∈ AtRule.table, e.2.blockKind?.all (!Sheet.isPrologue ·) = true := by
  decide

theorem AtRule.isPrologue_of_kindOf {name : String} (h : AtRule.kindOf name true = .ok k) :
    Sheet.isPrologue k = false := by
  unfold AtRule.kindOf at h
  split at h
  · cases h
  split at h
  · cases h
    rfl
  · cases hl : AtRule.table.lookup name with
    | none =>
        rw [hl] at h
        cases h
    | some shape =>
        rw [hl] at h
        obtain ⟨l₁, l₂, hl, -⟩ := List.lookup_eq_some_iff.mp hl
        have ht := AtRule.table_blocks (name, shape) (hl ▸ List.mem_append_right _ List.mem_cons_self)
        cases shape with
        | block k' =>
            cases h
            simpa [Shape.blockKind?] using ht
        | statement k' => cases h
        | either k' _ =>
            cases h
            simpa [Shape.blockKind?] using ht

/-- A rule of the prologue is read from a statement without a block. -/
theorem Statement.block_of_classify (h : st.classify c = .ok k) (hk : Sheet.isPrologue k = true) :
    st.block = none := by
  unfold Statement.classify at h
  cases hn : st.name with
  | none =>
      rw [hn] at h
      cases c <;> simp only [RuleContext.qualifiedKind?] at h <;> cases h <;> cases hk
  | some n =>
      rw [hn] at h
      cases hb : st.block with
      | none => rfl
      | some vs =>
          simp only [hb, Option.isSome_some] at h
          rw [AtRule.isPrologue_of_kindOf h] at hk
          cases hk

end StyleTree
