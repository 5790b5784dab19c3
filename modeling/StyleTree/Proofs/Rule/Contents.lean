/-
# `Proofs.Rule.Contents` — the block of a rule, written and read

A rule with a block is written as its head and, in braces, its declarations
and its children, with blanks between them (`text_of_block`).  Of the
declarations each is read for itself, if none of them spills over: not into
the next one (`IsSealed`), and not out of the block (`IsContained`).

The rule that takes up what is read has the declarations that the grammar
takes as they stand (`entries_reread`).  It does not matter whether it owns
a set of declarations by its kind or is a group that keeps one.
-/
import StyleTree.Proofs.Declaration.Blocks
import StyleTree.Proofs.Rule.Declarations
import StyleTree.Proofs.Statement.Texts

namespace StyleTree

open ComponentValue Statement

/-! ## One declaration -/

namespace DeclarationBlock

variable {b : DeclarationBlock} {e : String × DeclaredValue}

/-- No declaration of the block spills over, neither into the next one nor out of the block. -/
structure IsContained (b : DeclarationBlock) : Prop where
  within : b.IsSealed
  inside : ∀ e ∈ b.entries, e.2.values.all (!·.closesBlock) = true

instance (b : DeclarationBlock) : Decidable b.IsContained :=
  decidable_of_iff (b.IsSealed ∧ ∀ e ∈ b.entries, e.2.values.all (!·.closesBlock) = true)
    ⟨fun h => ⟨h.1, h.2⟩, fun h => ⟨h.within, h.inside⟩⟩

theorem spellsItem_entryText (hname : isPlainName e.1 = true) (hv : e.2.isSealed = true)
    (hinside : e.2.values.all (!·.closesBlock) = true) :
    SpellsItem .declarations (entryText e) (.declaration (.ofEntry e)) := by
  obtain ⟨hclosed, hsplit⟩ := split_entryText hname hv
  rw [DeclaredValue.isSealed, Bool.and_eq_true] at hv
  obtain ⟨bs, us, -, hvalues, hentry⟩ := ofText_entryText hname hv.1
  have hlast := ofText_of_isClosed hclosed
  rw [isClosed, Bool.and_eq_true, Scan.endsInSemicolon_eq] at hclosed
  refine ⟨ofText (entryText e), fun rest _ => ?_, ?_, ?_, fun ws => ?_⟩
  · rw [Scan.scan_append hclosed.1]
    exact congrArg (· ++ _) (lexemesOf_nest_of_stack (stack_of_concat hlast)).symm
  · rw [hentry]
    exact ⟨_, rfl, by rintro ⟨⟩⟩
  · refine ⟨sealedAll_ofText _, fun hmem => ?_⟩
    rw [hentry] at hmem
    simp only [List.mem_append, List.mem_cons, List.not_mem_nil, or_false, reduceCtorEq, false_or,
      token.injEq] at hmem
    have hclose := List.all_eq_true.mp hinside _ (hvalues ▸ List.mem_append_right bs hmem)
    cases hclose
  · rw [← hsplit, hlast, List.append_assoc, List.singleton_append]
    exact split_append_of_semicolon (by decide) _ ws

theorem IsContained.spells (h : b.IsContained) (hregular : b.IsRegular) :
    List.Forall₂ (SpellsItem .declarations) (b.entries.map entryText)
      (b.entries.map fun e => .declaration (.ofEntry e)) := by
  rw [List.forall₂_map_left_iff, List.forall₂_map_right_iff, List.forall₂_same]
  exact fun e he => spellsItem_entryText (hregular.isPlainName h.within he) (h.within e he).2 (h.inside e he)

end DeclarationBlock

open DeclarationBlock

namespace Rule

variable {o : ReadOptions} {keeps : Bool} {c : RuleContext} {head : RuleHead} {r : Rule} {ts : List (Tree Rule)}
variable {m : FeatureValues}

/-! ## What is written -/

/-- The declarations of the rule; none if it has no set of them. -/
def entries (r : Rule) : List (String × DeclaredValue) := (r.declarations.map (·.entries)).getD []

theorem joined_joined (sep : String) {ss : List String} (hne : ss ≠ []) (us : List String) :
    Text.joined sep (Text.joined sep ss :: us) = Text.joined sep (ss ++ us) := by
  have hcons : ∀ (s : String) {ts : List String}, ts ≠ [] →
      Text.joined sep (s :: ts) = s ++ sep ++ Text.joined sep ts := by
    intro s ts hts
    rw [Text.joined]
    exact hts
  induction ss with
  | nil => exact absurd rfl hne
  | cons s ss ih =>
      cases us with
      | nil => rw [List.append_nil, Text.joined]
      | cons u us =>
          cases ss with
          | nil => rfl
          | cons t ss =>
              have hih := ih (List.cons_ne_nil t ss)
              have hmore : t :: ss ++ u :: us ≠ [] := List.cons_ne_nil _ _
              rw [hcons _ (List.cons_ne_nil u us)] at hih ⊢
              rw [hcons s (List.cons_ne_nil t ss), List.cons_append, hcons s hmore, ← hih]
              simp only [String.append_assoc]

theorem declarationText_append (r : Rule) (us : List String) :
    blockText (r.declarationText ++ us) = " \x7b" ++ contentText (r.entries.map entryText ++ us) := by
  have hblock : ∀ parts, blockText parts = " \x7b" ++ contentText parts := by
    intro parts
    unfold blockText contentText
    split
    · rfl
    · rw [← String.append_assoc, ← String.append_assoc]
      rfl
  rw [hblock]
  unfold declarationText entries
  cases r.declarations with
  | none => rfl
  | some b =>
      obtain ⟨d, es⟩ := b
      cases es with
      | nil => rfl
      | cons e es =>
          have hne : (e :: es).map entryText ≠ [] := List.cons_ne_nil _ _
          have hjoined := joined_joined " " hne us
          show _ ++ contentText (Text.joined " " ((e :: es).map entryText) :: us) = _
          unfold contentText
          rw [if_neg (by simp), if_neg (by simp), hjoined]
          rfl

theorem text_of_block (hfeatures : r.head.features? = none) (hstatement : r.head.isStatement = false) :
    text (.node r ts) = r.head.text ++ " \x7b" ++ contentText (r.entries.map entryText ++ texts ts) := by
  rw [text, textWith]
  split
  · next m hm =>
      rw [hm] at hfeatures
      cases hfeatures
  · rw [if_neg (Bool.eq_false_iff.mp hstatement), declarationText_append, String.append_assoc]

theorem text_of_statement (hstatement : r.head.isStatement = true) : text (.node r ts) = r.head.text ++ ";" := by
  rw [text, textWith]
  split
  · next m hm =>
      rw [hm] at hstatement
      cases hstatement
  · rw [if_pos hstatement]

theorem text_of_features (hm : r.head = .featureBlock m) : text (.node r ts) = m.text := by rw [text, textWith, hm]

/-! ## What is read -/

/-- Declarations stand in blocks that may hold them. -/
theorem contentForm_of_declarations (h : r.DeclaresOwn keeps) {b : DeclarationBlock} (hb : r.declarations = some b) :
    r.blockContext.contentForm = .declarations := by
  cases hk : r.kind.hasDeclarations with
  | false =>
      obtain ⟨-, -, hblock, -⟩ := h.kept hk hb
      rw [hblock]
      rfl
  | true =>
      unfold blockContext
      generalize r.kind = k at hk
      cases k <;> first | rfl | cases hk

/-- The declarations of a kind that has them go to the rule itself. -/
theorem blockContext_of_hasDeclarations (hk : r.kind.hasDeclarations = true) :
    r.blockContext ≠ .scope ∧ r.blockContext ≠ .nestedGroup := by
  unfold blockContext
  generalize r.kind = k at hk
  constructor
  · intro hscope
    cases k <;> first | (cases hk; done) | cases hscope
  · intro hgroup
    rw [RuleKind.hasDeclarations_of_isGroup (RuleKind.isGroup_of_blockContext hgroup)] at hk
    cases hk

theorem blockContext_fresh (hkind : head.kind = r.kind) (hcontext : r.context = c) :
    (fresh head c).blockContext = r.blockContext :=
  blockContext_eq hkind hcontext.symm

/-- The declarations of a rule that takes up what another was written as: those that the grammar takes. -/
theorem entries_reread (h : r.Fits o.keepsGroupDeclarations c) (hkind : head.kind = r.kind)
    (hfeatures : ∀ m, head ≠ .featureBlock m) (hregular : ∀ b, r.declarations = some b → b.IsRegular) :
    ((fresh head c).withDeclarations o (r.entries.map .ofEntry)).entries = r.entries ↔
      ∀ b ∈ r.declarations, ∀ e ∈ b.entries, IsReread o.grammar b.context e := by
  have hblock := blockContext_fresh hkind h.context_eq
  have hfresh : (fresh head c).entries = [] := by
    unfold entries fresh declarationsOf
    split
    · cases DeclarationContext.ofKind? head.kind <;> rfl
    · rfl
  cases hb : r.declarations with
  | none =>
      have hempty : r.entries = [] := by rw [entries, hb]; rfl
      rw [hempty, List.map_nil, withDeclarations_nil, hfresh]
      exact iff_of_true rfl (by rintro _ ⟨⟩)
  | some b =>
      have hentries : r.entries = b.entries := by rw [entries, hb]; rfl
      have htaken : ((fresh head c).withDeclarations o (b.entries.map .ofEntry)).entries =
          b.entries.filterMap (DeclarationBlock.reread? o.grammar b.context) := by
        have hall := (hregular b hb).declareAll_ofEntry o.grammar
        cases hk : r.kind.hasDeclarations with
        | true =>
            obtain ⟨b', hb', hcontext⟩ := h.declares.own hk
            obtain rfl : b = b' := Option.some.inj (hb.symm.trans hb')
            obtain ⟨hscope, hgroup⟩ := blockContext_of_hasDeclarations hk
            have hdeclarations : (fresh head c).declarations = some (.empty b.context) := by
              show declarationsOf head.kind = _
              rw [declarationsOf, hkind, if_pos hk, hcontext]
              rfl
            rw [withDeclarations_own o _ hfeatures (hblock ▸ hscope) (hblock ▸ hgroup), entries, hdeclarations]
            exact congrArg DeclarationBlock.entries hall
        | false =>
            obtain ⟨hkeeps, -, hgroup, hstyle⟩ := h.declares.kept hk hb
            rw [withDeclarations_nestedGroup o _ (hblock.trans hgroup), hkeeps, Bool.true_and]
            split
            · have hnone := declarations_of_nestedGroup head c (hblock.trans hgroup)
              rw [entries, hnone, Option.getD_none, ← hstyle]
              exact congrArg DeclarationBlock.entries hall
            · next hempty =>
                rw [Bool.not_eq_true', Bool.not_eq_false, List.isEmpty_iff, List.map_eq_nil_iff] at hempty
                rw [hempty]
                exact hfresh
      have hiff : b.entries.filterMap (DeclarationBlock.reread? o.grammar b.context) = b.entries.map id ↔
          ∀ e ∈ b.entries, IsReread o.grammar b.context e := by
        rw [List.filterMap_eq_map_iff_forall_eq_some]
        exact forall₂_congr fun e he => (hregular b hb).reread?_eq_some he
      rw [List.map_id] at hiff
      rw [hentries, htaken, hiff]
      exact ⟨fun h => by rintro _ ⟨⟩; exact h, fun h => h b rfl⟩

end Rule

end StyleTree
