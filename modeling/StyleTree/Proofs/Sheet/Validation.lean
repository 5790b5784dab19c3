/-
# `Proofs.Sheet.Validation` — only what is valid is stored

Declarations come into a block by many ways: with the text of a rule, by
the scope that wraps them, under a grouping rule that keeps them, with a
rule that is inserted, and by a setter.  Each goes through `validate?` with
the context of the block, so a block holds what the grammar gave for some
values (`IsTaken`), besides being regular.

A grammar is any function.  It need not take its own answers, so nothing
can be said of the values that were written; they exist.
-/
import StyleTree.Proofs.Sheet.Contexts
import StyleTree.Proofs.Sheet.Declarations

namespace StyleTree

namespace DeclarationBlock

variable {g : ValueGrammar} {b : DeclarationBlock}

/-- The grammar gave each text of the block for some values of its name. -/
def IsTaken (g : ValueGrammar) (b : DeclarationBlock) : Prop :=
  ∀ e ∈ b.entries, ∃ vs, g e.1 b.context vs = some e.2.text

theorem invariant_isTaken : Invariant IsTaken where
  empty _ _ := List.forall_mem_nil _
  insert := by
    intro g b name vs important e hb he f hf
    rcases SortedMap.mem_insert hf with rfl | hf
    · have hcanonical : canonicalName e.1 = e.1 := ValueGrammar.canonicalName_of_validate? he
      refine ⟨vs, ?_⟩
      rw [hcanonical]
      exact (ValueGrammar.validate?_eq_some.mp he).2.2.2.2
    · exact hb f hf
  erase _ hb e he := hb e (List.mem_filter.mp he).1

/-- No two declarations of a regular block have one canonical name. -/
theorem IsRegular.nodup (h : b.IsRegular) : (b.entries.map fun e => canonicalName e.1).Nodup := by
  have hnames : b.entries.map (fun e => canonicalName e.1) = b.entries.map (·.1) :=
    List.map_congr_left h.canonical
  rw [hnames, List.Nodup, List.pairwise_map]
  refine h.sorted.imp fun {e f} hlt heq => ?_
  rw [heq, b.context.orders_precedes.irrefl] at hlt
  cases hlt

end DeclarationBlock

/-- A known name is one of the table, or a custom property where such may stand. -/
theorem ValueGrammar.known_or_custom {c : DeclarationContext} {name : String} (h : knows c name = true) :
    Table.isRecognized c name = true ∨ isCustomProperty name = true ∧ c.admitsCustomProperties = true := by
  unfold knows at h
  split at h
  · next hcustom => exact Or.inr ⟨hcustom, h⟩
  · exact Or.inl h

theorem DeclarationContext.ofKind?_of_isGroup {k : RuleKind} (h : k.isGroup = true) : ofKind? k = some .style := by
  cases k <;> first | rfl | cases h

/-- The declarations of a rule are of the context of its kind. -/
theorem Sheet.InContext.ofKind?_eq {s : Sheet} (h : s.InContext) {id : RuleId} {r : Rule} {b : DeclarationBlock}
    (hr : s.rule? id = some r) (hb : r.declarations = some b) :
    DeclarationContext.ofKind? r.kind = some b.context := by
  cases hk : r.kind.hasDeclarations with
  | true =>
      obtain ⟨b', hb', hcontext⟩ := h.declares id r hr hk
      obtain rfl : b = b' := Option.some.inj (hb.symm.trans hb')
      exact hcontext
  | false =>
      obtain ⟨-, hgroup, -, hcontext⟩ := h.keeps id r b hr hk hb
      rw [hcontext, DeclarationContext.ofKind?_of_isGroup hgroup]

namespace SharedSheet

/-- Whatever was done to a sheet, and whatever its grammar: each block has the context of its rule, and each
declaration in it a canonical name that is known there, importance only where that is admitted, and a text
which the grammar gave; they stand in canonical order, each name once. -/
theorem stored_declarations_are_valid {σ : SharedSheet} (h : σ.Reachable) {id : RuleId} {r : Rule}
    {b : DeclarationBlock} (hr : σ.sheet.rule? id = some r) (hb : r.declarations = some b) :
    DeclarationContext.ofKind? r.kind = some b.context ∧
      (∀ e ∈ b.entries,
        canonicalName e.1 = e.1 ∧
        (Table.isRecognized b.context e.1 = true ∨
          isCustomProperty e.1 = true ∧ b.context.admitsCustomProperties = true) ∧
        (e.2.important = true → b.context.admitsImportance = true) ∧
        ∃ vs, σ.sheet.settings.options.grammar e.1 b.context vs = some e.2.text) ∧
      SortedMap.Sorted b.context.precedes b.entries ∧
      (b.entries.map fun e => canonicalName e.1).Nodup := by
  obtain ⟨ts, hs, hfit⟩ := Sheet.invariant_fits.of_reachable h
  have hregular := Rule.ruleInvariant_isRegular.of_reachable h hr b hb
  have htaken := DeclarationBlock.invariant_isTaken.ruleInvariant.of_reachable h hr b hb
  refine ⟨(hs.inContext hfit).ofKind?_eq hr hb, fun e he => ?_, hregular.sorted, hregular.nodup⟩
  exact ⟨hregular.canonical e he, ValueGrammar.known_or_custom (hregular.known e he), hregular.important e he,
    htaken e he⟩

/-- A grammar that does not take what it gave. -/
theorem stored_declarations_are_valid_capitals :
    let σ := (ofSheet (Sheet.read { HostSettings.scripted with options := ⟨.capitals, false⟩ }
      "a{COLOR:red!important}")).step (.edit (.setProperty ⟨1, 1⟩ "--X" "y" false))
    ∃ r b, σ.sheet.rule? ⟨1, 1⟩ = some r ∧ r.declarations = some b ∧
      b.entries = [("color", ⟨"RED", true⟩), ("--X", ⟨"Y", false⟩)] ∧
      (∀ e ∈ b.entries, ∃ vs, σ.sheet.settings.options.grammar e.1 b.context vs = some e.2.text) ∧
      (b.entries.map fun e => canonicalName e.1).Nodup := by
  intro σ
  have hσ : σ.Reachable := ⟨_, [.edit (.setProperty ⟨1, 1⟩ "--X" "y" false)], .read _ _, rfl⟩
  have hfacts : (σ.sheet.rule? ⟨1, 1⟩).any (fun r => r.declarations.any fun b =>
      b.entries = [("color", ⟨"RED", true⟩), ("--X", ⟨"Y", false⟩)]) = true := by
    decide +kernel
  obtain ⟨r, hr, hdeclared⟩ := (Option.any_eq_true _ _).mp hfacts
  obtain ⟨b, hb, hentries⟩ := (Option.any_eq_true _ _).mp hdeclared
  obtain ⟨-, hvalid, -, hdistinct⟩ := stored_declarations_are_valid hσ hr hb
  exact ⟨r, b, hr, hb, of_decide_eq_true hentries, fun e he => (hvalid e he).2.2.2, hdistinct⟩

end SharedSheet

end StyleTree
