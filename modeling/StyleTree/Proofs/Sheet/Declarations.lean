/-
# `Proofs.Sheet.Declarations` — blocks read back from their text

The blocks of a sheet's rules are regular, whatever was done to the sheet:
they hold what may be declared in their context, in canonical order.  So
what is read from the text of a block depends on its names and values alone
(`block_reads_back`):

    a name with escapes, a value     may be read as anything
    that is not sealed
    a sealed value                   read as one declaration, which is the
                                     one that was written if the grammar
                                     takes the value as it stands

Declarations that are read from a text end at the first semicolon; a value
that is set is taken as it is, and one with a semicolon in it is read back
as two declarations (`block_not_read_back`).
-/
import StyleTree.Proofs.Declaration.Blocks
import StyleTree.Proofs.Sheet.Links
import StyleTree.Proofs.Sheet.Rules

namespace StyleTree

open DeclarationBlock

/-! ## Regular blocks -/

namespace DeclarationBlock

variable {g : ValueGrammar} {b : DeclarationBlock}

theorem isRegular_empty (c : DeclarationContext) : (empty c).IsRegular where
  sorted := List.Pairwise.nil
  canonical := List.forall_mem_nil _
  known := List.forall_mem_nil _
  important := List.forall_mem_nil _

theorem IsRegular.insert (h : b.IsRegular) {name : String} {vs : List ComponentValue} {important : Bool}
    {e : String × DeclaredValue} (he : g.validate? b.context name vs important = some e) :
    (b.insert e.1 e.2).IsRegular := by
  obtain ⟨-, himportant, hknown, hadmits, -⟩ := ValueGrammar.validate?_eq_some.mp he
  have hcanonical : canonicalName e.1 = e.1 := ValueGrammar.canonicalName_of_validate? he
  have hmem : ∀ f ∈ (b.insert e.1 e.2).entries, f = e ∨ f ∈ b.entries := fun f hf =>
    (SortedMap.mem_insert hf).imp (fun hf => hf.trans (Prod.ext hcanonical rfl)) id
  refine ⟨SortedMap.sorted_insert b.context.orders_precedes h.sorted _ e.2, fun f hf => ?_, fun f hf => ?_,
    fun f hf => ?_⟩
  · rcases hmem f hf with rfl | hf
    · exact hcanonical
    · exact h.canonical f hf
  · rcases hmem f hf with rfl | hf
    · exact hknown
    · exact h.known f hf
  · rcases hmem f hf with rfl | hf
    · exact himportant ▸ hadmits
    · exact h.important f hf

theorem IsRegular.erase (h : b.IsRegular) (name : String) : (b.erase name).IsRegular :=
  have hmem : ∀ e ∈ (b.erase name).entries, e ∈ b.entries := fun _ he => (List.mem_filter.mp he).1
  ⟨SortedMap.sorted_erase h.sorted _, fun e he => h.canonical e (hmem e he), fun e he => h.known e (hmem e he),
    fun e he => h.important e (hmem e he)⟩

theorem invariant_isRegular : Invariant fun _ b => b.IsRegular where
  empty _ c := isRegular_empty c
  insert h he := h.insert he
  erase name h := h.erase name

end DeclarationBlock

/-- The declarations of a rule are regular. -/
def Rule.IsRegular (r : Rule) : Prop := ∀ b, r.declarations = some b → b.IsRegular

theorem Rule.ruleInvariant_isRegular : RuleInvariant fun _ r => r.IsRegular := invariant_isRegular.ruleInvariant

namespace SharedSheet

/-- Whatever was done to a sheet: if the names of a block are plain and its values sealed, then one declaration
is read for each that was written, with its name; and the block is what is read from its text if and only if
the grammar takes each value as it stands. -/
theorem block_reads_back {σ : SharedSheet} (h : σ.Reachable) {id : RuleId} {r : Rule} {b : DeclarationBlock}
    (hr : σ.sheet.rule? id = some r) (hb : r.declarations = some b) (hsealed : b.IsSealed) :
    Statement.split .declarations (ComponentValue.ofText b.text) =
        b.entries.map (fun e => .declaration (.ofEntry e)) ∧
      (b.ReadsBack σ.sheet.settings.options.grammar ↔
        ∀ e ∈ b.entries, IsReread σ.sheet.settings.options.grammar b.context e) :=
  readsBack_iff (Rule.ruleInvariant_isRegular.of_reachable h hr b hb) hsealed

/-- A value with a semicolon in brackets, one in a string, and one that is important. -/
theorem block_reads_back_sealed :
    let σ := (ofSheet (Sheet.read .scripted "a{color:red!important}")).steps
      [.edit (.setProperty ⟨1, 1⟩ "--x" "\x7b;\x7d" false), .edit (.setProperty ⟨1, 1⟩ "--y" "';'" false)]
    ∃ r b, σ.sheet.rule? ⟨1, 1⟩ = some r ∧ r.declarations = some b ∧ b.size = 3 ∧
      b.ReadsBack σ.sheet.settings.options.grammar := by
  intro σ
  have hσ : σ.Reachable := ⟨_, _, .read _ _, rfl⟩
  have hfacts : (σ.sheet.rule? ⟨1, 1⟩).any (fun r => r.declarations.any fun b =>
      b.size = 3 ∧ b.IsSealed ∧ ∀ e ∈ b.entries, IsReread σ.sheet.settings.options.grammar b.context e) =
        true := by
    decide +kernel
  obtain ⟨r, hr, hdeclared⟩ := (Option.any_eq_true _ _).mp hfacts
  obtain ⟨b, hb, hfacts⟩ := (Option.any_eq_true _ _).mp hdeclared
  obtain ⟨hsize, hsealed, hreread⟩ := of_decide_eq_true hfacts
  exact ⟨r, b, hr, hb, hsize, (block_reads_back hσ hr hb hsealed).2.mpr hreread⟩

/-- A value with a semicolon outside of brackets is read back as two declarations. -/
theorem block_not_read_back :
    let σ := (ofSheet (Sheet.read .scripted "a{}")).step (.edit (.setProperty ⟨1, 1⟩ "--x" "y;color:red" false))
    σ.Reachable ∧ ∃ r b, σ.sheet.rule? ⟨1, 1⟩ = some r ∧ r.declarations = some b ∧
      ¬ b.ReadsBack σ.sheet.settings.options.grammar := by
  intro σ
  refine ⟨⟨_, [.edit (.setProperty ⟨1, 1⟩ "--x" "y;color:red" false)], .read _ _, rfl⟩, ?_⟩
  have hfacts : (σ.sheet.rule? ⟨1, 1⟩).any (fun r => r.declarations.any fun b =>
      (empty b.context).declareAll σ.sheet.settings.options.grammar
        ((Statement.split .declarations (ComponentValue.ofText b.text)).filterMap Item.declaration?) ≠ b) =
      true := by
    decide +kernel
  obtain ⟨r, hr, hdeclared⟩ := (Option.any_eq_true _ _).mp hfacts
  obtain ⟨b, hb, hne⟩ := (Option.any_eq_true _ _).mp hdeclared
  exact ⟨r, b, hr, hb, fun h => of_decide_eq_true hne h.2⟩

end SharedSheet

end StyleTree
