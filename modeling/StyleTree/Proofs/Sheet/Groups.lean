/-
# `Proofs.Sheet.Groups` — a text read with and without the declarations of groups

A text may be read in two ways: grouping rules under style rules lose the
declarations in their blocks, or keep them.  The two sheets have the same
namespaces and, without these declarations, the same trees.  In the first
no group has any; in the second the groups are those of the text, one for
one, and each has what was accepted of the declarations directly in its
block (`groups_differ_in_declarations_only`).

The groups of a text (`groupsOfText`) are found without either reading: a
statement counts if it is a rule where it stands, and is looked through
in the contexts and with the namespaces that reading would give it.
-/
import Mathlib.Data.List.Forall2
import StyleTree.Proofs.Rule.Groups
import StyleTree.Proofs.Sheet.Declarations
import StyleTree.Proofs.Sheet.Renewal

namespace StyleTree

open StyleTree.Tree (mapAll bareAll nestedGroups nestedGroups_cons)

variable {o : ReadOptions} {g : ValueGrammar} {w : WrittenGroup}

/-! ## What a group holds -/

namespace WrittenGroup

/-- The declarations of the group that are valid in it, in the order in which they were written. -/
def accepted (g : ValueGrammar) (w : WrittenGroup) : List (String × DeclaredValue) :=
  w.declarations.filterMap fun d => g.validate? .style d.name d.value d.important

/-- The rule is that group, and its set of declarations, a missing one counting as empty, has for each name the
last value that was accepted. -/
structure KeptBy (g : ValueGrammar) (w : WrittenGroup) (r : Rule) : Prop where
  head : r.head = w.head
  context : r.context = w.context
  set : (r.declarations.getD (.empty .style)).context = .style
  sorted : SortedMap.Sorted DeclarationContext.style.precedes (r.declarations.getD (.empty .style)).entries
  last : ∀ name, SortedMap.find? name (r.declarations.getD (.empty .style)).entries =
    SortedMap.find? name (w.accepted g).reverse

/-- What is read where a group was written. -/
theorem rule_eq (o : ReadOptions) (h : (w.rule o).isNestedGroup = true) :
    w.rule o = ⟨w.head, if o.keepsGroupDeclarations && !w.declarations.isEmpty then
      some ((DeclarationBlock.empty .style).declareAll o.grammar w.declarations) else none, w.context⟩ := by
  rw [Rule.isNestedGroup_iff, rule, Rule.blockContext_withDeclarations] at h
  have hnone := Rule.declarations_of_nestedGroup w.head w.context h
  rw [rule, Rule.withDeclarations_nestedGroup _ _ h, hnone]
  split
  · rfl
  · rw [← hnone]
    rfl

theorem keptBy_rule (o : ReadOptions) (h : (w.rule (o.keeping true)).isNestedGroup = true) :
    w.KeptBy o.grammar (w.rule (o.keeping true)) := by
  have hrule := rule_eq (o.keeping true) h
  have hset : (w.rule (o.keeping true)).declarations.getD (.empty .style) =
      (DeclarationBlock.empty .style).declareAll o.grammar w.declarations := by
    rw [hrule]
    cases w.declarations <;> rfl
  have hregular : ((DeclarationBlock.empty .style).declareAll o.grammar w.declarations).IsRegular :=
    DeclarationBlock.invariant_isRegular.declareAll (DeclarationBlock.isRegular_empty .style) w.declarations
  have hall : (DeclarationBlock.empty .style).declareAll o.grammar w.declarations =
      ⟨.style, (w.accepted o.grammar).foldl
        (fun m e => SortedMap.insert DeclarationContext.style.precedes e.1 e.2 m) []⟩ :=
    DeclarationBlock.declareAll_eq o.grammar w.declarations (.empty .style)
  have hsorted := hregular.sorted
  rw [hall] at hset hsorted
  constructor
  · rw [hrule]
  · rw [hrule]
  · rw [hset]
  · rw [hset]
    exact hsorted
  · intro name
    rw [hset]
    exact (SortedMap.find?_foldl_insert _ name (w.accepted o.grammar) []).trans Option.or_none

end WrittenGroup

/-! ## The groups of a text -/

namespace Statement

/-- The groups in the rules at the top level of a sheet. -/
def groupsAtTop (imports : Bool) : Zone → Namespaces → List Item → List WrittenGroup
  | _, _, [] => []
  | zone, ns, .declaration _ :: items => groupsAtTop imports zone ns items
  | zone, ns, .rule st :: items =>
    match st.readTop? imports zone ns with
    | none => groupsAtTop imports zone ns items
    | some (head, z) => st.groups ns .stylesheet head ++ groupsAtTop imports z (head.declare ns) items

/-- The groups of a text, in the order in which they stand there. -/
def groupsOfText (imports : Bool) (text : String) : List WrittenGroup :=
  groupsAtTop imports .start .empty (split .stylesheet (ComponentValue.ofText text))

end Statement

namespace Draft

open StyleTree.Statement (groupsAtTop)

/-- The groups of the trees that are read are those of the text. -/
theorem nestedGroups_sheet (o : ReadOptions) (imports : Bool) : ∀ (items : List Item) (zone : Zone)
    (ns : Namespaces),
    nestedGroups ((sheet o imports zone ns items).1.map tree) =
      (groupsAtTop imports zone ns items).map (WrittenGroup.rule o)
  | [], _, _ => rfl
  | .declaration _ :: items, zone, ns => nestedGroups_sheet o imports items zone ns
  | .rule st :: items, zone, ns => by
      rw [sheet, groupsAtTop]
      cases st.readTop? imports zone ns with
      | none => exact nestedGroups_sheet o imports items zone ns
      | some found =>
          obtain ⟨head, z⟩ := found
          have ih := nestedGroups_sheet o imports items z (head.declare ns)
          rw [List.map_append, ← ih, ← nestedGroups_ofStatement]
          exact nestedGroups_cons _ _

/-- The trees of a text are the same but for the declarations of groups, and so are its namespaces. -/
theorem sheet_keeping (o : ReadOptions) (imports : Bool) : ∀ (items : List Item) (zone : Zone) (ns : Namespaces),
    (sheet o imports zone ns items).2 = (sheet (o.keeping false) imports zone ns items).2 ∧
      mapAll Rule.withoutGroupDeclarations ((sheet o imports zone ns items).1.map tree) =
        (sheet (o.keeping false) imports zone ns items).1.map tree
  | [], _, _ => ⟨rfl, rfl⟩
  | .declaration _ :: items, zone, ns => sheet_keeping o imports items zone ns
  | .rule st :: items, zone, ns => by
      rw [sheet, sheet]
      cases st.readTop? imports zone ns with
      | none => exact sheet_keeping o imports items zone ns
      | some found =>
          obtain ⟨head, z⟩ := found
          obtain ⟨hns, htrees⟩ := sheet_keeping o imports items z (head.declare ns)
          refine ⟨hns, ?_⟩
          simp only [List.map_cons, mapAll, tree_keeping, htrees]

end Draft

/-! ## Two readings of a text -/

/-- The settings with the declarations of groups kept, or not. -/
def HostSettings.keeping (c : HostSettings) (keeps : Bool) : HostSettings :=
  { c with options := c.options.keeping keeps }

namespace Sheet

theorem nestedGroups_read (c : HostSettings) (text : String) :
    nestedGroups (bareAll (read c text).forest) =
      (Statement.groupsOfText (!c.constructed) text).map (WrittenGroup.rule c.options) := by
  rw [forest_read]
  exact Draft.nestedGroups_sheet c.options _ _ _ _

theorem isNestedGroup_of_mem_groupsOfText (c : HostSettings) {text : String}
    (hw : w ∈ Statement.groupsOfText (!c.constructed) text) : (w.rule c.options).isNestedGroup = true := by
  have hmem := List.mem_map_of_mem (f := WrittenGroup.rule c.options) hw
  rw [← nestedGroups_read c text] at hmem
  exact (List.mem_filter.mp hmem).2

/-- Whatever the text and the settings, reading it with the declarations of groups and reading it without them
give the same namespaces, and the same trees once these declarations are erased.  Without them no group has
any; with them the groups are those of the text, in order, and each holds what was accepted of the
declarations directly in it, under each name the last. -/
theorem groups_differ_in_declarations_only (c : HostSettings) (text : String) :
    let discarded := read (c.keeping false) text
    let retained := read (c.keeping true) text
    retained.namespaces = discarded.namespaces ∧
      mapAll Rule.withoutGroupDeclarations (bareAll retained.forest) =
        mapAll Rule.withoutGroupDeclarations (bareAll discarded.forest) ∧
      (∀ r ∈ nestedGroups (bareAll discarded.forest), r.declarations = none) ∧
      List.Forall₂ (fun r w => w.KeptBy c.options.grammar r) (nestedGroups (bareAll retained.forest))
        (Statement.groupsOfText (!c.constructed) text) := by
  intro discarded retained
  have hretained := Draft.sheet_keeping (c.options.keeping true) (!c.constructed)
    (Statement.split .stylesheet (ComponentValue.ofText text)) .start .empty
  have hdiscarded := Draft.sheet_keeping (c.options.keeping false) (!c.constructed)
    (Statement.split .stylesheet (ComponentValue.ofText text)) .start .empty
  refine ⟨hretained.1, ?_, ?_, ?_⟩
  · rw [forest_read, forest_read]
    exact hretained.2.trans hdiscarded.2.symm
  · intro r hr
    rw [nestedGroups_read] at hr
    obtain ⟨w, hw, rfl⟩ := List.mem_map.mp hr
    rw [WrittenGroup.rule_eq _ (isNestedGroup_of_mem_groupsOfText (c.keeping false) hw)]
    rfl
  · rw [nestedGroups_read, List.forall₂_map_left_iff]
    exact List.forall₂_same.mpr fun w hw =>
      WrittenGroup.keptBy_rule c.options (isNestedGroup_of_mem_groupsOfText (c.keeping true) hw)

/-- A group in a group: each has the declarations of its own block. -/
example :
    (nestedGroups (bareAll (read (HostSettings.scripted.keeping true)
      "a{@media print{color:red;@supports (top:0){top:0}color:blue}}").forest)).map
        (fun r => (r.kind, r.declarations.map DeclarationBlock.text)) =
      [(.media, some "color: blue;"), (.supports, some "top: 0;")] := by
  decide +kernel

end Sheet

end StyleTree
