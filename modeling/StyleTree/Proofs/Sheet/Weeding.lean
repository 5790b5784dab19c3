/-
# `Proofs.Sheet.Weeding` — a sheet without what it drops

A sheet is loaded from the items of its text, and the statements among them
that are dropped might as well be missing.  The arena, the top level and
the namespaces are the same, ids included, and what remains is read as it
was, whether the statements are missing

    at the top level                    `Draft.kept`
    in the block of one rule            `Item.isReadIn`
    in a text, at every depth           `Statement.weedTop`
    in a statement to be inserted       `Statement.weeded`
-/
import StyleTree.Proofs.Rule.Weeding
import StyleTree.Proofs.Sheet.Appending

namespace StyleTree

/-! ## What remains is read as it was -/

namespace Draft

theorem readings_kept (o : ReadOptions) (imports : Bool) (items : List Item) : ∀ zone ns,
    readings o imports zone ns ((kept imports zone ns items).filterMap Item.statement?) =
      (readings o imports zone ns (items.filterMap Item.statement?)).filter Option.isSome := by
  induction items with
  | nil =>
      intro zone ns
      rfl
  | cons item items ih =>
      intro zone ns
      cases item with
      | declaration d => exact ih zone ns
      | rule st =>
          rw [kept, List.filterMap_cons_some (by rfl : Item.statement? (.rule st) = some st), readings]
          cases hr : st.readTop? imports zone ns with
          | none => exact ih zone ns
          | some found =>
              simp only
              rw [List.filterMap_cons_some (by rfl : Item.statement? (.rule st) = some st), readings, hr]
              exact congrArg _ (ih found.2 (found.1.declare ns))

end Draft

namespace Sheet

variable {s : Sheet}

/-- Whether the text of the sheet may import others. -/
def imports (s : Sheet) : Bool := !s.settings.constructed

/-- The sheet with the rules of some items and the namespaces they declare. -/
def loadItems (s : Sheet) (items : List Item) : Sheet :=
  let (drafts, namespaces) := Draft.sheet s.settings.options s.imports .start .empty items
  let (arena, rules) := s.arena.plantAll drafts
  { s with arena, rules, namespaces }

/-- To load a text is to load the items that it is split into. -/
theorem load_eq (s : Sheet) (text : String) :
    s.load text = s.loadItems (Statement.split .stylesheet (ComponentValue.ofText text)) := rfl

/-- What becomes of the statements among some items; none for those that are dropped. -/
def readings (s : Sheet) (items : List Item) : List (Option Draft) :=
  Draft.readings s.settings.options s.imports .start .empty (items.filterMap Item.statement?)

theorem loadItems_congr {items items' : List Item}
    (h : Draft.sheet s.settings.options s.imports .start .empty items' =
      Draft.sheet s.settings.options s.imports .start .empty items) :
    s.loadItems items' = s.loadItems items := by
  rw [loadItems, loadItems, h]

/-- Statements that are dropped leave no trace, at the top level, in a block, in a whole text and in a
statement by itself; and all others are read as they were. -/
theorem dropped_leave_no_trace (s : Sheet) :
    (∀ items, s.loadItems (Draft.kept s.imports .start .empty items) = s.loadItems items ∧
      s.readings (Draft.kept s.imports .start .empty items) = (s.readings items).filter Option.isSome) ∧
    (∀ ns (r : Rule) items,
      Draft.ofItems s.settings.options ns r (items.filter (Item.isReadIn ns r.blockContext)) =
        Draft.ofItems s.settings.options ns r items ∧
      (items.filter (Item.isReadIn ns r.blockContext)).filterMap
          (Draft.part? s.settings.options ns r.blockContext) =
        items.filterMap (Draft.part? s.settings.options ns r.blockContext)) ∧
    (∀ text, s.loadItems (Statement.split .stylesheet
        (Statement.weedTop s.imports .start .empty (ComponentValue.ofText text))) = s.load text) ∧
    ∀ ns c (head : RuleHead) st,
      Draft.ofStatement s.settings.options ns c head (st.weeded ns (head.kind.blockContext c)) =
        Draft.ofStatement s.settings.options ns c head st := by
  refine ⟨fun items => ⟨?_, ?_⟩, fun ns r items => ⟨?_, ?_⟩, fun text => ?_, fun ns c head st => ?_⟩
  · exact loadItems_congr (Draft.sheet_kept _ _ items .start .empty)
  · exact Draft.readings_kept _ _ items .start .empty
  · exact Draft.ofItems_filter _ ns r items
  · exact Draft.parts_filter _ ns r.blockContext items
  · rw [load_eq]
    exact loadItems_congr (Draft.sheet_weedTop _ _ .start .empty _)
  · exact Draft.ofStatement_weeded _ ns c head st

end Sheet

end StyleTree
