/-
# `Proofs.Rule.Weeding` — what is rejected leaves no trace

Reading drops the statements that are no rules where they stand.  It would
make no difference if they had never been written: not to the rules, nor
to the namespaces, nor to which of the other statements are read.  This is
said in two ways.

A run of items without those that are dropped (`Draft.kept` at the top
level, `Item.isReadIn` in a block) is read as the run with them.

And they can be weeded out of the text beforehand, in the blocks of the
statements that stay as well, however deep (`Statement.weed`,
`Statement.weedTop`).  What is then split and read is all that was read
before (`split_weed`, `sheet_weedTop`), because an item does not look
behind its end.
-/
import StyleTree.Proofs.Rule.Items
import StyleTree.Proofs.Statement.Splitting

namespace StyleTree

open ComponentValue

variable {o : ReadOptions} {imports : Bool} {ns : Namespaces} {c : RuleContext} {zone : Zone}
variable {st st' : Statement} {head : RuleHead} {v : ComponentValue} {us vs : List ComponentValue}

/-! ## Runs of items -/

/-- Whether an item is read in a context; declarations are looked at elsewhere. -/
def Item.isReadIn (ns : Namespaces) (c : RuleContext) : Item → Bool
  | .declaration _ => true
  | .rule st => (st.read c ns).toOption.isSome

namespace Draft

/-- The items at the top level without the statements that are dropped there. -/
def kept (imports : Bool) : Zone → Namespaces → List Item → List Item
  | _, _, [] => []
  | zone, ns, .declaration d :: items => .declaration d :: kept imports zone ns items
  | zone, ns, .rule st :: items =>
    match st.readTop? imports zone ns with
    | none => kept imports zone ns items
    | some (head, zone) => .rule st :: kept imports zone (head.declare ns) items

theorem parts_filter (o : ReadOptions) (ns : Namespaces) (c : RuleContext) (items : List Item) :
    (items.filter (Item.isReadIn ns c)).filterMap (part? o ns c) = items.filterMap (part? o ns c) := by
  rw [List.filterMap_filter]
  refine List.filterMap_congr fun item _ => ?_
  cases item with
  | declaration d => rfl
  | rule st =>
      rw [Item.isReadIn, part?]
      cases st.read c ns <;> rfl

/-- A rule is read as it is when the statements that are no rules are missing in its block. -/
theorem ofItems_filter (o : ReadOptions) (ns : Namespaces) (r : Rule) (items : List Item) :
    ofItems o ns r (items.filter (Item.isReadIn ns r.blockContext)) = ofItems o ns r items := by
  refine ofItems_congr ?_ (parts_filter o ns r.blockContext items)
  rw [List.filterMap_filter]
  refine List.filterMap_congr fun item _ => ?_
  cases item with
  | declaration d => rfl
  | rule st => exact ite_self _

theorem sheet_kept (o : ReadOptions) (imports : Bool) (items : List Item) : ∀ zone ns,
    sheet o imports zone ns (kept imports zone ns items) = sheet o imports zone ns items := by
  induction items with
  | nil =>
      intro zone ns
      rfl
  | cons item items ih =>
      intro zone ns
      cases item with
      | declaration d =>
          rw [kept, sheet, sheet, ih]
      | rule st =>
          rw [kept, sheet]
          cases hr : st.readTop? imports zone ns with
          | none => exact ih zone ns
          | some found =>
              simp only
              rw [sheet, hr]
              simp only
              rw [ih]

end Draft

/-! ## Weeding a text -/

namespace Statement

/-- The values of the item that starts with `v`: all up to those left behind it. -/
def span (mode : ContentForm) (v : ComponentValue) (vs : List ComponentValue) : List ComponentValue :=
  (v :: vs).take ((v :: vs).length - (nextItem mode v vs).2.length)

/-- The values of a statement with other contents in its block, if it has one. -/
def withContents (us : List ComponentValue) : Option (List ComponentValue) → List ComponentValue
  | some contents => us.dropLast ++ [.block (.bracket .curly) contents]
  | none => us

/-- The contents of a block without the statements that are no rules there, and so on in the blocks of
those that are. -/
def weed (ns : Namespaces) (c : RuleContext) : List ComponentValue → List ComponentValue
  | [] => []
  | v :: vs =>
    let us := span c.contentForm v vs
    let rest := weed ns c (nextItem c.contentForm v vs).2
    match _ : (nextItem c.contentForm v vs).1 with
    | some (.rule st) =>
      match st.read c ns with
      | .ok head =>
        match _ : st.block with
        | some b => withContents us (some (weed ns (head.kind.blockContext c) b)) ++ rest
        | none => us ++ rest
      | .error _ => rest
    | _ => us ++ rest
termination_by vs => sizeOf vs
decreasing_by
  · exact sizeOf_nextItem_lt _ _ _
  · exact nextItem_block_lt ‹_› ‹_›

/-- The statement with its block weeded. -/
def weeded (ns : Namespaces) (c : RuleContext) (st : Statement) : Statement :=
  { st with block := st.block.map (weed ns c) }

/-- What becomes of an item when a block is weeded. -/
def weedItem (ns : Namespaces) (c : RuleContext) : Item → Option Item
  | .declaration d => some (.declaration d)
  | .rule st =>
    match st.read c ns with
    | .ok head => some (.rule (st.weeded ns (head.kind.blockContext c)))
    | .error _ => none

/-- The sheet without the statements that are dropped, and the blocks of the others weeded. -/
def weedTop (imports : Bool) (zone : Zone) (ns : Namespaces) : List ComponentValue → List ComponentValue
  | [] => []
  | v :: vs =>
    let us := span .stylesheet v vs
    match (nextItem .stylesheet v vs).1 with
    | some (.rule st) =>
      match st.readTop? imports zone ns with
      | some (head, zone) =>
        withContents us (st.weeded ns (head.kind.blockContext .stylesheet)).block ++
          weedTop imports zone (head.declare ns) (nextItem .stylesheet v vs).2
      | none => weedTop imports zone ns (nextItem .stylesheet v vs).2
    | _ => us ++ weedTop imports zone ns (nextItem .stylesheet v vs).2
termination_by vs => vs.length
decreasing_by all_goals exact Nat.lt_succ_of_le (nextItem_length _ v vs)

/-! ## Splitting what was weeded -/

theorem span_eq {mode : ContentForm} (h : v :: vs = us ++ (nextItem mode v vs).2) :
    span mode v vs = us := by
  have hlen := congrArg List.length h
  rw [List.length_append] at hlen
  rw [span, hlen, Nat.add_sub_cancel, h, List.take_left']
  rfl

/-- The values of an item are that item, whatever follows; but if nothing followed, nothing may. -/
theorem split_span {mode : ContentForm} {ws : List ComponentValue}
    (hws : (nextItem mode v vs).2 = [] → ws = []) :
    split mode (span mode v vs ++ ws) = (nextItem mode v vs).1.toList ++ split mode ws := by
  rcases piece_or_open mode v vs with ⟨us, hus, hp⟩ | ⟨hrest, -⟩
  · rw [span_eq hus]
    exact split_piece hp ws
  · have hspan : span mode v vs = v :: vs := span_eq (by rw [hrest, List.append_nil])
    have hnil : split mode [] = [] := by rw [split]
    rw [hws hrest, hspan, List.append_nil, hnil, split, hrest, hnil]

theorem split_withContents {mode : ContentForm} {ws : List ComponentValue}
    (h : (nextItem mode v vs).1 = some (.rule st)) (f : List ComponentValue → List ComponentValue)
    (hws : (nextItem mode v vs).2 = [] → ws = []) :
    split mode (withContents (span mode v vs) (st.block.map f) ++ ws) =
      .rule { st with block := st.block.map f } :: split mode ws := by
  cases hb : st.block with
  | none =>
      have hst : { st with block := none } = st := by rw [← hb]
      rw [Option.map_none, withContents, split_span hws, h, hst]
      rfl
  | some b =>
      rcases piece_or_open mode v vs with ⟨us, hus, hp⟩ | ⟨-, hopen, -⟩
      · rw [h] at hp
        rw [span_eq hus, Option.map_some, withContents]
        exact split_piece (hp.withBlock hb (f b)) ws
      · cases (hopen st h).symm.trans hb

theorem weed_cons (ns : Namespaces) (c : RuleContext) (v : ComponentValue) (vs : List ComponentValue) :
    weed ns c (v :: vs) =
      (match (nextItem c.contentForm v vs).1 with
        | some (.rule st) =>
          match st.read c ns with
          | .ok head =>
            withContents (span c.contentForm v vs) (st.weeded ns (head.kind.blockContext c)).block
          | .error _ => []
        | _ => span c.contentForm v vs) ++ weed ns c (nextItem c.contentForm v vs).2 := by
  rw [weed]
  split
  · next st hi =>
      rw [hi]
      simp only
      cases st.read c ns with
      | error e => rfl
      | ok head =>
          simp only [weeded]
          split
          · next b hb =>
              rw [hb]
              rfl
          · next hb =>
              rw [hb]
              rfl
  · next hi =>
      split
      · next st hst => exact absurd hst (hi st)
      · rfl

/-- The items of a weeded block are those that were read, each with its own block weeded. -/
theorem split_weed (ns : Namespaces) (c : RuleContext) (vs : List ComponentValue) :
    split c.contentForm (weed ns c vs) = (split c.contentForm vs).filterMap (weedItem ns c) := by
  cases vs with
  | nil =>
      rw [weed, split]
      rfl
  | cons v vs =>
      have ih := split_weed ns c (nextItem c.contentForm v vs).2
      have hws : (nextItem c.contentForm v vs).2 = [] →
          weed ns c (nextItem c.contentForm v vs).2 = [] := by
        intro h
        rw [h, weed]
      rw [weed_cons, split, List.filterMap_append, ← ih]
      cases hi : (nextItem c.contentForm v vs).1 with
      | none =>
          simp only
          rw [split_span hws, hi]
          rfl
      | some item =>
          cases item with
          | declaration d =>
              simp only
              rw [split_span hws, hi]
              rfl
          | rule st =>
              simp only [Option.toList_some, List.filterMap_cons, List.filterMap_nil, weedItem]
              cases st.read c ns with
              | error e => rfl
              | ok head => exact split_withContents hi _ hws
termination_by sizeOf vs
decreasing_by exact sizeOf_nextItem_lt _ _ _

/-! ## Reading what was weeded -/

/-- Whether a statement is a rule does not depend on what its block contains. -/
theorem read_block (b : Option (List ComponentValue)) (hb : b.isSome = st.block.isSome)
    (c : RuleContext) (ns : Namespaces) : { st with block := b }.read c ns = st.read c ns := by
  have hclassify : { st with block := b }.classify c = st.classify c := by
    rw [classify, classify, hb]
  have hof : ∀ k, RuleHead.ofPrelude? k { st with block := b } c ns = RuleHead.ofPrelude? k st c ns :=
    fun _ => rfl
  rw [read, read, hclassify]
  simp only [hof]

theorem read_weeded (c c' : RuleContext) (ns : Namespaces) (st : Statement) :
    (st.weeded ns c').read c ns = st.read c ns :=
  read_block _ Option.isSome_map c ns

theorem readTop?_weeded (c : RuleContext) (imports : Bool) (zone : Zone) (ns : Namespaces) (st : Statement) :
    (st.weeded ns c).readTop? imports zone ns = st.readTop? imports zone ns := by
  rw [readTop?, readTop?, read_weeded]

end Statement

namespace Draft

open Statement (weeded weedItem split_weed read_weeded)

/-- A statement is read as it is with its block weeded. -/
theorem ofStatement_weeded (o : ReadOptions) (ns : Namespaces) (c : RuleContext) (head : RuleHead)
    (st : Statement) :
    ofStatement o ns c head (st.weeded ns (head.kind.blockContext c)) = ofStatement o ns c head st := by
  cases hb : st.block with
  | none =>
      have hst : st.weeded ns (head.kind.blockContext c) = st := by rw [weeded, hb, Option.map_none, ← hb]
      rw [hst]
  | some b =>
      rw [ofStatement_eq hb, ofStatement_eq (congrArg (Option.map _) hb)]
      -- the block of the weeded statement splits into the items of the other, each weeded
      refine (congrArg _ (split_weed ns (Rule.fresh head c).blockContext b)).trans ?_
      refine ofItems_congr ?_ ?_
      · rw [List.filterMap_filterMap]
        refine List.filterMap_congr fun item _ => ?_
        cases item with
        | declaration d => rfl
        | rule t =>
            rw [weedItem]
            cases t.read (Rule.fresh head c).blockContext ns <;> rfl
      · rw [List.filterMap_filterMap]
        refine List.filterMap_congr fun item hitem => ?_
        cases item with
        | declaration d => rfl
        | rule t =>
            have := Statement.sizeOf_block_lt hb hitem
            rw [weedItem, part?]
            cases ht : t.read (Rule.fresh head c).blockContext ns with
            | error e => rfl
            | ok head' =>
                simp only [Option.bind_some, part?, read_weeded, ht]
                rw [ofStatement_weeded o ns (Rule.fresh head c).blockContext head' t]
termination_by sizeOf st.block

open Statement (split nextItem weedTop split_span split_withContents readTop?_weeded)

/-- The text of a sheet is read as it is when it is weeded. -/
theorem sheet_weedTop (o : ReadOptions) (imports : Bool) : ∀ (zone : Zone) (ns : Namespaces)
    (vs : List ComponentValue),
    sheet o imports zone ns (split .stylesheet (weedTop imports zone ns vs)) =
      sheet o imports zone ns (split .stylesheet vs)
  | _, _, [] => by rw [weedTop]
  | zone, ns, v :: vs => by
      have ih := fun zone ns => sheet_weedTop o imports zone ns (nextItem .stylesheet v vs).2
      have hws : ∀ zone ns, (nextItem .stylesheet v vs).2 = [] →
          weedTop imports zone ns (nextItem .stylesheet v vs).2 = [] := by
        intro zone ns h
        rw [h, weedTop]
      rw [weedTop, split]
      cases hi : (nextItem .stylesheet v vs).1 with
      | none =>
          simp only
          rw [split_span (hws zone ns), hi]
          exact ih zone ns
      | some item =>
          cases item with
          | declaration d =>
              simp only
              rw [split_span (hws zone ns), hi]
              simp only [Option.toList_some, List.singleton_append, sheet]
              exact ih zone ns
          | rule st =>
              simp only [Option.toList_some, List.singleton_append]
              rw [sheet]
              cases hr : st.readTop? imports zone ns with
              | none => exact ih zone ns
              | some found =>
                  obtain ⟨head, z⟩ := found
                  simp only
                  have hsplit := split_withContents hi
                    (Statement.weed ns (head.kind.blockContext .stylesheet)) (hws z (head.declare ns))
                  rw [weeded, hsplit, ← weeded, sheet, readTop?_weeded, hr]
                  simp only
                  rw [ofStatement_weeded, ih]
termination_by _ _ vs => vs.length
decreasing_by exact Nat.lt_succ_of_le (Statement.nextItem_length _ v vs)

end Draft

end StyleTree
