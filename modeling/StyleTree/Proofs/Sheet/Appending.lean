/-
# `Proofs.Sheet.Appending` — a text is read as if its statements were appended

Reading a text and inserting its statements behind each other check the
same things in different ways.

    reading                             inserting at the end
    the kind, then imports, then the    the kind, then the prelude, then
    place, the context, the prelude     imports, the context, the place
    the place by a zone that is         the place by reading all kinds at
    kept along the way                  the top level from the front
                                        a namespace rule also by looking
                                        for rules of the body

`Growing s ts z` says that the zone `z` is the one behind the rules of the
sheet.  Then both accept the same statements (`offer_eq`): the zone tells
what reading the kinds would, and where it admits a namespace rule there is
no body yet (`Zone.isPrologue_of_behind`).  A statement that is accepted is
read with the same namespaces, becomes the last tree and takes the zone one
step further, so the two agree on all statements of a text.
-/
import StyleTree.Proofs.Sheet.Order
import StyleTree.Proofs.Sheet.Renewal
import Mathlib.Data.List.ReduceOption

namespace StyleTree

open StyleTree.Tree (bareAll)

/-! ## The statements of a text -/

/-- The statement that an item is. -/
def Item.statement? : Item → Option Statement
  | .rule st => some st
  | .declaration _ => none

/-- The statements of the text of a sheet. -/
def Statement.listOfText (text : String) : List Statement :=
  (split .stylesheet (ComponentValue.ofText text)).filterMap Item.statement?

/-- There are no declarations at the top level. -/
theorem Statement.nextItem_stylesheet {v : ComponentValue} {vs : List ComponentValue} {item : Item}
    (h : (nextItem .stylesheet v vs).1 = some item) : ∃ st, item = .rule st := by
  simp only [nextItem] at h
  split at h
  · cases h
  · split at h
    · cases h
      exact ⟨_, rfl⟩
    · obtain ⟨st, -, rfl⟩ := Option.map_eq_some_iff.mp h
      exact ⟨st, rfl⟩

theorem Statement.split_stylesheet (vs : List ComponentValue) :
    split .stylesheet vs = ((split .stylesheet vs).filterMap Item.statement?).map .rule := by
  fun_induction split .stylesheet vs with
  | case1 => rfl
  | case2 v vs r ih =>
      rw [List.filterMap_append, List.map_append, ← ih]
      congr 1
      cases h : r.1 with
      | none => rfl
      | some item =>
          obtain ⟨st, rfl⟩ := nextItem_stylesheet h
          rfl

/-! ## Reading, one statement after the other -/

namespace Draft

/-- What becomes of each statement at the top level when a text is read; none if it is dropped. -/
def readings (o : ReadOptions) (imports : Bool) : Zone → Namespaces → List Statement → List (Option Draft)
  | _, _, [] => []
  | zone, ns, st :: sts =>
    match st.readTop? imports zone ns with
    | none => none :: readings o imports zone ns sts
    | some (head, zone) =>
      some (ofStatement o ns .stylesheet head st) :: readings o imports zone (head.declare ns) sts

/-- The rules of a text are those of the statements that are not dropped. -/
theorem sheet_eq_readings (o : ReadOptions) (imports : Bool) (sts : List Statement) : ∀ zone ns,
    (sheet o imports zone ns (sts.map .rule)).1 = (readings o imports zone ns sts).reduceOption := by
  induction sts with
  | nil =>
      intro zone ns
      rfl
  | cons st sts ih =>
      intro zone ns
      rw [List.map_cons, sheet, readings]
      cases st.readTop? imports zone ns with
      | none => exact ih zone ns
      | some found => exact congrArg _ (ih found.2 (found.1.declare ns))

end Draft

namespace Sheet

open StyleTree.Sheet.Action (check)

variable {s t : Sheet} {ts : List (Tree (RuleId × Rule))} {st : Statement} {head : RuleHead} {z : Zone}

/-! ## Inserting a statement -/

/-- Inserts a rule into a list, as `insert` does with the one statement of a text. -/
def insertStatement (l : RuleList) (st : Statement) (index : Nat) : Action Nat := do
  .look access
  .look unlocked
  let (ids, context) ← .look (·.list l)
  .check (index ≤ ids.length) (.invalidIndex index ids.length)
  let head ← .look (·.headOf st context)
  .look (·.admits l context head.kind index)
  let id ← .write (·.plant context head st)
  .write (·.place l index id)

/-- A text of one statement is inserted as this statement is. -/
theorem run_insert {text : String} (h : Statement.single (ComponentValue.ofText text) = .ok st)
    (s : Sheet) (l : RuleList) (i : Nat) :
    s.run (insert l text i) = s.run (insertStatement l st i) := by
  unfold insert insertStatement check
  simp only [run_look_bind, h]

/-- The sheet with a statement inserted behind its rules; none if it is refused. -/
def offer (s : Sheet) (st : Statement) : Option Sheet :=
  match s.run (insertStatement .top st s.rules.length) with
  | (.ok _, t) => some t
  | (.error _, _) => none

/-- The sheet with all statements inserted behind its rules that are not refused. -/
def offerAll (s : Sheet) (sts : List Statement) : Sheet :=
  sts.foldl (fun s st => (s.offer st).getD s) s

/-- Of each statement, whether it is inserted. -/
def accepted (s : Sheet) : List Statement → List Bool
  | [] => []
  | st :: sts => (s.offer st).isSome :: accepted ((s.offer st).getD s) sts

/-- The sheet with the rule of a statement behind all others. -/
def appendRule (s : Sheet) (head : RuleHead) (st : Statement) : Sheet :=
  ((s.plant .stylesheet head st).2.place .top s.rules.length (s.plant .stylesheet head st).1).2

theorem offer_eq_some :
    s.offer st = some t ↔ s.settings.originClean = true ∧ s.pending = false ∧
      ∃ head, s.headOf st .stylesheet = .ok head ∧
        s.admits .top .stylesheet head.kind s.rules.length = .ok () ∧ s.appendRule head st = t := by
  have hrun : s.offer st = some t ↔
      ∃ n, s.run (insertStatement .top st s.rules.length) = (.ok n, t) := by
    unfold offer
    rcases s.run (insertStatement .top st s.rules.length) with ⟨_ | n, u⟩
    · simp
    · simp
  rw [hrun]
  unfold insertStatement
  constructor
  · rintro ⟨n, h⟩
    obtain ⟨_, hclean, h⟩ := look_eq_ok.mp h
    obtain ⟨_, hfree, h⟩ := look_eq_ok.mp h
    obtain ⟨_, hlist, h⟩ := look_eq_ok.mp h
    cases hlist
    obtain ⟨-, h⟩ := check_eq_ok.mp h
    obtain ⟨head, hhead, h⟩ := look_eq_ok.mp h
    obtain ⟨_, hadmits, h⟩ := look_eq_ok.mp h
    rw [run_write_bind, run_write, Prod.mk.injEq] at h
    exact ⟨access_eq_ok.mp hclean, unlocked_eq_ok.mp hfree, head, hhead, hadmits, h.2⟩
  · rintro ⟨hclean, hfree, head, hhead, hadmits, rfl⟩
    refine ⟨s.rules.length, look_eq_ok.mpr ⟨(), access_eq_ok.mpr hclean, ?_⟩⟩
    refine look_eq_ok.mpr ⟨(), unlocked_eq_ok.mpr hfree, ?_⟩
    refine look_eq_ok.mpr ⟨(s.rules, .stylesheet), rfl, ?_⟩
    refine check_eq_ok.mpr ⟨Nat.le_refl _, ?_⟩
    refine look_eq_ok.mpr ⟨head, hhead, ?_⟩
    refine look_eq_ok.mpr ⟨(), hadmits, ?_⟩
    rw [run_write_bind, run_write]
    rfl

/-! ## The zone behind the rules of a sheet -/

/-- The sheet may be edited, its rules are some trees, and the zone is the one behind them. -/
structure Growing (s : Sheet) (ts : List (Tree (RuleId × Rule))) (z : Zone) : Prop where
  planted : s.Planted ts
  clean : s.settings.originClean = true
  free : s.pending = false
  behind : Zone.behind (some .start) (topKinds ts) = some z

theorem growing_empty {c : HostSettings} (hc : c.originClean = true) : (empty c).Growing [] .start :=
  ⟨⟨Arena.forest_empty, rfl⟩, hc, rfl, rfl⟩

theorem headOf_of_read {c : RuleContext} (h : st.read c s.namespaces = .ok head) :
    s.headOf st c = .ok head := by
  obtain ⟨hclassify, -, hprelude⟩ := Statement.read_eq_ok.mp h
  simp only [headOf, hclassify, hprelude]

theorem Planted.length_eq (h : s.Planted ts) : s.rules.length = ts.length := by
  rw [← h.roots, List.length_map]

/-- At the end of the top level, the zone tells what reading all kinds would. -/
theorem Growing.topLevelAdmits_iff (h : s.Growing ts z) {k : RuleKind} :
    s.topLevelAdmits k s.rules.length = .ok () ↔ ∃ z', z.advance k = some z' := by
  have hlast : s.kinds.insertIdx s.rules.length k = topKinds ts ++ [k] := by
    have hlen : s.rules.length = (topKinds ts).length := by
      rw [h.planted.length_eq, topKinds, List.length_map]
    rw [h.planted.kinds_eq, hlen, List.insertIdx_length_self]
  rw [topLevelAdmits_eq_ok, hlast, Zone.accepts_concat_iff h.behind, and_iff_left_iff_imp]
  rintro ⟨z', hz⟩ rfl
  -- behind a zone that admits a namespace rule there are rules of the prologue only
  have hbefore : z.beforeBody = true := by
    by_contra hb
    rw [Zone.advance, if_neg hb] at hz
    cases hz
  rw [hasBody, h.planted.kinds_eq, List.any_eq_false]
  intro k hk
  simp [Zone.isPrologue_of_behind h.behind hbefore k hk]

/-- A statement is accepted at the end exactly if it is not dropped when it is read there. -/
theorem Growing.accepts_iff (h : s.Growing ts z) :
    s.headOf st .stylesheet = .ok head ∧ s.admits .top .stylesheet head.kind s.rules.length = .ok () ↔
      ∃ z', st.readTop? (!s.settings.constructed) z s.namespaces = some (head, z') := by
  have himport : (!s.settings.constructed) = false ↔ s.settings.constructed = true := by simp
  simp only [Statement.readTop?_eq_some, admits_eq_ok, himport, forall_true_left,
    h.topLevelAdmits_iff]
  constructor
  · rintro ⟨hhead, hi, hallows, z', hz⟩
    exact ⟨z', read_of_headOf hhead hallows, hi, hz⟩
  · rintro ⟨z', hread, hi, hz⟩
    exact ⟨headOf_of_read hread, hi, (Statement.read_eq_ok.mp hread).2.1, z', hz⟩

/-- What happens to a statement that is offered at the end is what happens to it when it is read there. -/
theorem Growing.offer_eq (h : s.Growing ts z) (st : Statement) :
    s.offer st =
      (st.readTop? (!s.settings.constructed) z s.namespaces).map fun p => s.appendRule p.1 st := by
  refine Option.ext fun t => ?_
  rw [Option.map_eq_some_iff, offer_eq_some]
  constructor
  · rintro ⟨-, -, head, hhead, hadmits, rfl⟩
    obtain ⟨z', hz⟩ := h.accepts_iff.mp ⟨hhead, hadmits⟩
    exact ⟨(head, z'), hz, rfl⟩
  · rintro ⟨⟨head, z'⟩, hz, rfl⟩
    obtain ⟨hhead, hadmits⟩ := h.accepts_iff.mpr ⟨z', hz⟩
    exact ⟨h.clean, h.free, head, hhead, hadmits, rfl⟩

/-- The rule of an accepted statement becomes the last tree. -/
theorem Growing.appendRule (h : s.Growing ts z) (st : Statement) {z' : Zone}
    (hz : z.advance head.kind = some z') :
    ∃ w, (s.appendRule head st).Growing (ts ++ [w]) z' ∧
      w.bare = (Draft.ofStatement s.settings.options s.namespaces .stylesheet head st).tree := by
  obtain ⟨w, hw, hbare, hf⟩ := h.planted.plant .stylesheet head st
  have hplanted : (s.appendRule head st).Planted (ts ++ [w]) := by
    have hout := planted_insertIdx hf h.planted.roots (Nat.le_refl ts.length)
    rw [List.insertIdx_length_self, hw, ← h.planted.length_eq] at hout
    exact hout
  refine ⟨w, ⟨hplanted, h.clean, h.free, ?_⟩, hbare⟩
  have hkind : w.value.2.kind = head.kind := (kind_of_bare hbare).trans (Draft.kind_ofStatement ..)
  rw [topKinds, List.map_append, Zone.behind_append, ← topKinds, h.behind]
  show z.advance w.value.2.kind = some z'
  rw [hkind]
  exact hz

/-! ## All statements of a text -/

/-- Statements that are offered one after the other become the rules, and declare the namespaces, that
they do when they are read. -/
theorem Growing.offerAll (sts : List Statement) : ∀ {s : Sheet} {ts : List (Tree (RuleId × Rule))}
    {z : Zone}, s.Growing ts z →
      ∃ us, (s.offerAll sts).Planted (ts ++ us) ∧
        bareAll us =
          (Draft.sheet s.settings.options (!s.settings.constructed) z s.namespaces
            (sts.map .rule)).1.map Draft.tree ∧
        (s.offerAll sts).namespaces =
          (Draft.sheet s.settings.options (!s.settings.constructed) z s.namespaces (sts.map .rule)).2 ∧
        s.accepted sts =
          (Draft.readings s.settings.options (!s.settings.constructed) z s.namespaces sts).map
            Option.isSome := by
  induction sts with
  | nil =>
      intro s ts z h
      exact ⟨[], by rw [List.append_nil]; exact h.planted, rfl, rfl, rfl⟩
  | cons st sts ih =>
      intro s ts z h
      have hoffer := h.offer_eq st
      rw [Sheet.offerAll, List.foldl_cons, ← Sheet.offerAll, Sheet.accepted, List.map_cons, Draft.sheet,
        Draft.readings, hoffer]
      cases hr : st.readTop? (!s.settings.constructed) z s.namespaces with
      | none =>
          obtain ⟨us, hus, hbare, hns, hacc⟩ := ih h
          exact ⟨us, hus, hbare, hns, congrArg _ hacc⟩
      | some found =>
          obtain ⟨head, z'⟩ := found
          obtain ⟨w, hw, hbare⟩ := h.appendRule st (Statement.readTop?_eq_some.mp hr).2.2
          obtain ⟨us, hus, hrest, hns, hacc⟩ := ih hw
          refine ⟨w :: us, ?_, ?_, hns, congrArg _ hacc⟩
          · rw [List.append_cons]
            exact hus
          · rw [Tree.bareAll_cons, hbare, hrest]
            rfl

/-- Reading a text gives the rules and the namespaces that an empty sheet has when the statements of the
text are inserted behind each other, and drops the statements that are refused then.  A statement is
inserted as a text is that has no other. -/
theorem read_eq_offerAll {c : HostSettings} (hc : c.originClean = true) (text : String) :
    let sts := Statement.listOfText text
    let s := (empty c).offerAll sts
    let readings := Draft.readings c.options (!c.constructed) .start .empty sts
    s.IsForest ∧ bareAll s.forest = bareAll (read c text).forest ∧
      s.namespaces = (read c text).namespaces ∧
      bareAll (read c text).forest = readings.reduceOption.map Draft.tree ∧
      (empty c).accepted sts = readings.map Option.isSome ∧
      ∀ (t : Sheet) l text' i st, Statement.single (ComponentValue.ofText text') = .ok st →
        t.run (insert l text' i) = t.run (insertStatement l st i) := by
  intro sts s readings
  obtain ⟨us, hus, hbare, hnamespaces, hacc⟩ := (growing_empty hc).offerAll sts
  have hsplit : Statement.split .stylesheet (ComponentValue.ofText text) = sts.map .rule :=
    Statement.split_stylesheet _
  have hread : Draft.ofText c.options (!c.constructed) text =
      Draft.sheet c.options (!c.constructed) .start .empty (sts.map .rule) := by
    rw [Draft.ofText, hsplit]
  rw [List.nil_append] at hus
  refine ⟨⟨us, hus⟩, ?_, ?_, ?_, hacc, fun t l text' i st h => run_insert h t l i⟩
  · rw [hus.forest_eq, forest_read, hread]
    exact hbare
  · have hns : (read c text).namespaces = (Draft.ofText c.options (!c.constructed) text).2 := rfl
    rw [hns, hread]
    exact hnamespaces
  · rw [forest_read, hread, Draft.sheet_eq_readings]

/-- An import in a sheet made by a script, a namespace rule behind the body, a selector with the prefix of
that rule, and a layer statement behind the body. -/
theorem read_eq_offerAll_refused :
    let text := "@import url(i);@namespace p url(u);p|a{}@namespace q url(v);q|b{}@layer c;"
    let sts := Statement.listOfText text
    bareAll ((empty .scripted).offerAll sts).forest = bareAll (read .scripted text).forest ∧
      (empty .scripted).accepted sts = [false, true, true, false, false, true] := by
  intro text sts
  refine ⟨(read_eq_offerAll (c := .scripted) rfl text).2.1, ?_⟩
  decide +kernel

end Sheet

end StyleTree
