/-
# `Proofs.Sheet.Margins` — a page sorts its margin boxes

Margin boxes come to a page in two ways, with the text of the page and by
insertion.  However they come, and at whatever index they are inserted, the
children of the page are the stable sort of all of them by the places of
their boxes (`fixed_order`).

A run of events is followed by what it adds to a page (`arrivals`).  An
event adds at most one box, behind those of its place
(`Change.boxes`), and that is what sorting does with one more element at
the end (`StableSort.mergeSort_concat`).
-/
import Mathlib.Data.Set.List
import StyleTree.Proofs.Rule.Margins
import StyleTree.Proofs.Sheet.Heads
import StyleTree.Proofs.Sheet.Siblings
import StyleTree.Proofs.Sheet.Splices

namespace StyleTree

open StyleTree.Tree (root idsOf graftAll pruneAll bareAll)
open StableSort (before place)

/-! ## The boxes of a page -/

namespace Arena

variable {a b : Arena Rule} {ts : List (Tree (RuleId × Rule))} {w : Tree (RuleId × Rule)} {p q x : RuleId} {n : Nat}

/-- The children of a page, each with the place of its box. -/
def boxes (a : Arena Rule) (p : RuleId) : List (RuleId × Nat) :=
  (a.children p).map fun x => (x, (a.rank? x).getD 0)

theorem rank?_congr (h : b.value? x = a.value? x) : b.rank? x = a.rank? x := by rw [rank?, h, rank?]

theorem boxes_congr (hp : b.children p = a.children p) (hx : ∀ x ∈ a.children p, b.value? x = a.value? x) :
    b.boxes p = a.boxes p := by
  rw [boxes, boxes, hp]
  exact List.map_congr_left fun x h => by rw [rank?_congr (hx x h)]

theorem mem_boxes_fst {e : RuleId × Nat} (h : e ∈ a.boxes p) : e.1 ∈ a.children p := by
  obtain ⟨x, hx, rfl⟩ := List.mem_map.mp h
  exact hx

/-- The place of a rule among its siblings is that of its box among their boxes. -/
theorem Forest.slot_eq_place (h : Forest a ts) {r : Rule} {k : Nat} (hr : r.head.rank? = some k) (p : RuleId) :
    Draft.slot r (a.childRules p) = place (·.2) k (a.boxes p) := by
  have hkeys : (a.boxes p).map (·.2) = (a.childRules p).map Rule.box := by
    have hvalues := congrArg (List.map fun v : Option Rule => (v.bind (·.head.rank?)).getD 0) (h.map_value? p)
    rw [List.map_map, List.map_map] at hvalues
    rw [boxes, List.map_map]
    exact hvalues
  have hboxes := StableSort.place_map id (·.2) k (a.boxes p)
  have hrules := StableSort.place_map id Rule.box k (a.childRules p)
  rw [hkeys] at hboxes
  rw [Draft.slot_eq_place hr]
  exact hrules.symm.trans hboxes

section Beside

variable (ha : Forest a ts) (hb : Forest b (w :: ts)) (hp : p ∈ idsOf ts)

include ha hb hp

/-- A tree beside the others changes no page. -/
theorem boxes_planted : b.boxes p = a.boxes p := by
  have hh := hb.holds
  rw [HoldsAll] at hh
  have hsame : ∀ x ∈ idsOf ts, b.get? x = a.get? x := fun x hx => HoldsAll.get?_eq ha.holds hh.2 hx
  refine boxes_congr (by rw [children, hsame p hp, children]) fun x hx => ?_
  rw [value?, hsame x (ha.mem_ids.mp (ha.mem_ids_of_child hx)), value?]

/-- A tree that is put under another rule changes no page. -/
theorem boxes_attach_other (hpq : p ≠ q) (n : Nat) : (b.attach q n w.root).boxes p = a.boxes p := by
  have hpw : p ≠ w.root := fun h => hb.disjoint _ (Tree.root_mem_ids w) (h ▸ hp)
  rw [← boxes_planted ha hb hp]
  refine boxes_congr ?_ fun x _ => value?_attach b q w.root n
  rw [children, get?_attach_other hpq hpw, children]

/-- A page gets one more box. -/
theorem boxes_attach_self (hn : n ≤ (a.boxes p).length) :
    (b.attach p n w.root).boxes p = (a.boxes p).insertIdx n (w.root, w.value.2.box) := by
  have hpw : p ≠ w.root := fun h => hb.disjoint _ (Tree.root_mem_ids w) (h ▸ hp)
  have hrank : (b.rank? w.root).getD 0 = w.value.2.box := by
    have hh := hb.holds
    rw [HoldsAll] at hh
    rw [hh.1.rank?, Rule.box]
  have hchildren : (b.attach p n w.root).children p =
      (b.children p).insertIdx (min n (b.children p).length) w.root := by
    obtain ⟨m, hm⟩ := exists_get? (hb.mem_ids.mpr (by
      rw [Tree.idsOf_cons]
      exact List.mem_append_right w.ids hp))
    rw [children, get?_attach_parent hpw, children, hm]
    rfl
  have hranks : ∀ x, (b.attach p n w.root).rank? x = b.rank? x := fun x => rank?_congr (value?_attach b p w.root n)
  have hplanted := boxes_planted ha hb hp
  rw [← hplanted, boxes, List.length_map] at hn
  rw [← hplanted, boxes, hchildren, Nat.min_eq_left hn, List.map_insertIdx, boxes]
  simp only [hranks, hrank]

end Beside

/-- The boxes of a page in a forest are those of the trees below it. -/
theorem Holds.boxes {e : RuleId × Rule} {us : List (Tree (RuleId × Rule))} {o : Option RuleId}
    (h : Holds a o (.node e us)) : a.boxes e.1 = us.map fun t => (t.root, t.value.2.box) := by
  rw [Arena.boxes, h.children, List.map_map]
  refine List.map_congr_left fun t ht => ?_
  rw [Function.comp_apply, (holdsAll_iff.mp h.below t ht).rank?, Rule.box]

/-- A tree below the root of a tree in a forest is what is read there. -/
theorem Forest.tree?_child {e : RuleId × Rule} {us : List (Tree (RuleId × Rule))} (h : Forest a (.node e us :: ts))
    {t : Tree (RuleId × Rule)} (ht : t ∈ us) : a.tree? t.root = some t := by
  have hh := h.holds
  rw [HoldsAll] at hh
  have hlen : t.ids.length ≤ (Tree.node e us).ids.length := by
    rw [Tree.ids_node, List.length_cons]
    exact Nat.le_succ_of_le (length_ids_le_of_mem ht)
  have hroot : (Tree.node e us).ids.length ≤ (idsOf (.node e us :: ts)).length :=
    length_ids_le_of_mem List.mem_cons_self
  rw [h.perm.length_eq, ← size_eq] at hroot
  exact treeFrom_eq a.size (holdsAll_iff.mp hh.1.below t ht) (Nat.le_trans hlen hroot)

/-- A page that is planted has the margin boxes of its text, sorted by their places. -/
theorem boxes_plant (h : Forest a ts) (o : ReadOptions) (ns : Namespaces) (c : RuleContext)
    (selectors : List PageSelector) (st : Statement) :
    let planted := a.plant (Draft.ofStatement o ns c (.page selectors) st)
    ∃ order : List (RuleId × Nat), planted.1.boxes planted.2 = order.mergeSort (before (·.2)) ∧
      order.map (fun e => (planted.1.tree? e.1).map Tree.bare) = (Draft.margins o ns st).map some := by
  intro planted
  obtain ⟨⟨e, us⟩, hroot, hbare, hf⟩ := forest_plant (Draft.ofStatement o ns c (.page selectors) st) h
  have hchildren : us.map Tree.bare = (Draft.margins o ns st).mergeSort (before fun t => t.value.box) := by
    rw [← Draft.children_ofStatement_page o ns c selectors st, ← hbare, Tree.children_bare, Tree.children,
      Tree.bareAll_eq_map]
  obtain ⟨vs, hvs, hus⟩ := StableSort.exists_unsorted Tree.bare hchildren
  have hh := hf.holds
  rw [HoldsAll] at hh
  refine ⟨vs.map fun t => (t.root, t.value.2.box), ?_, ?_⟩
  · have hkeys : (fun t : Tree (RuleId × Rule) => t.bare.value.box) = fun t => t.value.2.box :=
      funext fun t => by rw [Tree.value_bare]
    rw [← hroot, Tree.root_node, hh.1.boxes, hus, hkeys]
    exact List.map_mergeSort fun _ _ _ _ => rfl
  · rw [List.map_map, ← hvs, List.map_map]
    refine List.map_congr_left fun t ht => ?_
    have hmem : t ∈ us := by
      rw [hus]
      exact List.mem_mergeSort.mpr ht
    rw [Function.comp_apply, hf.tree?_child hmem]
    rfl

/-- Where another rule is cut off, a page keeps its boxes. -/
theorem boxes_pruned (ha : Forest a ts) (hx : x ∈ a.ids) (hb : Forest b (pruneAll x ts)) (hp : p ∈ b.ids)
    (hnot : x ∉ a.children p) : b.boxes p = a.boxes p := by
  have hchildren : b.children p = a.children p := by
    rw [children, get?_pruned ha hx hb hp, children, Option.map_map]
    cases hn : a.get? p with
    | none => rfl
    | some n =>
        rw [children, hn] at hnot
        exact filter_ne_self hnot
  refine boxes_congr hchildren fun y hy => ?_
  rw [← hchildren] at hy
  rw [value?, get?_pruned ha hx hb (hb.mem_ids_of_child hy), Option.map_map, value?]
  rfl

end Arena

/-! ## What an edit does to a page -/

namespace Sheet

variable {s t : Sheet} {ts : List (Tree (RuleId × Rule))} {e : Edit} {p : RuleId} {r : Rule} {st : Statement}
  {head : RuleHead} {text : String} {i j : Nat}

/-- The edit leaves the boxes of a page, or inserts one behind those of its place. -/
def Adds (s : Sheet) (e : Edit) (p : RuleId) (t : Sheet) : Prop :=
  t.arena.boxes p = s.arena.boxes p ∨
    ∃ text i x k, e = .insert (.under p) text i ∧ x ∉ s.arena.ids ∧
      t.arena.boxes p = (s.arena.boxes p).insertIdx (StableSort.place (·.2) k (s.arena.boxes p)) (x, k)

/-- What is planted to be put under a page is a margin box. -/
theorem Grown.margin {w : Tree (RuleId × Rule)} (h : s.Grown .page head st w) : ∃ k, w.value.2.head = .margin k := by
  obtain ⟨k, rfl⟩ := RuleHead.margin_of_read h.read
  rw [Draft.value_of_bare h.bare]
  rcases Draft.head_ofStatement s.settings.options s.namespaces .page (.margin k) st with hhead | ⟨m, m', hhead, -⟩
  · exact ⟨k, hhead⟩
  · cases hhead

theorem Planted.adds_insert (hs : s.Planted ts) (hr : s.rule? p = some r) (hk : r.kind = .page) {l : RuleList}
    {is : List RuleId} {context : RuleContext} (hl : s.list l = .ok (is, context))
    (hread : st.read context s.namespaces = .ok head) (text : String) (i : Nat) :
    s.Adds (.insert l text i) p ((s.plant context head st).2.place l i (s.plant context head st).1).2 := by
  have hp := hs.mem_idsOf hr
  obtain ⟨w, hw, hbare, hf⟩ := hs.plant context head st
  cases l with
  | top => exact Or.inl (Arena.boxes_planted hs.forest hf hp)
  | under q =>
      rw [← hw]
      by_cases hpq : p = q
      · subst hpq
        right
        obtain ⟨r', hr', -, -, rfl⟩ := list_under_eq_ok.mp hl
        obtain rfl : r = r' := Option.some.inj (hr.symm.trans hr')
        have hcontext : r.blockContext = .page := by rw [Rule.blockContext, hk]; rfl
        rw [hcontext] at hread hbare hf hw
        obtain ⟨k, hmargin⟩ := Grown.margin ⟨hread, hbare⟩
        have hrank : w.value.2.head.rank? = some k := by rw [hmargin]; rfl
        have hbox : w.value.2.box = k := by rw [Rule.box, hrank]; rfl
        have hindex := hs.canonicalIndex?_eq hf hp
        rw [hrank, Option.map_some, slot, hs.forest.slot_eq_place hrank] at hindex
        have hboxes := Arena.boxes_attach_self hs.forest hf hp
          (StableSort.place_le_length (·.2) k (s.arena.boxes p))
        rw [hbox] at hboxes
        refine ⟨text, i, w.root, k, rfl, ?_, ?_⟩
        · rw [hs.forest.mem_ids]
          exact hf.disjoint _ (Tree.root_mem_ids w)
        · rw [hcontext, Sheet.place, hindex]
          exact hboxes
      · exact Or.inl (Arena.boxes_attach_other hs.forest hf hp hpq _)

/-- A page that is there before and after an edit keeps its boxes, and gets at most one, behind those of its
place; only a deletion from its list may take one away. -/
theorem Change.boxes (h : Change s e t) (hs : s.Planted ts) (hr : s.rule? p = some r) (hk : r.kind = .page)
    (hp : p ∈ t.arena.ids) (he : ∀ i, e ≠ .delete (.under p) i) : s.Adds e p t := by
  have hps := hs.mem_idsOf hr
  have hother : ∀ {q : RuleId} {r' : Rule}, s.rule? q = some r' → r'.kind ≠ .page → p ≠ q := by
    rintro q r' hr' hk' rfl
    obtain rfl : r = r' := Option.some.inj (hr.symm.trans hr')
    exact hk' hk
  cases h with
  | ignored _ => exact Or.inl rfl
  | @revised _ id r' f hr' hrev =>
      left
      rw [Arena.boxes, Arena.boxes, Arena.children, Arena.get?_modify, Arena.children]
      have hranks : ∀ x, (s.arena.modify id fun n => { n with value := f n.value }).rank? x = s.arena.rank? x := by
        intro x
        rw [Arena.rank?, Arena.value?, Arena.get?_modify, Arena.rank?, Arena.value?]
        split
        · next hx =>
            subst hx
            rw [rule?, Arena.value?] at hr'
            obtain ⟨n, hn, rfl⟩ := Option.map_eq_some_iff.mp hr'
            rw [hn]
            exact congrArg Prod.fst hrev.rankAndKind_eq
        · rfl
      simp only [hranks]
      split
      · next hx => rw [hx, Option.map_map]; rfl
      · rfl
  | inserted hl hi hst hhead hadmits =>
      exact hs.adds_insert hr hk hl (read_of_headOf hhead (admits_eq_ok.mp hadmits).2.1) _ _
  | @appended q text r' st head hr' hk' hst hhead =>
      obtain ⟨w, hw, hbare, hf⟩ := hs.plant .keyframes head st
      rw [← hw]
      exact Or.inl (Arena.boxes_attach_other hs.forest hf hps (hother hr' (by rw [hk']; decide)) _)
  | @founded q f name values r' m hr' hk' hnone hset =>
      have hf := Arena.forest_insert hs.forest ⟨.featureBlock m, none, .fontFeatureValues⟩
      exact Or.inl (Arena.boxes_attach_other hs.forest hf hps (hother hr' (by rw [hk']; decide)) _)
  | @deleted l i is context id r' hl hi hr' hb =>
      left
      obtain ⟨hcut, -⟩ := hs.detach_listed hl hi (mem_ids_of_rule? hr')
      rw [settleNamespaces_arena] at hp ⊢
      refine Arena.boxes_pruned hs.forest (mem_ids_of_rule? hr') hcut.forest hp ?_
      refine hs.not_mem_children (l := l) ?_ ?_
      · rw [list_eq_ok hl]
        exact List.mem_of_getElem? hi
      · rintro rfl
        exact he i rfl
  | @keyframeDeleted q c key hc =>
      left
      obtain ⟨hchild, -⟩ := rule?_of_findKeyframe? hc
      obtain ⟨hcut, -⟩ := hs.detach_child hchild
      refine Arena.boxes_pruned hs.forest (mem_ids_of_findKeyframe? hc).2 hcut.forest hp fun hx => ?_
      -- the keyframe would have two parents
      have hparent := hs.forest.mem_children_iff.mp hx
      rw [hs.forest.mem_children_iff.mp hchild, Option.some.injEq] at hparent
      subst hparent
      unfold findKeyframe? at hc
      split at hc
      · next hkeyframes _ =>
          obtain ⟨hr', hk'⟩ := ruleOfKind_eq_ok.mp hkeyframes
          exact hother hr' (by rw [hk']; decide) rfl
      · cases hc
  | replaced _ _ =>
      exact absurd hp (commit_gone _ ⟨ts, hs⟩ (mem_ids_of_rule? hr))

/-- At whatever index a rule is inserted into a page, the answer and the sheet are the same. -/
theorem Planted.insert_index (hs : s.Planted ts) (hr : s.rule? p = some r) (hk : r.kind = .page) (text : String)
    (hi : i ≤ (s.arena.children p).length) (hj : j ≤ (s.arena.children p).length) :
    s.run (insert (.under p) text i) = s.run (insert (.under p) text j) := by
  have hcontext : r.blockContext = .page := by rw [Rule.blockContext, hk]; rfl
  unfold insert
  refine run_look_congr fun _ _ => ?_
  refine run_look_congr fun _ _ => ?_
  refine run_look_congr fun l hl => ?_
  obtain ⟨is, context⟩ := l
  obtain ⟨r', hr', -, rfl, rfl⟩ := list_under_eq_ok.mp hl
  obtain rfl : r = r' := Option.some.inj (hr.symm.trans hr')
  rw [run_check_bind hi, run_check_bind hj]
  refine run_look_congr fun st _ => ?_
  refine run_look_congr fun head hhead => ?_
  refine run_look_congr (f := (·.admits (.under p) r.blockContext head.kind i)) fun _ hadmits => ?_
  -- only here the index is used, for a rule that has no place in a fixed order
  obtain ⟨w, hw, hbare, hf⟩ := hs.plant r.blockContext head st
  have hread := read_of_headOf hhead (admits_eq_ok.mp hadmits).2.1
  have hindex := hs.canonicalIndex?_eq hf (hs.mem_idsOf hr)
  rw [hcontext] at hread hbare
  obtain ⟨k, hmargin⟩ := Grown.margin ⟨hread, hbare⟩
  have hrank : w.value.2.head.rank? = some k := by rw [hmargin]; rfl
  rw [hrank, Option.map_some, hw] at hindex
  have hplace : ∀ n, (s.plant r.blockContext head st).2.place (.under p) n (s.plant r.blockContext head st).1 =
      (s.plant r.blockContext head st).2.place (.under p) i (s.plant r.blockContext head st).1 := fun n => by
    rw [Sheet.place, hindex, Sheet.place, hindex]
    rfl
  rw [run_write_bind, run_write_bind, run_write, run_write, hplace j]

end Sheet

/-! ## What a run of events does to a page -/

namespace SharedSheet

open Sheet (Adds)

variable {σ : SharedSheet} {p : RuleId} {r : Rule}

/-- The boxes of a page behind an event that were not there before it. -/
def newcomers (σ : SharedSheet) (p : RuleId) (e : Event) : List (RuleId × Nat) :=
  ((σ.step e).sheet.arena.boxes p).filter (· ∉ σ.sheet.arena.boxes p)

/-- The boxes that a run of events adds to a page, in the order in which they come. -/
def arrivals (p : RuleId) : SharedSheet → List Event → List (RuleId × Nat)
  | _, [] => []
  | σ, e :: es => σ.newcomers p e ++ arrivals p (σ.step e) es

/-- The event takes no rule out of the list of a page. -/
def KeepsList (p : RuleId) (e : Event) : Prop := ∀ i, e ≠ .edit (.delete (.under p) i)

theorem adds_step (hf : σ.sheet.IsForest) (hr : σ.sheet.rule? p = some r) (hk : r.kind = .page) {e : Event}
    (he : KeepsList p e) (hp : p ∈ (σ.step e).sheet.arena.ids) :
    (σ.step e).sheet.arena.boxes p = σ.sheet.arena.boxes p ∨
      ∃ text i x k, e = .edit (.insert (.under p) text i) ∧ x ∉ σ.sheet.arena.ids ∧
        (σ.step e).sheet.arena.boxes p =
          (σ.sheet.arena.boxes p).insertIdx (place (·.2) k (σ.sheet.arena.boxes p)) (x, k) := by
  have hturn := turn_step σ e
  generalize σ.step e = τ at hturn hp
  have hgone : ∀ text, p ∉ (σ.sheet.commit text).arena.ids := fun text =>
    Sheet.commit_gone text hf (Sheet.mem_ids_of_rule? hr)
  cases hturn with
  | @edited e =>
      rcases Sheet.perform_cases σ.sheet e with ⟨f, hrun⟩ | ⟨o, t, hrun⟩
      · rw [hrun]
        exact Or.inl rfl
      · rw [hrun] at hp ⊢
        obtain ⟨ts, hts⟩ := hf
        rcases (Sheet.change_of_ok hrun).boxes hts hr hk hp fun i h => he i (congrArg Event.edit h) with
          hsame | ⟨text, i, x, k, rfl, hx, hboxes⟩
        · exact Or.inl hsame
        · exact Or.inr ⟨text, i, x, k, rfl, hx, hboxes⟩
  | commits _ | dropped _ => exact absurd hp (hgone _)
  | _ => exact Or.inl rfl

/-- What is new in a list with one more element. -/
theorem filter_insertIdx {α : Type} {as : List α} {a : α} {i : Nat} {new : α → Bool} (hi : i ≤ as.length)
    (hnone : ∀ b ∈ as, ¬ new b = true) (ha : new a = true) : (as.insertIdx i a).filter new = [a] := by
  have hperm := (List.perm_insertIdx a as hi).filter new
  rw [List.filter_cons_of_pos ha, List.filter_eq_nil_iff.mpr hnone] at hperm
  exact List.perm_singleton.mp hperm

/-- An event adds no box to a page, or inserts one, which goes behind those of its place. -/
theorem newcomers_cases (hf : σ.sheet.IsForest) (hr : σ.sheet.rule? p = some r) (hk : r.kind = .page) {e : Event}
    (he : KeepsList p e) (hp : p ∈ (σ.step e).sheet.arena.ids) :
    (σ.newcomers p e = [] ∧ (σ.step e).sheet.arena.boxes p = σ.sheet.arena.boxes p) ∨
      ∃ text i b, e = .edit (.insert (.under p) text i) ∧ σ.newcomers p e = [b] ∧
        (σ.step e).sheet.arena.boxes p =
          (σ.sheet.arena.boxes p).insertIdx (place (·.2) b.2 (σ.sheet.arena.boxes p)) b := by
  have hold : ∀ b ∈ σ.sheet.arena.boxes p, ¬ decide (b ∉ σ.sheet.arena.boxes p) = true := fun b hb => by
    rw [decide_eq_true_eq]
    exact fun h => h hb
  rw [newcomers]
  rcases adds_step hf hr hk he hp with hsame | ⟨text, i, x, k, he, hx, hboxes⟩
  · rw [hsame]
    exact Or.inl ⟨List.filter_eq_nil_iff.mpr hold, rfl⟩
  · have hnew : (x, k) ∉ σ.sheet.arena.boxes p := by
      intro hmem
      obtain ⟨ts, hts⟩ := hf
      exact hx (hts.forest.mem_ids_of_child (Arena.mem_boxes_fst hmem))
    have hle := StableSort.place_le_length (·.2) k (σ.sheet.arena.boxes p)
    rw [hboxes]
    exact Or.inr ⟨text, i, (x, k), he, filter_insertIdx hle hold (decide_eq_true hnew), rfl⟩

/-- One event adds its newcomer to the sorted boxes. -/
theorem boxes_step (hf : σ.sheet.IsForest) (hr : σ.sheet.rule? p = some r) (hk : r.kind = .page) {e : Event}
    (he : KeepsList p e) (hp : p ∈ (σ.step e).sheet.arena.ids) {order : List (RuleId × Nat)}
    (horder : σ.sheet.arena.boxes p = order.mergeSort (before (·.2))) :
    (σ.step e).sheet.arena.boxes p = (order ++ σ.newcomers p e).mergeSort (before (·.2)) := by
  rcases newcomers_cases hf hr hk he hp with ⟨hnone, hsame⟩ | ⟨text, i, b, -, hone, hboxes⟩
  · rw [hnone, List.append_nil, hsame, horder]
  · rw [hone, StableSort.mergeSort_concat, ← horder, hboxes]

/-- A page that stays has its boxes and those that came, sorted. -/
theorem boxes_steps {es : List Event} : ∀ {σ : SharedSheet} {r : Rule} {order : List (RuleId × Nat)},
    σ.sheet.IsForest → σ.sheet.rule? p = some r → r.kind = .page → (∀ e ∈ es, KeepsList p e) →
      p ∈ (σ.steps es).sheet.arena.ids → σ.sheet.arena.boxes p = order.mergeSort (before (·.2)) →
        (σ.steps es).sheet.arena.boxes p = (order ++ arrivals p σ es).mergeSort (before (·.2)) := by
  induction es with
  | nil =>
      intro σ r order _ _ _ _ _ horder
      rw [arrivals, List.append_nil]
      exact horder
  | cons e es ih =>
      intro σ r order hf hr hk hes hp horder
      obtain ⟨he, hes⟩ := List.forall_mem_cons.mp hes
      have hkeep := keeps_step σ e
      have hf' := hkeep.isForest hf
      have hmid : p ∈ (σ.step e).sheet.arena.ids := by
        by_contra hgone
        have hused : (σ.step e).sheet.arena.Used p := by
          obtain ⟨ts, hts⟩ := hf
          exact ((hkeep.evolves hts.forest.versioned).2 p (Arena.used_of_mem (Sheet.mem_ids_of_rule? hr))).1
        have hnever := gone_stays_gone hf' hused hgone es
        exact Bool.false_ne_true (hnever.symm.trans (Arena.contains_iff.mpr hp))
      obtain ⟨n, hn⟩ := Arena.exists_get? hmid
      have hr' : (σ.step e).sheet.rule? p = some n.value := by rw [Sheet.rule?, Arena.value?, hn, Option.map_some]
      have hstep := boxes_step hf hr hk he hmid horder
      rw [arrivals, ← List.append_assoc]
      exact ih hf' hr' ((kind_step hf hr e hr').trans hk) hes hp hstep

/-! ## Every sheet -/

/-! ## Every sheet -/

/-- What is in order is so by what the heads say. -/
theorem pairwise_of_inOrder {β : Type} {f : β → RuleHead} {rs : List Rule} {bs : List β} (h : Rule.InOrder rs)
    (hbs : rs.map Rule.head = bs.map f) :
    bs.Pairwise fun b b' => ∀ n n', (f b).rank? = some n → (f b').rank? = some n' →
      n ≤ n' ∧ (n = n' → (f b).kind ≠ .featureBlock ∨ (f b').kind ≠ .featureBlock) := by
  rw [← List.pairwise_map (R := fun h h' : RuleHead => ∀ n n', h.rank? = some n → h'.rank? = some n' →
    n ≤ n' ∧ (n = n' → h.kind ≠ .featureBlock ∨ h'.kind ≠ .featureBlock)), ← hbs, List.pairwise_map]
  exact h

/-- The heads of the children of a rule, if the block of that rule admits only heads of one form. -/
theorem heads_of_children (h : σ.Reachable) (hr : σ.sheet.rule? p = some r) {β : Type} {f : β → RuleHead}
    (hf : ∀ head : RuleHead, r.blockContext.allows head.kind = true → ∃ b, head = f b) :
    ∃ bs : List β, (σ.sheet.arena.childRules p).map Rule.head = bs.map f ∧
      (σ.sheet.arena.children p).map (fun x => (σ.sheet.rule? x).map Rule.head) = bs.map fun b => some (f b) := by
  obtain ⟨ts, hs, hfit⟩ := Sheet.invariant_fits.of_reachable h
  have hcontext := hs.inContext hfit
  have hheads : ∀ head ∈ (σ.sheet.arena.childRules p).map Rule.head, head ∈ Set.range f := by
    intro head hhead
    obtain ⟨r', hr', rfl⟩ := List.mem_map.mp hhead
    obtain ⟨x, hx, hx'⟩ := List.mem_filterMap.mp hr'
    obtain ⟨b, hb⟩ := hf r'.head (hcontext.allows_child hx hr hx')
    exact ⟨b, hb.symm⟩
  have hrange : (σ.sheet.arena.childRules p).map Rule.head ∈ Set.range (List.map f) := by
    rw [Set.range_list_map]
    exact hheads
  obtain ⟨bs, hbs⟩ := hrange
  refine ⟨bs, hbs.symm, ?_⟩
  have hvalues := congrArg (List.map (Option.map Rule.head)) (hs.forest.map_value? p)
  have hsome := congrArg (List.map some) hbs
  rw [List.map_map, List.map_map] at hvalues
  rw [List.map_map, List.map_map] at hsome
  exact hvalues.trans hsome.symm

/-- Whatever was done to a sheet, the margin boxes of a page are sorted by their places and the blocks under a
rule for feature values strictly by their kinds.  A page that is read has the boxes of its text, sorted stably.
A page from whose list nothing is deleted gets at most one box with each event, by an insertion, whose index
does not matter; and its boxes stay the stable sort of all that were there and have come, in that order. -/
theorem fixed_order (h : σ.Reachable) :
    (∀ p r, σ.sheet.rule? p = some r → r.kind = .page → ∃ is : List Nat,
      (σ.sheet.arena.children p).map (fun x => (σ.sheet.rule? x).map Rule.head) =
        is.map (fun i => some (.margin i)) ∧ is.Pairwise (· ≤ ·)) ∧
      (∀ p r, σ.sheet.rule? p = some r → r.kind = .fontFeatureValues → ∃ ms : List FeatureValues,
        (σ.sheet.arena.children p).map (fun x => (σ.sheet.rule? x).map Rule.head) =
          ms.map (fun m => some (.featureBlock m)) ∧ ms.Pairwise fun m m' => m.feature.rank < m'.feature.rank) ∧
      (∀ (a : Arena Rule) ts, a.Forest ts → ∀ o ns c selectors st,
        let planted := a.plant (Draft.ofStatement o ns c (.page selectors) st)
        ∃ order : List (RuleId × Nat), planted.1.boxes planted.2 = order.mergeSort (before (·.2)) ∧
          order.map (fun e => (planted.1.tree? e.1).map Tree.bare) = (Draft.margins o ns st).map some) ∧
      ∀ p r, σ.sheet.rule? p = some r → r.kind = .page →
        (∀ text i j, i ≤ (σ.sheet.arena.children p).length → j ≤ (σ.sheet.arena.children p).length →
          σ.sheet.run (Sheet.insert (.under p) text i) = σ.sheet.run (Sheet.insert (.under p) text j)) ∧
        (∀ e, KeepsList p e → (σ.step e).sheet.arena.contains p = true →
          σ.newcomers p e = [] ∨ ∃ text i b, e = .edit (.insert (.under p) text i) ∧ σ.newcomers p e = [b]) ∧
        ∀ order es, σ.sheet.arena.boxes p = order.mergeSort (before (·.2)) → (∀ e ∈ es, KeepsList p e) →
          (σ.steps es).sheet.arena.contains p = true →
            (σ.steps es).sheet.arena.boxes p = (order ++ arrivals p σ es).mergeSort (before (·.2)) := by
  have hf := isForest_of_reachable h
  obtain ⟨ts, hs, hts⟩ := Sheet.invariant_inOrder.of_reachable h
  refine ⟨fun p r hr hk => ?_, fun p r hr hk => ?_, fun a us ha o ns c selectors st =>
    Arena.boxes_plant ha o ns c selectors st, fun p r hr hk => ⟨fun text i j => hs.insert_index hr hk text,
      fun e he hp => ?_, fun order es horder hes hp => ?_⟩⟩
  · have hblock : r.blockContext = .page := by rw [Rule.blockContext, hk]; rfl
    obtain ⟨is, his, hheads⟩ := heads_of_children h hr (f := .margin) fun head hhead => by
      rw [hblock] at hhead
      cases head with
      | margin i => exact ⟨i, rfl⟩
      | _ => cases hhead
    refine ⟨is, hheads, (pairwise_of_inOrder (hs.childRules_inOrder hts hr) his).imp fun {i j} hij => ?_⟩
    exact (hij i j rfl rfl).1
  · have hblock : r.blockContext = .fontFeatureValues := by rw [Rule.blockContext, hk]; rfl
    obtain ⟨ms, hms, hheads⟩ := heads_of_children h hr (f := .featureBlock) fun head hhead => by
      rw [hblock] at hhead
      cases head with
      | featureBlock m => exact ⟨m, rfl⟩
      | _ => cases hhead
    refine ⟨ms, hheads, (pairwise_of_inOrder (hs.childRules_inOrder hts hr) hms).imp fun {m m'} hmm' => ?_⟩
    obtain ⟨hle, hne⟩ := hmm' _ _ rfl rfl
    refine Nat.lt_of_le_of_ne hle fun heq => ?_
    exact (hne heq).elim (fun h => h rfl) fun h => h rfl
  · refine (newcomers_cases hf hr hk he (Arena.contains_iff.mp hp)).imp (·.1) ?_
    rintro ⟨text, i, b, he, hb, -⟩
    exact ⟨text, i, b, he, hb⟩
  · exact boxes_steps hf hr hk hes (Arena.contains_iff.mp hp) horder

/-- Three boxes are inserted into a page that was read with two, at indices that are not their places; a
block of feature values is made in front of the one that was read. -/
theorem fixed_order_inserted :
    let σ := (ofSheet (Sheet.read .scripted
      "@page{@bottom-left{}@top-right{}} @font-feature-values f{@swash{a:1}}")).step
        (.edit (.setFeature ⟨4, 1⟩ .annotate "b" [1]))
    let es : List Event := [.edit (.insert (.under ⟨1, 1⟩) "@top-right{color:red}" 0), .setDisabled true,
      .edit (.insert (.under ⟨1, 1⟩) "@top-left{}" 2), .edit (.insert (.under ⟨1, 1⟩) "@top-right{}" 0)]
    arrivals ⟨1, 1⟩ σ es = [(⟨7, 1⟩, 3), (⟨8, 1⟩, 1), (⟨9, 1⟩, 3)] ∧
      (σ.steps es).sheet.arena.boxes ⟨1, 1⟩ =
        (([(⟨2, 1⟩, 6), (⟨3, 1⟩, 3)] : List (RuleId × Nat)) ++ arrivals ⟨1, 1⟩ σ es).mergeSort (before (·.2)) ∧
      ∃ ms : List FeatureValues, (σ.sheet.arena.children ⟨4, 1⟩).map (fun x => (σ.sheet.rule? x).map Rule.head) =
        ms.map (fun m => some (.featureBlock m)) ∧ ms.Pairwise fun m m' => m.feature.rank < m'.feature.rank := by
  intro σ es
  have hσ : σ.Reachable := ⟨_, [.edit (.setFeature ⟨4, 1⟩ .annotate "b" [1])], .read _ _, rfl⟩
  have hpage : (σ.sheet.rule? ⟨1, 1⟩).any (·.kind = .page) = true := by decide +kernel
  have hfeatures : (σ.sheet.rule? ⟨4, 1⟩).any (·.kind = .fontFeatureValues) = true := by decide +kernel
  obtain ⟨r, hr, hk⟩ := (Option.any_eq_true _ _).mp hpage
  obtain ⟨r', hr', hk'⟩ := (Option.any_eq_true _ _).mp hfeatures
  obtain ⟨-, hblocks, -, hrun⟩ := fixed_order hσ
  obtain ⟨-, -, hboxes⟩ := hrun ⟨1, 1⟩ r hr (of_decide_eq_true hk)
  have hkeeps : ∀ e ∈ es, KeepsList ⟨1, 1⟩ e := by
    rintro e he i rfl
    simp [es] at he
  have hread : σ.sheet.arena.boxes ⟨1, 1⟩ = [(⟨3, 1⟩, 3), (⟨2, 1⟩, 6)] := by decide +kernel
  have hsorted : ([(⟨2, 1⟩, 6), (⟨3, 1⟩, 3)] : List (RuleId × Nat)).mergeSort (before (·.2)) =
      [(⟨3, 1⟩, 3), (⟨2, 1⟩, 6)] := by
    have hlast := StableSort.mergeSort_concat (α := RuleId × Nat) (·.2) [(⟨2, 1⟩, 6)] (⟨3, 1⟩, 3)
    refine hlast.trans ?_
    rw [List.mergeSort_singleton]
    decide
  have hcame : arrivals ⟨1, 1⟩ σ es = [(⟨7, 1⟩, 3), (⟨8, 1⟩, 1), (⟨9, 1⟩, 3)] := by decide +kernel
  have hstays : (σ.steps es).sheet.arena.contains ⟨1, 1⟩ = true := by decide +kernel
  exact ⟨hcame, hboxes _ es (hread.trans hsorted.symm) hkeeps hstays, hblocks _ r' hr' (of_decide_eq_true hk')⟩

end SharedSheet

end StyleTree
