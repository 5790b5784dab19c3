/-
# `Proofs.Sheet.Splices` — inserting and deleting are inverse splices

`Spliced s l i x t` says that `t` is `s` with one more rule `x` at the
place `i` of the list `l`: the rules of `t` beside those of `s` are `x` and
all below it, and those of `s` are in `t` as they were, but for that list.
An insertion makes a splice from the sheet before it, a deletion makes one
from the sheet behind it.

Both are read off one fact.  If the trees of `s` are those of `t` with the
subtree at `x` cut off, then `t` is a splice of `s` (`spliced_of_pruned`):
a node that is in two forests has the same value and the same parent in
both, and loses no child but `x` (`get?_pruned`).
-/
import StyleTree.Proofs.Arena.Moving
import StyleTree.Proofs.Sheet.Namespaces
import StyleTree.Proofs.Sheet.Order
import StyleTree.Proofs.Sheet.Text

namespace StyleTree

open StyleTree.Tree (root idsOf graftAll pruneAll)

/-! ## Cutting off one subtree -/

namespace Arena

variable {α : Type} {a b : Arena α} {ts : List (Tree (RuleId × α))} {x k : RuleId}

/-- A node that is not cut off loses at most one child. -/
theorem get?_pruned (ha : Forest a ts) (hx : x ∈ a.ids) (hb : Forest b (pruneAll x ts))
    (hk : k ∈ b.ids) :
    b.get? k = (a.get? k).map fun n => ⟨n.value, n.parent, n.children.filter (· ≠ x)⟩ := by
  obtain ⟨w, p, rfl, -, hf⟩ := forest_unlink ha hx
  have hk := hb.mem_ids.mp hk
  have hkw : k ≠ w.root := fun e => hf.disjoint _ (Tree.root_mem_ids w) (e ▸ hk)
  have hh := hf.holds
  rw [HoldsAll] at hh
  rw [HoldsAll.get?_eq hh.2 hb.holds hk, get?_unlink ha]
  simp only [if_neg hkw]

/-- What is cut off is the node and all below it. -/
theorem mem_ids_pruned (ha : Forest a ts) (hx : x ∈ a.ids) (hb : Forest b (pruneAll x ts)) :
    k ∈ b.ids ↔ k ∈ a.ids ∧ ¬ a.Under x k := by
  obtain ⟨w, p, rfl, hw, hf⟩ := forest_unlink ha hx
  have hunder : a.Under w.root k ↔ k ∈ w.ids := ⟨mem_ids_of_under ha hw, under_of_mem_ids hw⟩
  have hmem := hf.mem_ids (x := k)
  rw [ids_unlink, Tree.idsOf_cons, List.mem_append] at hmem
  rw [hunder, hmem, hb.mem_ids]
  constructor
  · intro hk
    exact ⟨Or.inr hk, fun hkw => hf.disjoint k hkw hk⟩
  · rintro ⟨hk, hkw⟩
    exact hk.resolve_left hkw

/-- A parent is not below its child. -/
theorem not_under_of_child (ha : Forest a ts) (hc : x ∈ a.children k) : ¬ a.Under x k := by
  intro hu
  obtain ⟨w, p, hroot, hw, hf⟩ := forest_unlink ha (ha.mem_ids_of_child hc)
  have hk : k ∈ w.ids := mem_ids_of_under ha hw (hroot ▸ hu)
  have hn : w.ids.Nodup := by
    have hn := hf.nodup
    rw [Tree.idsOf_cons] at hn
    exact (List.nodup_append'.mp hn).1
  -- The node would be among the nodes below it.
  obtain ⟨e, vs⟩ := w
  obtain rfl : e.1 = x := hroot
  rw [Tree.ids_node] at hk hn
  refine (List.nodup_cons.mp hn).1 ?_
  rcases List.mem_cons.mp hk with rfl | hk
  · rw [children, hw.get?] at hc
    exact Tree.root_mem_idsOf hc
  · exact mem_idsOf_of_child hw.below hk hc

theorem value?_modify (a : Arena α) (i : RuleId) {f : Node α → Node α} (hf : ∀ n, (f n).value = n.value) :
    (a.modify i f).value? k = a.value? k := by
  rw [value?, get?_modify, value?]
  split
  · rw [Option.map_map]
    exact congrArg (Option.map · (a.get? k)) (funext hf)
  · rfl

theorem value?_attach (a : Arena α) (p c : RuleId) (n : Nat) :
    (a.attach p n c).value? k = a.value? k := by
  unfold attach
  rw [value?_modify _ p (by exact fun _ => rfl), value?_modify _ c (by exact fun _ => rfl)]

theorem mem_ids_of_mem_children (h : x ∈ a.children k) : k ∈ a.ids := by
  by_contra hk
  rw [children, get?_eq_none.mpr hk] at h
  exact List.not_mem_nil h

/-- No node has a child twice. -/
theorem Forest.nodup_children (h : Forest a ts) (p : RuleId) : (a.children p).Nodup := by
  by_cases hp : p ∈ a.ids
  · have hn := (h.listed_perm.nodup_iff.mpr h.versioned.nodup_ids)
    exact (List.nodup_flatMap.mp (List.nodup_append'.mp hn).2.1).1 p hp
  · rw [children, get?_eq_none.mpr hp]
    exact List.nodup_nil

theorem root_plant (a : Arena Rule) : ∀ d : Draft, (a.plant d).2 = a.fresh
  | .rule _ _ _ => rfl

end Arena

namespace Sheet

variable {s t u : Sheet} {ts us : List (Tree (RuleId × Rule))} {l : RuleList} {i n : Nat}
  {id : RuleId}

/-- The rules of a list. -/
def ids (s : Sheet) : RuleList → List RuleId
  | .top => s.rules
  | .under p => s.arena.children p

/-- The sheet `t` is `s` with a rule, and all below it, at a place of a list. -/
structure Spliced (s : Sheet) (l : RuleList) (i : Nat) (id : RuleId) (t : Sheet) : Prop where
  index_le : i ≤ (s.ids l).length
  ids_eq : t.ids l = (s.ids l).insertIdx i id
  /-- The rules of `t` that are not in `s` are the new one and those below it. -/
  mem_iff : ∀ x, s.arena.contains x = true ↔ t.arena.contains x = true ∧ ¬ t.arena.Under id x
  /-- The rules of `s` are in `t` as they were. -/
  kept : ∀ x, s.arena.contains x = true → t.arena.value? x = s.arena.value? x ∧
    t.arena.parent? x = s.arena.parent? x ∧ (l ≠ .under x → t.arena.children x = s.arena.children x)
  rules_eq : l ≠ .top → t.rules = s.rules
  /-- Beside the rules at most the namespaces differ. -/
  rest_eq : t = { s with arena := t.arena, rules := t.rules, namespaces := t.namespaces }

theorem list_eq_ok {is : List RuleId} {context : RuleContext} (h : s.list l = .ok (is, context)) :
    s.ids l = is := by
  cases l with
  | top =>
      cases h
      rfl
  | under p =>
      obtain ⟨r, -, -, hc, -⟩ := list_under_eq_ok.mp h
      exact hc

theorem Planted.nodup_list (h : s.Planted ts) : ∀ l : RuleList, (s.ids l).Nodup
  | .top => h.nodup
  | .under p => h.forest.nodup_children p

theorem Planted.mem_ids_of_listed (h : s.Planted ts) {l : RuleList} (hid : id ∈ s.ids l) :
    id ∈ s.arena.ids := by
  cases l with
  | top =>
      rw [ids, ← h.roots] at hid
      exact h.forest.mem_ids.mpr (Tree.root_mem_idsOf hid)
  | under p => exact h.forest.mem_ids_of_child hid

/-- A rule is a child of no other rule than the one in whose list it is. -/
theorem Planted.not_mem_children (h : s.Planted ts) {l : RuleList} (hid : id ∈ s.ids l) {x : RuleId}
    (hl : l ≠ .under x) : id ∉ s.arena.children x := by
  intro hx
  cases l with
  | top => exact h.not_mem_rules_of_child hx hid
  | under p =>
      have hp := h.forest.mem_children_iff.mp hid
      rw [h.forest.mem_children_iff.mp hx, Option.some.injEq] at hp
      exact hl (by rw [hp])

/-- What was cut off a sheet was spliced into what is left. -/
theorem spliced_of_pruned (ht : t.Planted us) (hs : s.Planted (pruneAll id us))
    (hi : (t.ids l)[i]? = some id)
    (hrest : t = { s with arena := t.arena, rules := t.rules, namespaces := t.namespaces }) :
    s.Spliced l i id t := by
  have hlisted : id ∈ t.ids l := List.mem_of_getElem? hi
  have hid := ht.mem_ids_of_listed hlisted
  have hget : ∀ x ∈ s.arena.ids, s.arena.get? x =
      (t.arena.get? x).map fun n => ⟨n.value, n.parent, n.children.filter (· ≠ id)⟩ :=
    fun x hx => Arena.get?_pruned ht.forest hid hs.forest hx
  have hmem : ∀ x, x ∈ s.arena.ids ↔ x ∈ t.arena.ids ∧ ¬ t.arena.Under id x :=
    fun x => Arena.mem_ids_pruned ht.forest hid hs.forest
  have hchildren : ∀ x ∈ s.arena.ids, s.arena.children x = (t.arena.children x).filter (· ≠ id) := by
    intro x hx
    rw [Arena.children, hget x hx, Arena.children, Option.map_map]
    cases t.arena.get? x <;> rfl
  have hrules : s.rules = t.rules.filter (· ≠ id) := by
    rw [← hs.roots, Tree.roots_pruneAll, ht.roots]
  have hfilter : s.ids l = (t.ids l).filter (· ≠ id) := by
    cases l with
    | top => exact hrules
    | under p =>
        exact hchildren p ((hmem p).mpr
          ⟨Arena.mem_ids_of_mem_children hlisted, Arena.not_under_of_child ht.forest hlisted⟩)
  have herase : s.ids l = (t.ids l).eraseIdx i := by
    rw [hfilter, eraseIdx_eq_filter (ht.nodup_list l) hi]
  obtain ⟨hlt, hget'⟩ := List.getElem?_eq_some_iff.mp hi
  constructor
  · rw [herase, List.length_eraseIdx_of_lt hlt]
    omega
  · rw [herase, ← hget', List.insertIdx_eraseIdx_getElem hlt]
  · intro x
    rw [Arena.contains_iff, Arena.contains_iff]
    exact hmem x
  · intro x hx
    rw [Arena.contains_iff] at hx
    have hx' := hget x hx
    refine ⟨?_, ?_, fun hl => ?_⟩
    · rw [Arena.value?, Arena.value?, hx', Option.map_map]
      rfl
    · rw [Arena.parent?, Arena.parent?, hx', Option.bind_map]
      rfl
    · rw [hchildren x hx, Arena.filter_ne_self (ht.not_mem_children hlisted hl)]
  · intro hl
    cases l with
    | top => exact absurd rfl hl
    | under p => rw [hrules, Arena.filter_ne_self (ht.not_mem_rules_of_child hlisted)]
  · exact hrest

/-! ## Deleting -/

/-- The removed rule is the one that was there, with all below it. -/
theorem detach_tree? (hf : Arena.Forest s.arena ts) (hid : id ∈ s.arena.ids) {d : RemovedRule}
    (h : s.detach id = (some d, u)) : ∃ w, s.tree? id = some w ∧ d.tree? = some w := by
  obtain ⟨w, p, w', rfl, hw, hle, hroot, hbare, hr⟩ :=
    Arena.moveSubtree_target hf hid Arena.versioned_empty
  have hf' := hr.forest Arena.forest_empty
  have hd : ⟨(s.arena.moveSubtree w.root .empty).2.target, w'.root⟩ = d := by
    have hfst : (s.arena.moveSubtree w.root .empty).1.map
        (⟨(s.arena.moveSubtree w.root .empty).2.target, ·⟩) = some d := congrArg Prod.fst h
    rw [hroot] at hfst
    exact Option.some.inj hfst
  refine ⟨w.bare, ?_, ?_⟩
  · rw [tree?, Arena.tree?, Arena.treeFrom_eq s.arena.size hw hle]
    rfl
  · rw [← hd, RemovedRule.tree?, hf'.tree?_eq List.mem_cons_self, Option.map_some, ← hbare]
    rfl

theorem run_delete {k : RuleKind} {d : RemovedRule} (hclean : s.settings.originClean = true)
    (hfree : s.pending = false) (hdel : s.deletable l i = .ok (id, k))
    (hd : (s.unlist l i).detach id = (some d, u)) :
    s.run (delete l i) = (.ok d, u.settleNamespaces k) := by
  have hclean : s.access = .ok () := access_eq_ok.mpr hclean
  have hfree : s.unlocked = .ok () := unlocked_eq_ok.mpr hfree
  unfold delete
  simp only [run_look_bind, run_change_bind, hclean, hfree, hdel]
  rw [run_bind, takeOut_eq_ok.mpr hd]
  rfl

/-- A rule that may be deleted is taken out of its list, with all below it. -/
theorem delete_of_deletable (hs : s.Planted ts) {k : RuleKind} (hclean : s.settings.originClean = true)
    (hfree : s.pending = false) (hdel : s.deletable l i = .ok (id, k)) :
    ∃ d t, s.run (delete l i) = (.ok d, t) ∧ t.Planted (pruneAll id ts) ∧ t.Spliced l i id s ∧
      ∃ w, s.tree? id = some w ∧ d.tree? = some w := by
  obtain ⟨is, context, r, hl, hi, hr, -⟩ := deletable_ok hdel
  have hid := mem_ids_of_rule? hr
  obtain ⟨d, hd⟩ := Option.isSome_iff_exists.mp
    (detach_isSome (s := s.unlist l i) (by rwa [unlist_arena]))
  obtain ⟨hcut, -⟩ := hs.detach_listed hl hi hid
  have hf : Arena.Forest (s.unlist l i).arena ts := by
    rw [unlist_arena]
    exact hs.forest
  obtain ⟨w, hw, hdw⟩ := detach_tree? hf (by rwa [unlist_arena]) (Prod.ext hd rfl)
  rw [tree?, unlist_arena] at hw
  have ht := hcut.of_eq (settleNamespaces_arena _ k) (settleNamespaces_rules _ k)
  refine ⟨d, _, run_delete hclean hfree hdel (Prod.ext hd rfl), ht,
    spliced_of_pruned hs ht (by rwa [list_eq_ok hl]) ?_, w, hw, hdw⟩
  unfold settleNamespaces
  cases l <;> split <;> rfl

theorem delete_splices (hs : s.Planted ts) {d : RemovedRule} (h : s.run (delete l i) = (.ok d, t)) :
    ∃ id, (s.ids l)[i]? = some id ∧ t.Spliced l i id s ∧ ∃ w, s.tree? id = some w ∧ d.tree? = some w := by
  obtain ⟨id, k, u, hclean, hfree, hdel, -, -⟩ := delete_ok h
  obtain ⟨is, context, r, hl, hi, -⟩ := deletable_ok hdel
  obtain ⟨d', t', hrun, -, hsplice, htree⟩ := delete_of_deletable hs hclean hfree hdel
  rw [h, Prod.mk.injEq, Except.ok.injEq] at hrun
  obtain ⟨rfl, rfl⟩ := hrun
  exact ⟨id, by rwa [list_eq_ok hl], hsplice, htree⟩

/-! ## Inserting -/

/-- The tree `w` was put into a list. -/
structure Placed (s : Sheet) (ts : List (Tree (RuleId × Rule))) (l : RuleList) (i : Nat)
    (w : Tree (RuleId × Rule)) (n : Nat) (t : Sheet) (us : List (Tree (RuleId × Rule))) : Prop where
  planted : t.Planted us
  pruned : pruneAll w.root us = ts
  listed : (t.ids l)[n]? = some w.root
  rule : t.rule? w.root = some w.value.2
  /-- Under a rule, what has a place of its own in a fixed order takes that. -/
  index_eq : n = i ∨ l ≠ .top ∧ w.value.2.head.rank? ≠ none
  rest_eq : t = { s with arena := t.arena, rules := t.rules, namespaces := t.namespaces }

theorem ids_attach {w : Tree (RuleId × Rule)} {p : RuleId} (hf : Arena.Forest s.arena (w :: ts))
    (hp : p ∈ idsOf ts) (n : Nat) :
    (s.arena.attach p n w.root).children p =
      (s.arena.children p).insertIdx (min n (s.arena.children p).length) w.root := by
  have hne : p ≠ w.root := fun e => hf.disjoint _ (Tree.root_mem_ids w) (e ▸ hp)
  have hmem : p ∈ s.arena.ids := hf.mem_ids.mpr (by rw [Tree.idsOf_cons]; exact List.mem_append_right _ hp)
  obtain ⟨m, hm⟩ := Option.isSome_iff_exists.mp (Arena.get?_isSome.mpr hmem)
  rw [Arena.children, Arena.get?_attach_parent hne, Arena.children, hm]
  rfl

/-- A planted tree is put into a list. -/
theorem place_planted {w : Tree (RuleId × Rule)} (hf : Arena.Forest s.arena (w :: ts))
    (hr : ts.map root = s.rules) (hl : ∀ p, l = .under p → p ∈ idsOf ts) (hi : i ≤ (s.ids l).length) :
    ∃ us, s.Placed ts l i w (s.place l i w.root).1 (s.place l i w.root).2 us := by
  have hroot : w.root ∉ idsOf ts := hf.disjoint _ (Tree.root_mem_ids w)
  have hw := Arena.holdsAll_iff.mp hf.holds w List.mem_cons_self
  have hself : ∀ is : List RuleId, ∀ n ≤ is.length, (is.insertIdx n w.root)[n]? = some w.root := by
    intro is n hn
    rw [List.getElem?_insertIdx_self, if_pos hn]
  cases l with
  | top =>
      have hlen : i ≤ ts.length := by rwa [ids, ← hr, List.length_map] at hi
      exact ⟨ts.insertIdx i w, planted_insertIdx hf hr hlen, Tree.pruneAll_insertIdx ts i hroot hlen,
        hself s.rules i hi, hw.value?, Or.inl rfl, rfl⟩
  | under p =>
      have hp := hl p rfl
      generalize hn : (s.arena.canonicalIndex? p w.root).getD i = n
      have hle : n ≤ (s.arena.children p).length := by
        rw [← hn, Arena.canonicalIndex?]
        cases s.arena.rank? w.root with
        | none => exact hi
        | some r => exact List.findIdx_le_length
      refine ⟨graftAll p n w ts, ?_, Tree.pruneAll_graftAll ts hroot, ?_, ?_, ?_, ?_⟩
      · simp only [place, hn]
        exact planted_attach hf hr hp n
      · simp only [place, hn, ids]
        rw [ids_attach hf hp, Nat.min_eq_left hle]
        exact hself _ n hle
      · rw [place, rule?, Arena.value?_attach]
        exact hw.value?
      · rw [place]
        by_cases hrank : w.value.2.head.rank? = none
        · rw [Arena.canonicalIndex?, hw.rank?, hrank]
          exact Or.inl rfl
        · exact Or.inr ⟨by rintro ⟨⟩, hrank⟩
      · rfl

theorem list_of_spliced {is : List RuleId} {context : RuleContext} (hl : s.list l = .ok (is, context))
    (h : s.Spliced l i id t) : t.list l = .ok (t.ids l, context) := by
  cases l with
  | top =>
      cases hl
      rfl
  | under p =>
      obtain ⟨r, hr, hk, -, hc⟩ := list_under_eq_ok.mp hl
      have hp := (h.kept p (Arena.contains_iff.mpr (mem_ids_of_rule? hr))).1
      exact list_under_eq_ok.mpr ⟨r, hp.trans hr, hk, rfl, hc⟩

/-- In a list that can be edited, margin boxes alone keep a fixed order. -/
theorem eq_margin_of_rank? {r r' : Rule} (hl : hasList r.kind = true)
    (ha : r.blockContext.allows r'.kind = true) (h : r'.head.rank? ≠ none) : r'.kind = .margin := by
  have hkind : r'.kind = .margin ∨ r'.kind = .featureBlock := by
    unfold Rule.kind
    cases hh : r'.head with
    | margin _ => exact Or.inl rfl
    | featureBlock _ => exact Or.inr rfl
    | _ => exact absurd (by rw [hh]; rfl) h
  refine hkind.resolve_right fun hk => ?_
  rw [hk, allows_featureBlock hl] at ha
  cases ha

/-- A sheet with a new rule of the prologue has a body only if it had one. -/
theorem hasBody_of_pruned (ht : t.Planted us) (hs : s.Planted (pruneAll id us)) {r : Rule}
    (hr : t.rule? id = some r) (hk : isPrologue r.kind = true) (hb : s.hasBody = false) :
    t.hasBody = false := by
  rw [hasBody, hs.kinds_eq, topKinds, List.any_map, List.any_eq_false] at hb
  rw [hasBody, ht.kinds_eq, topKinds, List.any_map, List.any_eq_false]
  intro v hv
  by_cases hid : v.root = id
  · have hrule := ht.rule?_root hv
    rw [hid, hr, Option.some.injEq] at hrule
    simp [← hrule, hk]
  · have hmem : Tree.prune id v ∈ pruneAll id us := by
      rw [Tree.pruneAll_eq_map]
      exact List.mem_map_of_mem (List.mem_filter.mpr ⟨hv, by simpa using hid⟩)
    simpa using hb _ hmem

theorem deletable_of {is : List RuleId} {context : RuleContext} {r : Rule}
    (hl : s.list l = .ok (is, context)) (hi : is[i]? = some id) (hr : s.rule? id = some r)
    (hb : r.kind = .namespaceRule → s.hasBody = false) : s.deletable l i = .ok (id, r.kind) := by
  unfold deletable
  simp only [hl, hi, bind, Except.bind, anyRule_eq_ok.mpr hr]
  rw [if_neg]
  intro h
  rw [Bool.and_eq_true, decide_eq_true_eq] at h
  rw [hb h.1] at h
  exact Bool.false_ne_true h.2

/-- The rule that was inserted may be deleted. -/
theorem insert_placed (hs : s.Planted ts) {text : String} (h : s.run (insert l text i) = (.ok n, t)) :
    ∃ w us, w.root = s.arena.fresh ∧ s.Placed ts l i w n t us ∧
      (n = i ∨ w.value.2.kind = .margin) ∧ t.deletable l n = .ok (w.root, w.value.2.kind) := by
  obtain ⟨is, context, st, head, -, -, hl, hi, -, -, hadmits, hplace⟩ := insert_ok h
  obtain ⟨w, hw, hbare, hf⟩ := hs.plant context head st
  have hkind : w.value.2.kind = head.kind := (kind_of_bare hbare).trans (Draft.kind_ofStatement ..)
  obtain ⟨-, hallows, htop⟩ := admits_eq_ok.mp hadmits
  rw [← hkind] at hallows htop
  have hunder : ∀ p, l = .under p → p ∈ idsOf ts := by
    rintro p rfl
    obtain ⟨r, hr, -⟩ := list_under_eq_ok.mp hl
    exact hs.mem_idsOf hr
  have hids : (s.plant context head st).2.ids l = is := by
    rw [← list_eq_ok hl]
    cases l with
    | top => rfl
    | under p =>
        have hh := hf.holds
        rw [Arena.HoldsAll] at hh
        rw [ids, Arena.children, Arena.HoldsAll.get?_eq hs.forest.holds hh.2 (hunder p rfl)]
        rfl
  rw [← hids] at hi
  obtain ⟨us, hp⟩ := place_planted hf hs.roots hunder hi
  rw [hw, hplace] at hp
  have hp : s.Placed ts l i w n t us :=
    ⟨hp.planted, hp.pruned, hp.listed, hp.rule, hp.index_eq, hp.rest_eq⟩
  have hsplice := spliced_of_pruned hp.planted (by rwa [hp.pruned]) hp.listed hp.rest_eq
  refine ⟨w, us, hw.trans (Arena.root_plant _ _), hp, ?_,
    deletable_of (list_of_spliced hl hsplice) hp.listed hp.rule fun hk => ?_⟩
  · refine hp.index_eq.imp_right ?_
    rintro ⟨htop, hrank⟩
    cases l with
    | top => exact absurd rfl htop
    | under p =>
        obtain ⟨r, -, hr, -, rfl⟩ := list_under_eq_ok.mp hl
        exact eq_margin_of_rank? hr hallows hrank
  · cases l with
    | top =>
        refine hasBody_of_pruned hp.planted (by rwa [hp.pruned]) hp.rule (by rw [hk]; rfl) ?_
        exact (topLevelAdmits_eq_ok.mp (htop rfl)).2 hk
    | under p =>
        obtain ⟨r, -, -, -, rfl⟩ := list_under_eq_ok.mp hl
        exact absurd hk (blockContext_ne_namespaceRule hallows)

/-- A rule that is deleted right after it was inserted leaves the trees that there were. -/
theorem insert_splices (hs : s.Planted ts) {text : String} (h : s.run (insert l text i) = (.ok n, t)) :
    s.Spliced l n s.arena.fresh t ∧ ¬ s.arena.Used s.arena.fresh ∧
      (n = i ∨ ∃ r, t.rule? s.arena.fresh = some r ∧ r.kind = .margin) ∧
      ∃ d u w, t.run (delete l n) = (.ok d, u) ∧ t.tree? s.arena.fresh = some w ∧ d.tree? = some w ∧
        u.Planted ts := by
  obtain ⟨is, context, st, head, hclean, hfree, -⟩ := insert_ok h
  obtain ⟨w, us, hw, hp, hindex, hdel⟩ := insert_placed hs h
  have hclean' : t.settings.originClean = true := by
    rw [hp.rest_eq]
    exact hclean
  have hfree' : t.pending = false := by
    rw [hp.rest_eq]
    exact hfree
  obtain ⟨d, u, hrun, hu, -, v, hv, hd⟩ := delete_of_deletable hp.planted hclean' hfree' hdel
  rw [hp.pruned] at hu
  rw [hw] at hv
  refine ⟨?_, Arena.fresh_not_used hs.forest.versioned, ?_, d, u, v, hrun, hv, hd, hu⟩
  · rw [← hw]
    exact spliced_of_pruned hp.planted (by rwa [hp.pruned]) hp.listed hp.rest_eq
  · exact hindex.imp_right fun hk => ⟨_, hw ▸ hp.rule, hk⟩

end Sheet

/-! ## Every sheet -/

namespace SharedSheet

/-- After any run of events, an insertion puts one rule with a new id, and all below it, at one place of
its list and a deletion takes one rule with all below it out of its list, and nothing else is touched.
The place is the given one, but for margin boxes.  What was inserted can be deleted from its place at
once, comes out as it was there, and leaves the trees and the text of the sheet before it. -/
theorem edits_splice {σ : SharedSheet} (h : σ.Reachable) (l : RuleList) :
    (∀ text i n t, σ.sheet.run (Sheet.insert l text i) = (.ok n, t) →
      σ.sheet.Spliced l n σ.sheet.arena.fresh t ∧ ¬ σ.sheet.arena.Used σ.sheet.arena.fresh ∧
        (n = i ∨ ∃ r, t.rule? σ.sheet.arena.fresh = some r ∧ r.kind = .margin) ∧
        ∃ d u w, t.run (Sheet.delete l n) = (.ok d, u) ∧ t.tree? σ.sheet.arena.fresh = some w ∧
          d.tree? = some w ∧ d.text = Rule.text w ∧
          u.forest = σ.sheet.forest ∧ u.text = σ.sheet.text) ∧
      ∀ i d t, σ.sheet.run (Sheet.delete l i) = (.ok d, t) →
        ∃ id, (σ.sheet.ids l)[i]? = some id ∧ t.ids l = (σ.sheet.ids l).eraseIdx i ∧
          t.Spliced l i id σ.sheet ∧
          ∃ w, σ.sheet.tree? id = some w ∧ d.tree? = some w ∧ d.text = Rule.text w := by
  have hs := (isForest_of_reachable h).planted
  have htext : ∀ {d : RemovedRule} {w : Tree Rule}, d.tree? = some w → d.text = Rule.text w := by
    intro d w hd
    rw [RemovedRule.text, hd]
    rfl
  constructor
  · intro text i n t hrun
    obtain ⟨hsplice, hfresh, hindex, d, u, w, hdel, hw, hd, hu⟩ := Sheet.insert_splices hs hrun
    refine ⟨hsplice, hfresh, hindex, d, u, w, hdel, hw, hd, htext hd, hu.forest_eq, ?_⟩
    rw [Sheet.text, hu.forest_eq, Sheet.text]
  · intro i d t hrun
    obtain ⟨id, hi, hsplice, w, hw, hd⟩ := Sheet.delete_splices hs hrun
    refine ⟨id, hi, ?_, hsplice, w, hw, hd, htext hd⟩
    rw [hsplice.ids_eq, List.eraseIdx_insertIdx_self]

/-- A margin box that is inserted behind two others takes its place in front of them, and the second of
three rules is deleted. -/
theorem edits_splice_page :
    let s := (ofSheet (Sheet.read .scripted "a{} @page{@top-right{}@bottom-left{}} b{}")).sheet
    (∃ t, s.run (Sheet.insert (.under ⟨2, 1⟩) "@top-left{}" 2) = (.ok 0, t) ∧
      s.Spliced (.under ⟨2, 1⟩) 0 s.arena.fresh t) ∧
      ∃ d t, s.run (Sheet.delete .top 1) = (.ok d, t) ∧ t.Spliced .top 1 ⟨2, 1⟩ s := by
  intro s
  have hs : (ofSheet s).Reachable := ⟨_, [], .read _ _, rfl⟩
  constructor
  · have hrun : (s.run (Sheet.insert (.under ⟨2, 1⟩) "@top-left{}" 2)).1.toOption = some 0 := by
      decide +kernel
    rcases hr : s.run (Sheet.insert (.under ⟨2, 1⟩) "@top-left{}" 2) with ⟨_ | n, t⟩
    · rw [hr] at hrun
      cases hrun
    · rw [hr] at hrun
      cases hrun
      exact ⟨t, rfl, ((edits_splice hs _).1 _ _ _ _ hr).1⟩
  · have hrun : (s.run (Sheet.delete .top 1)).1.toOption.isSome = true := by decide +kernel
    have hrules : s.rules = [⟨1, 1⟩, ⟨2, 1⟩, ⟨5, 1⟩] := by decide +kernel
    rcases hr : s.run (Sheet.delete .top 1) with ⟨_ | d, t⟩
    · rw [hr] at hrun
      cases hrun
    · obtain ⟨id, hid, -, hsplice, -⟩ := (edits_splice hs .top).2 _ _ _ hr
      have hid : s.rules[1]? = some id := hid
      rw [hrules] at hid
      cases hid
      exact ⟨d, t, rfl, hsplice⟩

end SharedSheet

end StyleTree
