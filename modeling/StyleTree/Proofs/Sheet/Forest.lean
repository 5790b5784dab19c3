/-
# `Proofs.Sheet.Forest` — every edit keeps the rules a forest

`Planted s ts` says that the nodes of a sheet are the trees `ts` and that
their roots are its top level.  An edit changes the two together, and
`Reshape` lists how:

    listed         a tree is planted, its root joins the top level
    grafted        a tree is planted and put under a rule
    founded        the same with a new block of feature values
    cut            a subtree is cut off, and its root leaves its list
    revised        a value changes
    replaced       new trees are planted, then the old ones removed

`Change.reshape` is the one place where the edits are gone through on trees.
`Keeps s t` is what all of them respect: a forest stays a forest, and ids
that were given up stay so.  It is transitive, and an edit that fails
leaves the sheet as it was.
-/
import StyleTree.Proofs.Rule.Planting
import StyleTree.Proofs.Rule.Reading
import StyleTree.Proofs.Arena.Ancestry
import StyleTree.Proofs.Arena.Moving
import StyleTree.Proofs.Sheet.Changes

namespace StyleTree.Sheet

open StyleTree.Tree (root idsOf adjustAll graftAll pruneAll bareAll)
open Arena (Forest Evolves)

variable {s t u : Sheet} {ts : List (Tree (RuleId × Rule))} {id : RuleId} {e : Edit}

/-! ## Sheets as forests -/

/-- The nodes of the sheet are those of some trees, whose roots are the top level. -/
structure Planted (s : Sheet) (ts : List (Tree (RuleId × Rule))) : Prop where
  forest : Forest s.arena ts
  roots : ts.map root = s.rules

def IsForest (s : Sheet) : Prop := ∃ ts, s.Planted ts

/-- No link is lost between two sheets, and no id that was used comes back. -/
structure Keeps (s t : Sheet) : Prop where
  evolves : Evolves s.arena t.arena
  isForest : s.IsForest → t.IsForest

theorem Keeps.refl (s : Sheet) : Keeps s s := ⟨Evolves.refl s.arena, id⟩

theorem Keeps.trans (h₁ : Keeps s t) (h₂ : Keeps t u) : Keeps s u :=
  ⟨h₁.evolves.trans h₂.evolves, fun h => h₂.isForest (h₁.isForest h)⟩

/-- A change of anything but the rules. -/
theorem Planted.of_eq (h : s.Planted ts) (ha : t.arena = s.arena) (hr : t.rules = s.rules) :
    t.Planted ts :=
  ⟨ha ▸ h.forest, hr ▸ h.roots⟩

theorem keeps_of_eq (ha : t.arena = s.arena) (hr : t.rules = s.rules) : Keeps s t :=
  ⟨ha ▸ Evolves.refl s.arena, fun ⟨ts, h⟩ => ⟨ts, h.of_eq ha hr⟩⟩

theorem Planted.nodup (h : s.Planted ts) : s.rules.Nodup :=
  h.roots ▸ Tree.nodup_roots h.forest.nodup

theorem Planted.mem_idsOf (h : s.Planted ts) {r : Rule} (hr : s.rule? id = some r) : id ∈ idsOf ts :=
  h.forest.mem_ids.mp (mem_ids_of_rule? hr)

theorem Planted.not_mem_rules_of_child (h : s.Planted ts) {p c : RuleId}
    (hc : c ∈ s.arena.children p) : c ∉ s.rules := by
  intro hm
  have hnone := Arena.parent_of_mem_roots h.forest.holds (h.roots ▸ hm)
  rw [h.forest.mem_children_iff.mp hc] at hnone
  cases hnone

theorem Planted.every_rule (h : s.Planted ts) : Tree.EveryOf (fun e => s.rule? e.1 = some e.2) ts :=
  Arena.HoldsAll.every h.forest.holds

/-- What all rules of the trees have is what all rules of the sheet have. -/
theorem Planted.everyOf_iff {P : RuleId × Rule → Prop} (h : s.Planted ts) :
    Tree.EveryOf P ts ↔ ∀ id r, s.rule? id = some r → P (id, r) := by
  constructor
  · intro hP id r hr
    obtain ⟨⟨x, r'⟩, he, hx⟩ := List.mem_map.mp (h.mem_idsOf hr)
    obtain rfl : x = id := hx
    have hr' : s.rule? x = some r' := h.every_rule _ he
    rw [hr, Option.some.injEq] at hr'
    rw [hr']
    exact hP _ he
  · intro hP e he
    exact hP e.1 e.2 (h.every_rule e he)

/-- The rules at the roots of trees. -/
def tops (ts : List (Tree (RuleId × Rule))) : List Rule := ts.map fun t => t.value.2

theorem Planted.rule?_root (h : s.Planted ts) {t : Tree (RuleId × Rule)} (ht : t ∈ ts) :
    s.rule? t.root = some t.value.2 :=
  (Arena.holdsAll_iff.mp h.forest.holds t ht).value?

theorem Planted.top_rules (h : s.Planted ts) : s.rules.filterMap s.rule? = tops ts := by
  have hrules : ∀ us : List (Tree (RuleId × Rule)), (∀ t ∈ us, s.rule? t.root = some t.value.2) →
      (us.map root).filterMap s.rule? = tops us := by
    intro us hus
    induction us with
    | nil => rfl
    | cons t us ih =>
        rw [List.map_cons, List.filterMap_cons_some (hus t List.mem_cons_self),
          ih fun v hv => hus v (List.mem_cons_of_mem _ hv)]
        rfl
  rw [← h.roots]
  exact hrules ts fun t ht => h.rule?_root ht

/-- The namespaces that rules declare, in order. -/
def declaredBy (rs : List Rule) : Namespaces := rs.foldl (fun ns r => r.head.declare ns) .empty

theorem Planted.declaredNamespaces_eq (h : s.Planted ts) :
    s.declaredNamespaces = declaredBy (tops ts) := by
  rw [declaredNamespaces, h.top_rules]
  rfl

/-! ## Writing a sheet that is a forest -/

theorem Planted.modify (h : s.Planted ts) (id : RuleId) (f : Rule → Rule) :
    Planted { s with arena := s.arena.modify id fun n => { n with value := f n.value } }
      (adjustAll id f ts) :=
  ⟨Arena.forest_adjust h.forest id f, (Tree.roots_adjustAll id f ts).trans h.roots⟩

/-- Planting adds a tree that is in no list yet. -/
theorem Planted.plant (h : s.Planted ts) (context : RuleContext) (head : RuleHead) (st : Statement) :
    ∃ w, w.root = (s.plant context head st).1 ∧
      w.bare = (Draft.ofStatement s.settings.options s.namespaces context head st).tree ∧
      Forest (s.plant context head st).2.arena (w :: ts) :=
  Arena.forest_plant _ h.forest

/-- A tree in no list is put under a rule. -/
theorem planted_attach {w : Tree (RuleId × Rule)} {p : RuleId} (hf : Forest s.arena (w :: ts))
    (hr : ts.map root = s.rules) (hp : p ∈ idsOf ts) (n : Nat) :
    Planted { s with arena := s.arena.attach p n w.root } (graftAll p n w ts) :=
  ⟨Arena.forest_attach hf hp n, (Tree.roots_graftAll ts).trans hr⟩

/-- A tree in no list is put into the top level. -/
theorem planted_insertIdx {w : Tree (RuleId × Rule)} {i : Nat} (hf : Forest s.arena (w :: ts))
    (hr : ts.map root = s.rules) (hi : i ≤ ts.length) :
    Planted { s with rules := s.rules.insertIdx i w.root } (ts.insertIdx i w) := by
  refine ⟨hf.of_perm (List.perm_insertIdx w ts hi).symm, ?_⟩
  rw [List.map_insertIdx, hr]

/-- What was cut off is a subtree, and its ids are in use no more. -/
theorem planted_detach (hf : Forest s.arena ts) (hid : id ∈ s.arena.ids)
    (hr : (ts.map root).filter (· ≠ id) = s.rules) :
    (s.detach id).2.Planted (pruneAll id ts) ∧
      ∀ x, s.arena.Under id x → x ∉ (s.detach id).2.arena.ids := by
  obtain ⟨w, p, rfl, hw, -, hf', hids⟩ := Arena.forest_moveSubtree hf hid (.empty)
  refine ⟨⟨hf', (Tree.roots_pruneAll ts).trans hr⟩, fun x hx hm => ?_⟩
  exact ((hids x).mp hm).2 (Arena.mem_ids_of_under hf hw hx)

theorem eraseIdx_eq_filter {x : RuleId} : ∀ {l : List RuleId} {i : Nat}, l.Nodup → l[i]? = some x →
    l.eraseIdx i = l.filter (· ≠ x)
  | [], _, _, hi => by simp at hi
  | y :: l, 0, hn, hi => by
      rw [List.getElem?_cons_zero, Option.some.injEq] at hi
      subst hi
      rw [List.eraseIdx_cons_zero, List.filter_cons_of_neg (by simp),
        Arena.filter_ne_self (List.nodup_cons.mp hn).1]
  | y :: l, i + 1, hn, hi => by
      rw [List.getElem?_cons_succ] at hi
      have hy : y ≠ x := by
        rintro rfl
        exact (List.nodup_cons.mp hn).1 (List.mem_of_getElem? hi)
      rw [List.eraseIdx_cons_succ, List.filter_cons_of_pos (by simpa using hy),
        eraseIdx_eq_filter (List.nodup_cons.mp hn).2 hi]

/-- A rule that was found in a list leaves that list, and is in no other. -/
theorem Planted.unlist_rules (h : s.Planted ts) {l : RuleList} {i : Nat} {is : List RuleId}
    {context : RuleContext} (hl : s.list l = .ok (is, context)) (hi : is[i]? = some id) :
    (ts.map root).filter (· ≠ id) = (s.unlist l i).rules := by
  rw [h.roots]
  cases l with
  | top =>
      cases hl
      exact (eraseIdx_eq_filter h.nodup hi).symm
  | under p =>
      refine Arena.filter_ne_self (h.not_mem_rules_of_child (p := p) ?_)
      obtain ⟨r, -, -, rfl, -⟩ := list_under_eq_ok.mp hl
      exact List.mem_of_getElem? hi

theorem settleNamespaces_arena (s : Sheet) (k : RuleKind) : (s.settleNamespaces k).arena = s.arena := by
  unfold settleNamespaces
  split <;> rfl

theorem settleNamespaces_rules (s : Sheet) (k : RuleKind) : (s.settleNamespaces k).rules = s.rules := by
  unfold settleNamespaces
  split <;> rfl

theorem unlist_arena (s : Sheet) (l : RuleList) (i : Nat) : (s.unlist l i).arena = s.arena := by
  cases l <;> rfl

theorem unlist_namespaces (s : Sheet) (l : RuleList) (i : Nat) :
    (s.unlist l i).namespaces = s.namespaces := by
  cases l <;> rfl

/-- A rule leaves its list and then the arena. -/
theorem Planted.detach_listed (h : s.Planted ts) {l : RuleList} {i : Nat} {is : List RuleId}
    {context : RuleContext} (hl : s.list l = .ok (is, context)) (hi : is[i]? = some id)
    (hm : id ∈ s.arena.ids) :
    ((s.unlist l i).detach id).2.Planted (pruneAll id ts) ∧
      ∀ x, s.arena.Under id x → x ∉ ((s.unlist l i).detach id).2.arena.ids := by
  have hf : Forest (s.unlist l i).arena ts := by
    rw [unlist_arena]
    exact h.forest
  have hout := planted_detach hf (by rwa [unlist_arena]) (h.unlist_rules hl hi)
  rwa [unlist_arena] at hout

/-- A child leaves the arena; its parent unlists it, and the top level did not have it. -/
theorem Planted.detach_child (h : s.Planted ts) {p c : RuleId} (hc : c ∈ s.arena.children p) :
    (s.detach c).2.Planted (pruneAll c ts) ∧
      ∀ x, s.arena.Under c x → x ∉ (s.detach c).2.arena.ids := by
  refine planted_detach h.forest (h.forest.mem_ids_of_child hc) ?_
  rw [h.roots]
  exact Arena.filter_ne_self (h.not_mem_rules_of_child hc)

theorem load_spec (hf : Forest s.arena ts) (text : String) :
    ∃ us, Forest (s.load text).arena (us ++ ts) ∧ us.map root = (s.load text).rules ∧
      bareAll us =
        (Draft.ofText s.settings.options (!s.settings.constructed) text).1.map Draft.tree := by
  obtain ⟨us, hroots, hbare, hf⟩ := Arena.forest_plantAll
    (Draft.ofText s.settings.options (!s.settings.constructed) text).1 hf
  exact ⟨us, hf, hroots, hbare⟩

/-- The trees of a sheet that was just read are those of its text. -/
theorem planted_read (c : HostSettings) (text : String) :
    ∃ us, (read c text).Planted us ∧
      bareAll us = (Draft.ofText c.options (!c.constructed) text).1.map Draft.tree := by
  obtain ⟨us, hf, hroots, hbare⟩ := load_spec (s := empty c) Arena.forest_empty text
  rw [List.append_nil] at hf
  exact ⟨us, ⟨hf, hroots⟩, hbare⟩

/-- The first trees of a forest are removed one after the other. -/
theorem forest_removeAll : ∀ {ts us : List (Tree (RuleId × Rule))} {a : Arena Rule},
    Forest a (ts ++ us) → Forest ((ts.map root).foldl Arena.removeSubtree a) us
  | [], _, _, h => h
  | t :: ts, us, a, h => by
      rw [List.map_cons, List.foldl_cons]
      exact forest_removeAll (Arena.forest_remove_head h).1

/-- The new trees are planted beside the old ones, so no id is in both. -/
theorem Planted.commit (h : s.Planted ts) (text : String) :
    ∃ us, (s.commit text).Planted us ∧
      bareAll us =
        (Draft.ofText s.settings.options (!s.settings.constructed) text).1.map Draft.tree ∧
      ∀ x ∈ idsOf ts, x ∉ idsOf us := by
  obtain ⟨us, hf, hroots, hbare⟩ := load_spec h.forest text
  have hf := hf.of_perm List.perm_append_comm
  refine ⟨us, ⟨?_, hroots⟩, hbare, fun x hx hu => ?_⟩
  · have hrest := forest_removeAll hf
    rwa [h.roots] at hrest
  · have hn := hf.nodup
    rw [Tree.idsOf_append] at hn
    exact (List.nodup_append'.mp hn).2.2 hx hu

/-! ## Every edit on trees -/

/-- The tree is that of a statement which was read as a rule in a context of the sheet. -/
structure Grown (s : Sheet) (context : RuleContext) (head : RuleHead) (st : Statement)
    (w : Tree (RuleId × Rule)) : Prop where
  read : st.read context s.namespaces = .ok head
  bare : w.bare = (Draft.ofStatement s.settings.options s.namespaces context head st).tree

/-- The place of a rule among the children of another, if it has to keep a fixed order. -/
def slot (s : Sheet) (p : RuleId) (r : Rule) : Nat := Draft.slot r (s.arena.childRules p)

/-- What an edit that succeeds makes of the trees of a sheet and of its namespaces. -/
inductive Reshape (s : Sheet) (ts : List (Tree (RuleId × Rule))) :
    Edit → Namespaces → List (Tree (RuleId × Rule)) → Prop
  | ignored {e : Edit} : Ignorable e → Reshape s ts e s.namespaces ts
  | revised {e : Edit} {id : RuleId} {r : Rule} {f : Rule → Rule} :
      s.rule? id = some r → s.Revision e id r (f r) → Reshape s ts e s.namespaces (adjustAll id f ts)
  | listed {text : String} {i : Nat} {st : Statement} {head : RuleHead} {w : Tree (RuleId × Rule)} :
      i ≤ ts.length → Statement.single (ComponentValue.ofText text) = .ok st →
      s.admits .top .stylesheet head.kind i = .ok () → s.Grown .stylesheet head st w →
      Reshape s ts (.insert .top text i) (head.declare s.namespaces) (ts.insertIdx i w)
  | grafted {e : Edit} {p : RuleId} {n : Nat} {r : Rule} {st : Statement} {head : RuleHead}
      {w : Tree (RuleId × Rule)} : (∀ text i, e ≠ .insert .top text i) → s.rule? p = some r →
      hasList r.kind = true → s.Grown r.blockContext head st w →
      (w.value.2.head.rank?.isSome = true → n = s.slot p w.value.2) →
      Reshape s ts e (head.declare s.namespaces) (graftAll p n w ts)
  | founded {p x : RuleId} {n : Nat} {f : FeatureType} {name : String} {values : List Nat} {r : Rule}
      {m : FeatureValues} : s.rule? p = some r → r.kind = .fontFeatureValues →
      s.featuresUnder? p f = none → n = s.slot p ⟨.featureBlock m, none, .fontFeatureValues⟩ →
      (FeatureValues.empty f).set name values = .ok m →
      Reshape s ts (.setFeature p f name values) s.namespaces
        (graftAll p n (.node (x, ⟨.featureBlock m, none, .fontFeatureValues⟩) []) ts)
  | cut {e : Edit} {id : RuleId} {r : Rule} : (∀ text i, e ≠ .insert .top text i) →
      s.rule? id = some r → (r.kind = .namespaceRule → s.hasBody = false) →
      Reshape s ts e
        (if r.kind = .namespaceRule then declaredBy (tops (pruneAll id ts)) else s.namespaces)
        (pruneAll id ts)
  | replaced {text : String} {us : List (Tree (RuleId × Rule))} :
      bareAll us =
        (Draft.ofText s.settings.options (!s.settings.constructed) text).1.map Draft.tree →
      Reshape s ts (.replace text)
        (Draft.ofText s.settings.options (!s.settings.constructed) text).2 us

theorem admits_eq_ok {l : RuleList} {context : RuleContext} {k : RuleKind} {i : Nat} {v : Unit} :
    s.admits l context k i = .ok v ↔
      ¬ (k = .importRule ∧ s.settings.constructed = true) ∧ context.allows k = true ∧
        (l = .top → s.topLevelAdmits k i = .ok ()) := by
  unfold admits
  by_cases hi : k = .importRule ∧ s.settings.constructed = true
  · simp [hi]
  · have hi' : ¬ (decide (k = .importRule) && s.settings.constructed) = true := by simpa using hi
    rw [if_neg hi']
    by_cases ha : context.allows k = true
    · by_cases hl : l = .top
      · simp [hi, ha, hl]
      · simp [hi, ha, hl]
    · simp [ha]

theorem read_of_headOf {st : Statement} {context : RuleContext} {head : RuleHead}
    (h : s.headOf st context = .ok head) (ha : context.allows head.kind = true) :
    st.read context s.namespaces = .ok head := by
  unfold headOf at h
  cases hc : st.classify context with
  | error f =>
      rw [hc] at h
      cases h
  | ok k =>
      simp only [hc] at h
      cases hp : RuleHead.ofPrelude? k st context s.namespaces with
      | none =>
          rw [hp] at h
          cases h
      | some head' =>
          rw [hp] at h
          cases h
          obtain rfl := RuleHead.kind_of_ofPrelude? hp
          exact Statement.read_eq_ok.mpr ⟨hc, ha, hp⟩

theorem read_of_keyframeOf {st : Statement} {head : RuleHead} (h : s.keyframeOf st = .ok head) :
    st.read .keyframes s.namespaces = .ok head := by
  unfold keyframeOf at h
  split at h
  · cases h
  · next hq =>
      have hname : st.name = none := by simpa [Statement.isQualified] using hq
      cases hp : RuleHead.ofPrelude? .keyframe st .keyframes s.namespaces with
      | none =>
          rw [hp] at h
          cases h
      | some head' =>
          rw [hp] at h
          cases h
          have hk := RuleHead.kind_of_ofPrelude? hp
          refine Statement.read_eq_ok.mpr ⟨?_, by rw [hk]; rfl, by rw [hk]; exact hp⟩
          rw [Statement.classify, hname, hk]
          rfl

/-- A keyframe that was found is a rule of the sheet, among the children of its parent. -/
theorem rule?_of_findKeyframe? {c : RuleId} {key : String} (h : s.findKeyframe? id key = some c) :
    c ∈ s.arena.children id ∧ ∃ r, s.rule? c = some r ∧ r.kind = .keyframe := by
  refine ⟨(mem_ids_of_findKeyframe? h).1, ?_⟩
  unfold findKeyframe? at h
  split at h
  · have hc := List.find?_some h
    unfold keyText? at hc
    split at hc
    · next hr => exact ⟨_, hr, rfl⟩
    · simp at hc
  · cases h

theorem settleNamespaces_namespaces (h : s.Planted ts) (k : RuleKind) :
    (s.settleNamespaces k).namespaces =
      if k = .namespaceRule then declaredBy (tops ts) else s.namespaces := by
  unfold settleNamespaces
  split
  · exact h.declaredNamespaces_eq
  · rfl

/-- No list that can be edited admits blocks of feature values. -/
theorem allows_featureBlock {r : Rule} (hl : hasList r.kind = true) :
    r.blockContext.allows .featureBlock = false := by
  rw [Rule.blockContext]
  generalize r.kind = k at hl
  cases k with
  | layerBlock | media | supports | container | startingStyle =>
      generalize r.context = c
      cases c <;> rfl
  | fontFeatureValues => cases hl
  | _ => rfl

/-- Where a tree that was planted would be put does not depend on its own nodes. -/
theorem Planted.canonicalIndex?_eq (hs : s.Planted ts) {a : Arena Rule} {w : Tree (RuleId × Rule)} {p : RuleId}
    (hf : Forest a (w :: ts)) (hp : p ∈ idsOf ts) :
    a.canonicalIndex? p w.root = w.value.2.head.rank?.map fun _ => s.slot p w.value.2 := by
  have hh := hf.holds
  rw [Arena.HoldsAll] at hh
  have hsame : ∀ x ∈ idsOf ts, a.get? x = s.arena.get? x := fun x hx =>
    Arena.HoldsAll.get?_eq hs.forest.holds hh.2 hx
  have hchildren : a.children p = s.arena.children p := by rw [Arena.children, hsame p hp, Arena.children]
  rw [Arena.canonicalIndex?, hh.1.rank?, hchildren]
  cases hrank : w.value.2.head.rank? with
  | none => rfl
  | some k =>
      have hranks : (s.arena.children p).findIdx (fun x => (a.rank? x).any (k < ·)) =
          ((s.arena.children p).map s.arena.value?).findIdx fun v => (v.bind (·.head.rank?)).any (k < ·) := by
        rw [List.findIdx_map]
        refine Arena.findIdx_congr fun x hx => ?_
        have hx : x ∈ idsOf ts := hs.forest.mem_ids.mp (hs.forest.mem_ids_of_child hx)
        rw [Function.comp_apply, Arena.rank?, Arena.value?, hsame x hx, Arena.value?]
      rw [Option.map_some, Option.map_some, slot, Draft.slot, hrank, hranks, hs.forest.map_value?, List.findIdx_map]
      rfl

theorem Change.reshape (h : Change s e t) (hs : s.Planted ts) :
    ∃ us, t.Planted us ∧ Reshape s ts e t.namespaces us := by
  cases h with
  | ignored he => exact ⟨ts, hs, .ignored he⟩
  | revised hr hf => exact ⟨_, hs.modify _ _, .revised hr hf⟩
  | @inserted l text i is context st head hl hi hst hhead hadmits =>
      have hread := read_of_headOf hhead (admits_eq_ok.mp hadmits).2.1
      obtain ⟨w, hw, hbare, hf⟩ := hs.plant context head st
      cases l with
      | top =>
          cases hl
          have hi : i ≤ ts.length := by rwa [← hs.roots, List.length_map] at hi
          rw [← hw]
          exact ⟨_, planted_insertIdx hf hs.roots hi, .listed hi hst hadmits ⟨hread, hbare⟩⟩
      | under p =>
          obtain ⟨r, hr, hk, -, rfl⟩ := list_under_eq_ok.mp hl
          have hindex := hs.canonicalIndex?_eq hf (hs.mem_idsOf hr)
          rw [← hw]
          refine ⟨_, planted_attach hf hs.roots (hs.mem_idsOf hr) _,
            .grafted (fun text i he => by cases he) hr hk ⟨hread, hbare⟩ fun hrank => ?_⟩
          obtain ⟨k, hrank⟩ := Option.isSome_iff_exists.mp hrank
          rw [hindex, hrank]
          rfl
  | @appended p text r st head hr hk hst hhead =>
      obtain ⟨w, hw, hbare, hf⟩ := hs.plant .keyframes head st
      have hcontext : r.blockContext = .keyframes := by rw [Rule.blockContext, hk]; rfl
      have hg : s.Grown r.blockContext head st w := by
        rw [hcontext]
        exact ⟨read_of_keyframeOf hhead, hbare⟩
      rw [append, ← hw]
      refine ⟨_, planted_attach hf hs.roots (hs.mem_idsOf hr) _,
        .grafted (fun text i he => by cases he) hr (by rw [hk]; rfl) hg fun hrank => ?_⟩
      -- a keyframe keeps no fixed order
      rw [Draft.value_of_bare hbare] at hrank
      have hnone : head.rank?.isSome = true := Draft.isSome_rank?_ofStatement hrank
      have hallowed := (Statement.read_eq_ok.mp hg.read).2.1
      rw [hcontext] at hallowed
      cases head with
      | margin _ | featureBlock _ => cases hallowed
      | _ => cases hnone
  | @founded p f name values r m hr hk hnone hset =>
      have hf := Arena.forest_insert hs.forest ⟨.featureBlock m, none, .fontFeatureValues⟩
      have hindex := hs.canonicalIndex?_eq hf (hs.mem_idsOf hr)
      exact ⟨_, planted_attach (s := { s with arena := _ }) hf hs.roots (hs.mem_idsOf hr) _,
        .founded hr hk hnone (congrArg (Option.getD · _) hindex) hset⟩
  | @deleted l i is context id r hl hi hr hb =>
      obtain ⟨hcut, -⟩ := hs.detach_listed hl hi (mem_ids_of_rule? hr)
      refine ⟨_, hcut.of_eq (settleNamespaces_arena _ _) (settleNamespaces_rules _ _), ?_⟩
      have hns : (((s.unlist l i).detach id).2).namespaces = s.namespaces := unlist_namespaces s l i
      rw [settleNamespaces_namespaces hcut, hns]
      exact .cut (fun text i he => by cases he) hr hb
  | @keyframeDeleted p c key hc =>
      obtain ⟨hchild, r, hr, hk⟩ := rule?_of_findKeyframe? hc
      obtain ⟨hcut, -⟩ := hs.detach_child hchild
      have hcase : r.kind ≠ .namespaceRule := by
        rw [hk]
        intro h
        cases h
      have hout : Reshape s ts (.deleteKeyframe p key) _ (pruneAll c ts) :=
        .cut (fun text i he => by cases he) hr fun h => absurd h hcase
      rw [if_neg hcase] at hout
      exact ⟨_, hcut, hout⟩
  | @replaced text hc hp =>
      obtain ⟨us, hus, hbare, -⟩ := hs.commit text
      exact ⟨us, hus, .replaced hbare⟩

/-- An edit leaves the sheet as it was, or it reshapes its trees. -/
theorem Planted.perform_cases (hs : s.Planted ts) (e : Edit) :
    (∃ f, s.run (perform e) = (.error f, s)) ∨
      ∃ o t us, s.run (perform e) = (.ok o, t) ∧ t.Planted us ∧ Reshape s ts e t.namespaces us := by
  rcases Sheet.perform_cases s e with hrun | ⟨o, t, hrun⟩
  · exact Or.inl hrun
  · obtain ⟨us, hus, hre⟩ := (change_of_ok hrun).reshape hs
    exact Or.inr ⟨o, t, us, hrun, hus, hre⟩

/-! ## What every edit keeps -/

theorem evolves_plant (s : Sheet) (context : RuleContext) (head : RuleHead) (st : Statement) :
    Evolves s.arena (s.plant context head st).2.arena :=
  Arena.evolves_plant _ _

theorem evolves_detach (s : Sheet) (id : RuleId) : Evolves s.arena (s.detach id).2.arena :=
  (Arena.evolves_unlink s.arena id).trans
    (Arena.evolves_transfer s.arena.size id ⟨s.arena.unlink id, .empty⟩)

theorem evolves_commit (s : Sheet) (text : String) : Evolves s.arena (s.commit text).arena :=
  (Arena.evolves_plantAll _ _).trans (Arena.evolves_foldl _ Arena.evolves_removeSubtree _ _)

theorem Change.evolves (h : Change s e t) : Evolves s.arena t.arena := by
  cases h with
  | ignored _ => exact Evolves.refl s.arena
  | @revised _ id _ f _ _ =>
      exact Arena.evolves_modify s.arena id fun n => { n with value := f n.value }
  | @inserted l _ _ _ context st head _ _ _ _ _ =>
      have hev := evolves_plant s context head st
      cases l with
      | top => exact hev
      | under p => exact hev.trans (Arena.evolves_attach _ _ _ _)
  | appended _ _ _ _ => exact (evolves_plant s _ _ _).trans (Arena.evolves_attach _ _ _ _)
  | founded _ _ _ _ => exact (Arena.evolves_insert s.arena _).trans (Arena.evolves_attach _ _ _ _)
  | @deleted l i _ _ id _ _ _ _ _ =>
      have hev := evolves_detach (s.unlist l i) id
      rw [unlist_arena] at hev
      rwa [settleNamespaces_arena]
  | keyframeDeleted _ => exact evolves_detach s _
  | replaced _ _ => exact evolves_commit s _

theorem Change.keeps (h : Change s e t) : Keeps s t := by
  refine ⟨h.evolves, ?_⟩
  rintro ⟨ts, hs⟩
  obtain ⟨us, hus, -⟩ := h.reshape hs
  exact ⟨us, hus⟩

/-- Whether it succeeds or fails. -/
theorem keeps_perform (s : Sheet) (e : Edit) : Keeps s (s.run (perform e)).2 := by
  rcases perform_cases s e with ⟨f, h⟩ | ⟨o, t, h⟩
  · rw [h]
    exact Keeps.refl s
  · rw [h]
    exact (change_of_ok h).keeps

theorem keeps_commit (s : Sheet) (text : String) : Keeps s (s.commit text) := by
  refine ⟨evolves_commit s text, ?_⟩
  rintro ⟨ts, hs⟩
  obtain ⟨us, hus, -⟩ := hs.commit text
  exact ⟨us, hus⟩

/-! ## Ids that go -/

theorem delete_gone {l : RuleList} {i : Nat} {d : RemovedRule} (h : s.run (delete l i) = (.ok d, t))
    (hf : s.IsForest) {is : List RuleId} {context : RuleContext} (hl : s.list l = .ok (is, context))
    (hi : is[i]? = some id) {x : RuleId} (hx : s.arena.Under id x) : x ∉ t.arena.ids := by
  obtain ⟨ts, hs⟩ := hf
  obtain ⟨id', k, u, -, -, hdel, hu, rfl⟩ := delete_ok h
  obtain ⟨is', context', r, hl', hi', hr, -⟩ := deletable_ok hdel
  obtain rfl : ((s.unlist l i).detach id').2 = u := congrArg Prod.snd hu
  rw [hl, Except.ok.injEq, Prod.mk.injEq] at hl'
  rw [← hl'.1, hi, Option.some.injEq] at hi'
  subst hi'
  rw [settleNamespaces_arena]
  exact (hs.detach_listed hl hi (mem_ids_of_rule? hr)).2 x hx

theorem deleteKeyframe_gone {key : String} {d : Option RemovedRule}
    (h : s.run (deleteKeyframe id key) = (.ok d, t)) (hf : s.IsForest) {c : RuleId}
    (hc : s.findKeyframe? id key = some c) {x : RuleId} (hx : s.arena.Under c x) :
    x ∉ t.arena.ids := by
  obtain ⟨ts, hs⟩ := hf
  rcases (deleteKeyframe_ok h).2.2 with ⟨hnone, -, -⟩ | ⟨c', hc', hd⟩
  · rw [hnone] at hc
    cases hc
  · obtain rfl : (s.detach c').2 = t := congrArg Prod.snd hd
    rw [hc, Option.some.injEq] at hc'
    subst hc'
    exact (hs.detach_child (mem_ids_of_findKeyframe? hc).1).2 x hx

theorem commit_gone (text : String) (hf : s.IsForest) {x : RuleId} (hx : x ∈ s.arena.ids) :
    x ∉ (s.commit text).arena.ids := by
  obtain ⟨ts, hs⟩ := hf
  obtain ⟨us, hus, -, hdisj⟩ := hs.commit text
  rw [hus.forest.mem_ids]
  exact hdisj x (hs.forest.mem_ids.mp hx)

end StyleTree.Sheet
