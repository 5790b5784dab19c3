/-
# `Proofs.Arena.Forest` — the links of an arena are those of trees

An arena stores the shape of its trees twice, in the parents and in the
lists of children.  `Holds a p t` says that `a` has the tree `t` under the
parent `p`: at every node of `t` the value, the parent and the children
are those of the tree.  `Forest a ts` says that `a` holds the trees `ts`,
without parents, and nothing else.

Each operation on an arena is one on trees:

    insert v        a new tree with one node
    modify          `Tree.adjust`, where only a value changes
    attach          `Tree.graft` of one of the trees into the others
    unlink          the subtree at a node becomes a tree of its own,
                    and the others are pruned
    erase           all ids of one of the trees: that tree is gone

What is read off a forest at the end is the agreement of the two records:
a node is among the children of another exactly if that is its parent, and
a node without a parent is the root of one of the trees.
-/
import StyleTree.Proofs.Arena.Ids
import StyleTree.Proofs.Tree
import Mathlib.Data.List.InsertIdx

namespace StyleTree.Arena

open StyleTree.Tree (root idsOf adjust adjustAll graft graftAll prune pruneAll)

variable {α : Type} {a b : Arena α}

mutual

/-- The arena has a tree under a parent. -/
def Holds (a : Arena α) (p : Option RuleId) : Tree (RuleId × α) → Prop
  | .node e ts => a.get? e.1 = some ⟨e.2, p, ts.map root⟩ ∧ HoldsAll a (some e.1) ts

def HoldsAll (a : Arena α) (p : Option RuleId) : List (Tree (RuleId × α)) → Prop
  | [] => True
  | t :: ts => Holds a p t ∧ HoldsAll a p ts

end

/-- The nodes of the arena are those of some trees, linked as the trees say. -/
structure Forest (a : Arena α) (ts : List (Tree (RuleId × α))) : Prop where
  versioned : a.Versioned
  holds : HoldsAll a none ts
  perm : (idsOf ts).Perm a.ids

theorem holdsAll_iff {p : Option RuleId} {ts : List (Tree (RuleId × α))} :
    HoldsAll a p ts ↔ ∀ t ∈ ts, Holds a p t := by
  induction ts with
  | nil => simp [HoldsAll]
  | cons t ts ih => rw [HoldsAll, ih, List.forall_mem_cons]

theorem Holds.get? {p : Option RuleId} {e : RuleId × α} {ts : List (Tree (RuleId × α))}
    (h : Holds a p (.node e ts)) : a.get? e.1 = some ⟨e.2, p, ts.map root⟩ := by
  rw [Holds] at h
  exact h.1

theorem Holds.children {p : Option RuleId} {e : RuleId × α} {ts : List (Tree (RuleId × α))}
    (h : Holds a p (.node e ts)) : a.children e.1 = ts.map root := by
  rw [Arena.children, h.get?]
  rfl

theorem Holds.below {p : Option RuleId} {e : RuleId × α} {ts : List (Tree (RuleId × α))}
    (h : Holds a p (.node e ts)) : HoldsAll a (some e.1) ts := by
  rw [Holds] at h
  exact h.2

theorem Holds.mem_ids {p : Option RuleId} : ∀ {t : Tree (RuleId × α)}, Holds a p t → t.root ∈ a.ids
  | .node _ _, h => mem_ids_of_get? h.get?

mutual

/-- The values of a tree are those that the arena has under its ids. -/
theorem Holds.every {p : Option RuleId} : ∀ {t : Tree (RuleId × α)}, Holds a p t →
    Tree.Every (fun e => a.value? e.1 = some e.2) t
  | .node e ts, h => by
      rw [Tree.every_node]
      exact ⟨by rw [value?, h.get?]; rfl, HoldsAll.every h.below⟩

theorem HoldsAll.every {p : Option RuleId} : ∀ {ts : List (Tree (RuleId × α))}, HoldsAll a p ts →
    Tree.EveryOf (fun e => a.value? e.1 = some e.2) ts
  | [], _ => Tree.everyOf_nil
  | t :: ts, h => by
      rw [HoldsAll] at h
      rw [Tree.everyOf_cons]
      exact ⟨Holds.every h.1, HoldsAll.every h.2⟩

end

/-! ## A tree depends on its own nodes only -/

mutual

theorem holds_congr {p : Option RuleId} : ∀ {t : Tree (RuleId × α)},
    (∀ id ∈ t.ids, b.get? id = a.get? id) → Holds a p t → Holds b p t
  | .node e ts, hab, h => by
      rw [Tree.ids_node] at hab
      rw [Holds]
      exact ⟨(hab e.1 List.mem_cons_self).trans h.get?,
        holdsAll_congr (fun id hid => hab id (List.mem_cons_of_mem _ hid)) h.below⟩

theorem holdsAll_congr {p : Option RuleId} : ∀ {ts : List (Tree (RuleId × α))},
    (∀ id ∈ idsOf ts, b.get? id = a.get? id) → HoldsAll a p ts → HoldsAll b p ts
  | [], _, _ => trivial
  | t :: ts, hab, h => by
      rw [Tree.idsOf_cons] at hab
      rw [HoldsAll] at h ⊢
      exact ⟨holds_congr (fun id hid => hab id (List.mem_append_left _ hid)) h.1,
        holdsAll_congr (fun id hid => hab id (List.mem_append_right _ hid)) h.2⟩

end

namespace Forest

variable {ts us : List (Tree (RuleId × α))}

theorem nodup (h : Forest a ts) : (idsOf ts).Nodup :=
  h.perm.nodup_iff.mpr h.versioned.nodup_ids

theorem mem_ids (h : Forest a ts) {x : RuleId} : x ∈ a.ids ↔ x ∈ idsOf ts :=
  h.perm.mem_iff.symm

theorem of_perm (h : Forest a ts) (hp : ts.Perm us) : Forest a us where
  versioned := h.versioned
  holds := holdsAll_iff.mpr fun t ht => holdsAll_iff.mp h.holds t (hp.mem_iff.mpr ht)
  perm := (Tree.idsOf_perm hp).symm.trans h.perm

/-- Ids of different trees are different. -/
theorem disjoint {t : Tree (RuleId × α)} (h : Forest a (t :: us)) :
    ∀ id ∈ t.ids, id ∉ idsOf us := by
  have hn := h.nodup
  rw [Tree.idsOf_cons] at hn
  intro id hid hu
  exact (List.nodup_append'.mp hn).2.2 hid hu

end Forest

theorem forest_empty : Forest (empty : Arena α) [] :=
  ⟨versioned_empty, trivial, List.Perm.refl _⟩

/-! ## Adding a node, changing a value -/

theorem forest_insert {ts : List (Tree (RuleId × α))} (h : Forest a ts) (v : α) :
    Forest (a.insert v).1 (.node (a.fresh, v) [] :: ts) where
  versioned := versioned_insert h.versioned v
  holds := by
    rw [HoldsAll, Holds]
    refine ⟨⟨?_, trivial⟩, holdsAll_congr (fun id hid => ?_) h.holds⟩
    · rw [get?_insert, if_pos rfl]
      rfl
    · rw [get?_insert, if_neg]
      rintro rfl
      exact fresh_not_mem h.versioned (h.mem_ids.mpr hid)
  perm := by
    rw [Tree.idsOf_cons, Tree.ids_node, ids_insert]
    exact h.perm.cons _

mutual

theorem holds_adjust (id : RuleId) (f : α → α) {p : Option RuleId} :
    ∀ {t : Tree (RuleId × α)}, Holds a p t →
      Holds (a.modify id fun n => { n with value := f n.value }) p (adjust id f t)
  | .node e ts, h => by
      have hts := holdsAll_adjust id f h.below
      have hr := Tree.roots_adjustAll id f ts
      simp only [adjustAll] at hts hr
      simp only [adjust, Tree.map]
      by_cases he : e.1 = id
      · rw [if_pos he, Holds, get?_modify, if_pos he, h.get?, hr]
        exact ⟨rfl, hts⟩
      · rw [if_neg he, Holds, get?_modify, if_neg he, h.get?, hr]
        exact ⟨rfl, hts⟩

theorem holdsAll_adjust (id : RuleId) (f : α → α) {p : Option RuleId} :
    ∀ {ts : List (Tree (RuleId × α))}, HoldsAll a p ts →
      HoldsAll (a.modify id fun n => { n with value := f n.value }) p (adjustAll id f ts)
  | [], _ => trivial
  | t :: ts, h => by
      rw [HoldsAll] at h
      have ht := holds_adjust id f h.1
      have hts := holdsAll_adjust id f h.2
      simp only [adjust] at ht
      simp only [adjustAll] at hts
      simp only [adjustAll, Tree.mapAll, HoldsAll]
      exact ⟨ht, hts⟩

end

theorem forest_adjust {ts : List (Tree (RuleId × α))} (h : Forest a ts) (id : RuleId) (f : α → α) :
    Forest (a.modify id fun n => { n with value := f n.value }) (adjustAll id f ts) where
  versioned := (evolves_modify a id _ h.versioned).1
  holds := holdsAll_adjust id f h.holds
  perm := by
    rw [Tree.idsOf_adjustAll, ids_modify]
    exact h.perm

/-! ## Linking a tree to a node -/

section Attach
variable {p c : RuleId} {n : Nat}

theorem get?_attach_parent (hpc : p ≠ c) :
    (a.attach p n c).get? p =
      (a.get? p).map fun m => { m with children := m.children.insertIdx (min n m.children.length) c } := by
  rw [attach, get?_modify, if_pos rfl, get?_modify, if_neg hpc]

theorem get?_attach_child (hpc : p ≠ c) :
    (a.attach p n c).get? c = (a.get? c).map fun m => { m with parent := some p } := by
  rw [attach, get?_modify, if_neg (Ne.symm hpc), get?_modify, if_pos rfl]

theorem get?_attach_other {id : RuleId} (hp : id ≠ p) (hc : id ≠ c) :
    (a.attach p n c).get? id = a.get? id := by
  rw [attach, get?_modify, if_neg hp, get?_modify, if_neg hc]

theorem ids_attach : (a.attach p n c).ids = a.ids := by
  rw [attach, ids_modify, ids_modify]

variable {u : Tree (RuleId × α)}

/-- The tree that is linked differs in the parent of its root. -/
theorem holds_attach_child : ∀ {u : Tree (RuleId × α)}, Holds a none u → u.ids.Nodup → p ∉ u.ids →
    Holds (a.attach p n u.root) (some p) u
  | .node e ts, h, hn, hp => by
      rw [Tree.ids_node] at hn hp
      have he : p ≠ e.1 := fun x => hp (x ▸ List.mem_cons_self)
      rw [Holds, Tree.root_node, get?_attach_child he, h.get?]
      refine ⟨rfl, holdsAll_congr (fun id hid => get?_attach_other ?_ ?_) h.below⟩
      · rintro rfl
        exact hp (List.mem_cons_of_mem _ hid)
      · rintro rfl
        exact (List.nodup_cons.mp hn).1 hid

mutual

/-- The tree that receives it is grafted. -/
theorem holds_graft (hu : Holds (a.attach p n u.root) (some p) u) {q : Option RuleId} :
    ∀ {t : Tree (RuleId × α)}, Holds a q t → t.ids.Nodup → u.root ∉ t.ids →
      Holds (a.attach p n u.root) q (graft p n u t)
  | .node e ts, h, hn, hc => by
      rw [Tree.ids_node] at hn hc
      simp only [List.mem_cons, not_or] at hc
      obtain ⟨hets, hts⟩ := List.nodup_cons.mp hn
      by_cases he : e.1 = p
      · rw [graft, if_pos he, Holds, he, get?_attach_parent (fun x => hc.1 (x.symm.trans he.symm)), ← he,
          h.get?]
        refine ⟨?_, holdsAll_iff.mpr fun t ht => ?_⟩
        · simp only [Option.map_some, List.length_map]
          rw [List.map_insertIdx]
        · rw [he]
          rcases List.eq_or_mem_of_mem_insertIdx ht with rfl | ht
          · exact hu
          · refine holds_congr (fun id hid => ?_) (holdsAll_iff.mp (he ▸ h.below) t ht)
            have hid := Tree.mem_idsOf.mpr ⟨t, ht, hid⟩
            refine get?_attach_other ?_ ?_
            · rintro rfl
              exact hets (he ▸ hid)
            · rintro rfl
              exact hc.2 hid
      · rw [graft, if_neg he, Holds, get?_attach_other he (Ne.symm hc.1), h.get?, Tree.roots_graftAll]
        exact ⟨rfl, holdsAll_graft hu h.below hts hc.2⟩

theorem holdsAll_graft (hu : Holds (a.attach p n u.root) (some p) u) {q : Option RuleId} :
    ∀ {ts : List (Tree (RuleId × α))}, HoldsAll a q ts → (idsOf ts).Nodup → u.root ∉ idsOf ts →
      HoldsAll (a.attach p n u.root) q (graftAll p n u ts)
  | [], _, _, _ => trivial
  | t :: ts, h, hn, hc => by
      rw [Tree.idsOf_cons] at hn hc
      rw [List.mem_append, not_or] at hc
      rw [HoldsAll] at h
      rw [graftAll, HoldsAll]
      exact ⟨holds_graft hu h.1 (List.nodup_append'.mp hn).1 hc.1,
        holdsAll_graft hu h.2 (List.nodup_append'.mp hn).2.1 hc.2⟩

end

/-- One of the trees is linked to a node of the others. -/
theorem forest_attach {us : List (Tree (RuleId × α))} (h : Forest a (u :: us)) (hp : p ∈ idsOf us)
    (n : Nat) : Forest (a.attach p n u.root) (graftAll p n u us) where
  versioned := (evolves_attach a p n u.root h.versioned).1
  holds := by
    have hn := h.nodup
    have hd := h.disjoint
    rw [Tree.idsOf_cons] at hn
    have hh := h.holds
    rw [HoldsAll] at hh
    have hu := holds_attach_child (n := n) hh.1 (List.nodup_append'.mp hn).1 (fun x => hd p x hp)
    exact holdsAll_graft hu hh.2 (List.nodup_append'.mp hn).2.1 (hd _ (Tree.root_mem_ids u))
  perm := by
    have hn := h.nodup
    rw [Tree.idsOf_cons] at hn
    rw [ids_attach]
    exact (Tree.idsOf_graftAll us (List.nodup_append'.mp hn).2.1 hp).trans
      (by rw [← Tree.idsOf_cons]; exact h.perm)

end Attach

/-! ## The two records of a link agree -/

section Links
variable {k c : RuleId} {n : Node α}

theorem parent_of_mem_roots {q : Option RuleId} : ∀ {ts : List (Tree (RuleId × α))},
    HoldsAll a q ts → c ∈ ts.map root → a.parent? c = q
  | [], _, hc => absurd hc List.not_mem_nil
  | .node e us :: ts, h, hc => by
      rw [HoldsAll] at h
      rcases List.mem_cons.mp hc with rfl | hc
      · rw [Tree.root_node, parent?, h.1.get?]
        rfl
      · exact parent_of_mem_roots h.2 hc

mutual

theorem parent_of_mem_children {q : Option RuleId} : ∀ {t : Tree (RuleId × α)}, Holds a q t →
    k ∈ t.ids → a.get? k = some n → c ∈ n.children → a.parent? c = some k
  | .node e ts, h, hk, hn, hc => by
      rw [Tree.ids_node] at hk
      rcases List.mem_cons.mp hk with rfl | hk
      · rw [h.get?] at hn
        cases hn
        exact parent_of_mem_roots h.below hc
      · exact parent_of_mem_children_all h.below hk hn hc

theorem parent_of_mem_children_all {q : Option RuleId} : ∀ {ts : List (Tree (RuleId × α))},
    HoldsAll a q ts → k ∈ idsOf ts → a.get? k = some n → c ∈ n.children → a.parent? c = some k
  | [], _, hk, _, _ => absurd hk List.not_mem_nil
  | t :: ts, h, hk, hn, hc => by
      rw [HoldsAll] at h
      rw [Tree.idsOf_cons] at hk
      rcases List.mem_append.mp hk with hk | hk
      · exact parent_of_mem_children h.1 hk hn hc
      · exact parent_of_mem_children_all h.2 hk hn hc

end

mutual

/-- The parent of a node is in the same tree, and has the node among its children. -/
theorem exists_parent {q : Option RuleId} : ∀ {t : Tree (RuleId × α)}, Holds a q t → c ∈ t.ids →
    c = t.root ∨ ∃ k n, a.parent? c = some k ∧ a.get? k = some n ∧ c ∈ n.children ∧ k ∈ t.ids
  | .node e ts, h, hc => by
      rw [Tree.ids_node] at hc ⊢
      rcases List.mem_cons.mp hc with rfl | hc
      · exact Or.inl rfl
      · refine Or.inr ?_
        rcases exists_parent_all h.below hc with hr | ⟨k, n, hpar, hk, hcn, hkts⟩
        · exact ⟨e.1, _, parent_of_mem_roots h.below hr, h.get?, hr, List.mem_cons_self⟩
        · exact ⟨k, n, hpar, hk, hcn, List.mem_cons_of_mem _ hkts⟩

theorem exists_parent_all {q : Option RuleId} : ∀ {ts : List (Tree (RuleId × α))},
    HoldsAll a q ts → c ∈ idsOf ts →
      c ∈ ts.map root ∨
        ∃ k n, a.parent? c = some k ∧ a.get? k = some n ∧ c ∈ n.children ∧ k ∈ idsOf ts
  | [], _, hc => absurd hc List.not_mem_nil
  | t :: ts, h, hc => by
      rw [HoldsAll] at h
      rw [Tree.idsOf_cons] at hc ⊢
      rcases List.mem_append.mp hc with hc | hc
      · rcases exists_parent h.1 hc with rfl | ⟨k, n, hpar, hk, hcn, hkt⟩
        · exact Or.inl List.mem_cons_self
        · exact Or.inr ⟨k, n, hpar, hk, hcn, List.mem_append_left _ hkt⟩
      · rcases exists_parent_all h.2 hc with hr | ⟨k, n, hpar, hk, hcn, hkts⟩
        · exact Or.inl (List.mem_cons_of_mem _ hr)
        · exact Or.inr ⟨k, n, hpar, hk, hcn, List.mem_append_right _ hkts⟩

end

end Links

namespace Forest

variable {ts us : List (Tree (RuleId × α))} {k c x : RuleId}

theorem mem_children_iff (h : Forest a ts) : c ∈ a.children k ↔ a.parent? c = some k := by
  constructor
  · intro hc
    cases hk : a.get? k with
    | none =>
        simp only [children, hk, Option.map_none, Option.getD_none] at hc
        exact absurd hc List.not_mem_nil
    | some n =>
        simp only [children, hk, Option.map_some, Option.getD_some] at hc
        exact parent_of_mem_children_all h.holds (h.mem_ids.mp (mem_ids_of_get? hk)) hk hc
  · intro hc
    have hm : c ∈ a.ids := by
      rw [← get?_isSome]
      cases hg : a.get? c with
      | none => rw [parent?, hg] at hc; exact absurd hc (by simp)
      | some _ => rfl
    rcases exists_parent_all h.holds (h.mem_ids.mp hm) with hr | ⟨k', n, hpar, hk, hcn, _⟩
    · rw [parent_of_mem_roots h.holds hr] at hc
      exact absurd hc (by simp)
    · rw [hpar, Option.some.injEq] at hc
      subst hc
      simpa [children, hk] using hcn

theorem parent?_eq_none_iff (h : Forest a ts) (hm : c ∈ a.ids) :
    a.parent? c = none ↔ c ∈ ts.map root := by
  constructor
  · intro hc
    rcases exists_parent_all h.holds (h.mem_ids.mp hm) with hr | ⟨k, n, hpar, _⟩
    · exact hr
    · rw [hpar] at hc
      exact absurd hc (by simp)
  · intro hr
    exact parent_of_mem_roots h.holds hr

theorem mem_ids_of_child (h : Forest a ts) (hc : c ∈ a.children k) : c ∈ a.ids := by
  rw [h.mem_children_iff] at hc
  rw [← get?_isSome]
  cases hg : a.get? c with
  | none => rw [parent?, hg] at hc; exact absurd hc (by simp)
  | some _ => rfl

end Forest

end StyleTree.Arena
