/-
# `Proofs.Tree` — trees whose nodes have ids

A tree of rules carries an id at each node.  This file has the three
changes that a forest undergoes when an arena changes: a tree is put under
a node (`graft`), the subtree at a node is cut off (`prune`), the value of
a node is replaced (`adjust`).  For each of them it says what becomes of
the ids, and that a property of all values is kept (`Every`).  Where no
node has the id in question, all three change nothing.
-/
import StyleTree.Tree
import StyleTree.Arena.Basic
import Mathlib.Data.List.Nodup

namespace StyleTree.Tree

variable {α : Type}

/-! ## Ids -/

/-- The id of the root. -/
def root (t : Tree (RuleId × α)) : RuleId := t.value.1

/-- The ids of a tree, each before those below it. -/
def ids (t : Tree (RuleId × α)) : List RuleId := t.values.map (·.1)

def idsOf (ts : List (Tree (RuleId × α))) : List RuleId := (valuesOf ts).map (·.1)

@[simp] theorem root_node (e : RuleId × α) (ts : List (Tree (RuleId × α))) :
    (node e ts).root = e.1 := rfl

@[simp] theorem ids_node (e : RuleId × α) (ts : List (Tree (RuleId × α))) :
    (node e ts).ids = e.1 :: idsOf ts := by
  simp [ids, idsOf, values]

@[simp] theorem idsOf_nil : idsOf ([] : List (Tree (RuleId × α))) = [] := rfl

@[simp] theorem idsOf_cons (t : Tree (RuleId × α)) (ts : List (Tree (RuleId × α))) :
    idsOf (t :: ts) = t.ids ++ idsOf ts := by
  simp [ids, idsOf, valuesOf]

theorem idsOf_eq_flatMap (ts : List (Tree (RuleId × α))) : idsOf ts = ts.flatMap ids := by
  induction ts with
  | nil => rfl
  | cons t ts ih => rw [idsOf_cons, List.flatMap_cons, ih]

@[simp] theorem idsOf_append (ts us : List (Tree (RuleId × α))) :
    idsOf (ts ++ us) = idsOf ts ++ idsOf us := by
  simp [idsOf_eq_flatMap]

theorem mem_idsOf {ts : List (Tree (RuleId × α))} {x : RuleId} :
    x ∈ idsOf ts ↔ ∃ t ∈ ts, x ∈ t.ids := by
  simp [idsOf_eq_flatMap]

theorem idsOf_perm {ts us : List (Tree (RuleId × α))} (h : ts.Perm us) :
    (idsOf ts).Perm (idsOf us) := by
  rw [idsOf_eq_flatMap, idsOf_eq_flatMap]
  exact h.flatMap_right _

theorem root_mem_ids : ∀ t : Tree (RuleId × α), t.root ∈ t.ids
  | node _ _ => by simp

theorem root_mem_idsOf {ts : List (Tree (RuleId × α))} {x : RuleId} (h : x ∈ ts.map root) :
    x ∈ idsOf ts := by
  obtain ⟨t, ht, rfl⟩ := List.mem_map.mp h
  exact mem_idsOf.mpr ⟨t, ht, root_mem_ids t⟩

theorem nodup_roots {ts : List (Tree (RuleId × α))} (h : (idsOf ts).Nodup) :
    (ts.map root).Nodup := by
  induction ts with
  | nil => exact List.nodup_nil
  | cons t ts ih =>
      rw [idsOf_cons] at h
      obtain ⟨_, hts, hd⟩ := List.nodup_append'.mp h
      refine List.nodup_cons.mpr ⟨fun hm => ?_, ih hts⟩
      exact hd (root_mem_ids t) (root_mem_idsOf hm)

/-- What is below a root is no root, if no id occurs twice. -/
theorem not_mem_roots {x : RuleId} {e : RuleId × α} {us : List (Tree (RuleId × α))} (hx : x ∈ idsOf us) :
    ∀ {ts : List (Tree (RuleId × α))}, (idsOf ts).Nodup → node e us ∈ ts → x ∉ ts.map root
  | [], _, hu => absurd hu List.not_mem_nil
  | t :: ts, hn, hu => by
      rw [idsOf_cons] at hn
      obtain ⟨ht, hts, hd⟩ := List.nodup_append'.mp hn
      rw [List.map_cons, List.mem_cons, not_or]
      rcases List.mem_cons.mp hu with rfl | hu
      · rw [ids_node] at ht hd
        exact ⟨fun hxe : x = e.1 => (List.nodup_cons.mp ht).1 (hxe ▸ hx),
          fun hm => hd (List.mem_cons_of_mem _ hx) (root_mem_idsOf hm)⟩
      · have hxts : x ∈ idsOf ts :=
          mem_idsOf.mpr ⟨_, hu, by rw [ids_node]; exact List.mem_cons_of_mem _ hx⟩
        exact ⟨fun hxt => hd (hxt ▸ root_mem_ids t) hxts, not_mem_roots hx hts hu⟩

/-! ## Other values -/

theorem mapAll_eq_map {β γ : Type} (f : β → γ) : ∀ ts : List (Tree β), mapAll f ts = ts.map (map f)
  | [] => rfl
  | t :: ts => by rw [mapAll, List.map_cons, mapAll_eq_map f ts]

@[simp] theorem value_map {β γ : Type} (f : β → γ) : ∀ t : Tree β, (t.map f).value = f t.value
  | node _ _ => by rw [map, value, value]

/-! ## Another value at a node -/

/-- The tree with `f` applied to the value at an id. -/
def adjust (id : RuleId) (f : α → α) : Tree (RuleId × α) → Tree (RuleId × α) :=
  map fun e => if e.1 = id then (e.1, f e.2) else e

def adjustAll (id : RuleId) (f : α → α) : List (Tree (RuleId × α)) → List (Tree (RuleId × α)) :=
  mapAll fun e => if e.1 = id then (e.1, f e.2) else e

theorem root_adjust (id : RuleId) (f : α → α) : ∀ t, (adjust id f t).root = t.root
  | node e ts => by
      simp only [adjust, map, root_node]
      split <;> rfl

theorem value_adjust (id : RuleId) (f : α → α) :
    ∀ t, (adjust id f t).value.2 = if t.root = id then f t.value.2 else t.value.2
  | node e ts => by
      have hroot : (node e ts).root = e.1 := rfl
      rw [hroot, adjust, map, value, value]
      by_cases he : e.1 = id
      · rw [if_pos he, if_pos he]
      · rw [if_neg he, if_neg he]

theorem adjustAll_eq_map (id : RuleId) (f : α → α) (ts : List (Tree (RuleId × α))) :
    adjustAll id f ts = ts.map (adjust id f) :=
  mapAll_eq_map _ ts

theorem roots_adjustAll (id : RuleId) (f : α → α) (ts : List (Tree (RuleId × α))) :
    (adjustAll id f ts).map root = ts.map root := by
  rw [adjustAll_eq_map, List.map_map]
  exact List.map_congr_left fun t _ => root_adjust id f t

mutual

theorem ids_adjust (id : RuleId) (f : α → α) : ∀ t, (adjust id f t).ids = t.ids
  | node e ts => by
      have hts := idsOf_adjustAll id f ts
      simp only [adjust, map, ids_node]
      simp only [adjustAll] at hts
      rw [hts]
      split <;> rfl

theorem idsOf_adjustAll (id : RuleId) (f : α → α) : ∀ ts, idsOf (adjustAll id f ts) = idsOf ts
  | [] => rfl
  | t :: ts => by
      have ht := ids_adjust id f t
      have hts := idsOf_adjustAll id f ts
      simp only [adjustAll, mapAll, idsOf_cons]
      simp only [adjust] at ht
      simp only [adjustAll] at hts
      rw [ht, hts]

end

mutual

theorem adjust_of_not_mem (id : RuleId) (f : α → α) : ∀ t, id ∉ t.ids → adjust id f t = t
  | node e ts, h => by
      simp only [ids_node, List.mem_cons, not_or] at h
      have hts := adjustAll_of_not_mem id f ts h.2
      simp only [adjustAll] at hts
      simp only [adjust, map, hts, if_neg (Ne.symm h.1)]

theorem adjustAll_of_not_mem (id : RuleId) (f : α → α) :
    ∀ ts, id ∉ idsOf ts → adjustAll id f ts = ts
  | [], _ => rfl
  | t :: ts, h => by
      simp only [idsOf_cons, List.mem_append, not_or] at h
      have ht := adjust_of_not_mem id f t h.1
      have hts := adjustAll_of_not_mem id f ts h.2
      simp only [adjust] at ht
      simp only [adjustAll] at hts
      simp only [adjustAll, mapAll, ht, hts]

end

/-! ## A tree put under a node -/

mutual

/-- The tree with `u` put among the children of a node, at a place or behind the last. -/
def graft (id : RuleId) (n : Nat) (u : Tree (RuleId × α)) : Tree (RuleId × α) → Tree (RuleId × α)
  | node e ts => node e (if e.1 = id then ts.insertIdx (min n ts.length) u else graftAll id n u ts)

def graftAll (id : RuleId) (n : Nat) (u : Tree (RuleId × α)) :
    List (Tree (RuleId × α)) → List (Tree (RuleId × α))
  | [] => []
  | t :: ts => graft id n u t :: graftAll id n u ts

end

variable {id : RuleId} {n : Nat} {u : Tree (RuleId × α)}

@[simp] theorem root_graft : ∀ t : Tree (RuleId × α), (graft id n u t).root = t.root
  | node _ _ => by simp [graft]

@[simp] theorem value_graft : ∀ t : Tree (RuleId × α), (graft id n u t).value = t.value
  | node _ _ => by simp [graft, value]

theorem graftAll_eq_map : ∀ ts : List (Tree (RuleId × α)), graftAll id n u ts = ts.map (graft id n u)
  | [] => rfl
  | t :: ts => by rw [graftAll, List.map_cons, graftAll_eq_map ts]

theorem roots_graftAll (ts : List (Tree (RuleId × α))) :
    (graftAll id n u ts).map root = ts.map root := by
  simp [graftAll_eq_map, Function.comp_def]

mutual

theorem graft_of_not_mem : ∀ t : Tree (RuleId × α), id ∉ t.ids → graft id n u t = t
  | node e ts, h => by
      simp only [ids_node, List.mem_cons, not_or] at h
      rw [graft, if_neg (Ne.symm h.1), graftAll_of_not_mem ts h.2]

theorem graftAll_of_not_mem : ∀ ts : List (Tree (RuleId × α)), id ∉ idsOf ts → graftAll id n u ts = ts
  | [], _ => rfl
  | t :: ts, h => by
      simp only [idsOf_cons, List.mem_append, not_or] at h
      rw [graftAll, graft_of_not_mem t h.1, graftAll_of_not_mem ts h.2]

end

mutual

/-- A node that occurs once receives the tree once. -/
theorem ids_graft : ∀ t : Tree (RuleId × α), t.ids.Nodup → id ∈ t.ids →
    (graft id n u t).ids.Perm (u.ids ++ t.ids)
  | node e ts, hn, hm => by
      rw [ids_node] at hn hm
      rw [graft, ids_node, ids_node]
      by_cases he : e.1 = id
      · rw [if_pos he]
        have hp := idsOf_perm (List.perm_insertIdx u ts (Nat.min_le_right n ts.length))
        rw [idsOf_cons] at hp
        exact (hp.cons e.1).trans List.perm_middle.symm
      · rw [if_neg he]
        have hts : id ∈ idsOf ts := (List.mem_cons.mp hm).resolve_left (Ne.symm he)
        have hp := idsOf_graftAll ts (List.nodup_cons.mp hn).2 hts
        exact (hp.cons e.1).trans List.perm_middle.symm

theorem idsOf_graftAll : ∀ ts : List (Tree (RuleId × α)), (idsOf ts).Nodup → id ∈ idsOf ts →
    (idsOf (graftAll id n u ts)).Perm (u.ids ++ idsOf ts)
  | [], _, hm => absurd hm List.not_mem_nil
  | t :: ts, hn, hm => by
      rw [idsOf_cons] at hn hm
      obtain ⟨ht, hts, hd⟩ := List.nodup_append'.mp hn
      rw [graftAll, idsOf_cons, idsOf_cons]
      rcases List.mem_append.mp hm with hm | hm
      · rw [graftAll_of_not_mem ts (hd hm), ← List.append_assoc]
        exact (ids_graft t ht hm).append_right _
      · rw [graft_of_not_mem t (fun h => hd h hm)]
        have hp := (idsOf_graftAll ts hts hm).append_left t.ids
        refine hp.trans ?_
        rw [← List.append_assoc, ← List.append_assoc]
        exact List.perm_append_comm.append_right _

end

/-! ## A subtree cut off -/

mutual

/-- The tree without the subtrees at an id, the root apart. -/
def prune (id : RuleId) : Tree (RuleId × α) → Tree (RuleId × α)
  | node e ts => node e (pruneAll id ts)

def pruneAll (id : RuleId) : List (Tree (RuleId × α)) → List (Tree (RuleId × α))
  | [] => []
  | t :: ts => if t.root = id then pruneAll id ts else prune id t :: pruneAll id ts

end

@[simp] theorem root_prune : ∀ t : Tree (RuleId × α), (prune id t).root = t.root
  | node _ _ => by simp [prune]

@[simp] theorem value_prune : ∀ t : Tree (RuleId × α), (prune id t).value = t.value
  | node _ _ => by simp [prune, value]

theorem pruneAll_eq_map (ts : List (Tree (RuleId × α))) :
    pruneAll id ts = (ts.filter fun t => t.root ≠ id).map (prune id) := by
  induction ts with
  | nil => rfl
  | cons t ts ih =>
      rw [pruneAll]
      by_cases h : t.root = id
      · rw [if_pos h, ih, List.filter_cons_of_neg (by simpa using h)]
      · rw [if_neg h, ih, List.filter_cons_of_pos (by simpa using h), List.map_cons]

theorem roots_pruneAll (ts : List (Tree (RuleId × α))) :
    (pruneAll id ts).map root = (ts.map root).filter (· ≠ id) := by
  rw [pruneAll_eq_map, List.map_map, List.filter_map]
  exact List.map_congr_left fun t _ => root_prune t

mutual

theorem prune_of_not_mem : ∀ t : Tree (RuleId × α), id ∉ t.ids → prune id t = t
  | node e ts, h => by
      simp only [ids_node, List.mem_cons, not_or] at h
      rw [prune, pruneAll_of_not_mem ts h.2]

theorem pruneAll_of_not_mem : ∀ ts : List (Tree (RuleId × α)), id ∉ idsOf ts → pruneAll id ts = ts
  | [], _ => rfl
  | t :: ts, h => by
      simp only [idsOf_cons, List.mem_append, not_or] at h
      have hr : t.root ≠ id := fun e => h.1 (e ▸ root_mem_ids t)
      rw [pruneAll, if_neg hr, prune_of_not_mem t h.1, pruneAll_of_not_mem ts h.2]

end

/-! ## What was put in is cut off again -/

theorem pruneAll_cons_root (u : Tree (RuleId × α)) (ts : List (Tree (RuleId × α))) :
    pruneAll u.root (u :: ts) = pruneAll u.root ts := by
  rw [pruneAll, if_pos rfl]

theorem pruneAll_insertIdx : ∀ (ts : List (Tree (RuleId × α))) (i : Nat), u.root ∉ idsOf ts →
    i ≤ ts.length → pruneAll u.root (ts.insertIdx i u) = ts
  | ts, 0, h, _ => by
      rw [List.insertIdx_zero, pruneAll_cons_root, pruneAll_of_not_mem ts h]
  | [], i + 1, _, hi => absurd hi (Nat.not_succ_le_zero i)
  | t :: ts, i + 1, h, hi => by
      rw [idsOf_cons, List.mem_append, not_or] at h
      have hroot : t.root ≠ u.root := fun e => h.1 (e ▸ root_mem_ids t)
      rw [List.insertIdx_succ_cons, pruneAll, if_neg hroot, prune_of_not_mem t h.1,
        pruneAll_insertIdx ts i h.2 (Nat.le_of_succ_le_succ hi)]

mutual

theorem prune_graft : ∀ t : Tree (RuleId × α), u.root ∉ t.ids → prune u.root (graft id n u t) = t
  | node e ts, h => by
      rw [ids_node, List.mem_cons, not_or] at h
      rw [graft, prune]
      split
      · rw [pruneAll_insertIdx ts _ h.2 (Nat.min_le_right n ts.length)]
      · rw [pruneAll_graftAll ts h.2]

theorem pruneAll_graftAll : ∀ ts : List (Tree (RuleId × α)), u.root ∉ idsOf ts →
    pruneAll u.root (graftAll id n u ts) = ts
  | [], _ => rfl
  | t :: ts, h => by
      rw [idsOf_cons, List.mem_append, not_or] at h
      have hroot : (graft id n u t).root ≠ u.root := by
        rw [root_graft]
        exact fun e => h.1 (e ▸ root_mem_ids t)
      rw [graftAll, pruneAll, if_neg hroot, prune_graft t h.1, pruneAll_graftAll ts h.2]

end

/-! ## A property of all values -/

section

variable {β : Type} {P : β → Prop}

/-- Each value of the tree has the property. -/
def Every (P : β → Prop) (t : Tree β) : Prop := ∀ b ∈ t.values, P b

def EveryOf (P : β → Prop) (ts : List (Tree β)) : Prop := ∀ b ∈ valuesOf ts, P b

@[simp] theorem every_node {b : β} {ts : List (Tree β)} :
    Every P (node b ts) ↔ P b ∧ EveryOf P ts := by
  simp [Every, EveryOf, values]

@[simp] theorem everyOf_nil : EveryOf P ([] : List (Tree β)) := fun b hb => by cases hb

@[simp] theorem everyOf_cons {t : Tree β} {ts : List (Tree β)} :
    EveryOf P (t :: ts) ↔ Every P t ∧ EveryOf P ts := by
  simp [Every, EveryOf, valuesOf, or_imp, forall_and]

theorem everyOf_iff {ts : List (Tree β)} : EveryOf P ts ↔ ∀ t ∈ ts, Every P t := by
  induction ts with
  | nil => simp
  | cons t ts ih => rw [everyOf_cons, ih, List.forall_mem_cons]

theorem Every.value : ∀ {t : Tree β}, Every P t → P t.value
  | node _ _, h => (every_node.mp h).1

theorem EveryOf.insertIdx {ts : List (Tree β)} {u : Tree β} (hts : EveryOf P ts) (hu : Every P u)
    {i : Nat} (hi : i ≤ ts.length) : EveryOf P (ts.insertIdx i u) := by
  rw [everyOf_iff] at hts ⊢
  intro t ht
  rcases (List.mem_insertIdx hi).mp ht with rfl | ht
  · exact hu
  · exact hts t ht

mutual

theorem Every.map {γ : Type} {Q : γ → Prop} {f : β → γ} (hf : ∀ b, P b → Q (f b)) :
    ∀ {t : Tree β}, Every P t → Every Q (map f t)
  | node b ts, h => by
      rw [every_node] at h
      rw [Tree.map, every_node]
      exact ⟨hf b h.1, EveryOf.mapAll hf h.2⟩

theorem EveryOf.mapAll {γ : Type} {Q : γ → Prop} {f : β → γ} (hf : ∀ b, P b → Q (f b)) :
    ∀ {ts : List (Tree β)}, EveryOf P ts → EveryOf Q (mapAll f ts)
  | [], _ => everyOf_nil
  | t :: ts, h => by
      rw [everyOf_cons] at h
      rw [Tree.mapAll, everyOf_cons]
      exact ⟨Every.map hf h.1, EveryOf.mapAll hf h.2⟩

end

end

variable {P : RuleId × α → Prop}

mutual

theorem Every.graft (hu : Every P u) : ∀ {t : Tree (RuleId × α)}, Every P t → Every P (graft id n u t)
  | node e ts, h => by
      rw [every_node] at h
      rw [Tree.graft, every_node]
      refine ⟨h.1, ?_⟩
      split
      · exact h.2.insertIdx hu (Nat.min_le_right n ts.length)
      · exact EveryOf.graftAll hu h.2

theorem EveryOf.graftAll (hu : Every P u) : ∀ {ts : List (Tree (RuleId × α))}, EveryOf P ts →
    EveryOf P (graftAll id n u ts)
  | [], _ => everyOf_nil
  | t :: ts, h => by
      rw [everyOf_cons] at h
      rw [Tree.graftAll, everyOf_cons]
      exact ⟨Every.graft hu h.1, EveryOf.graftAll hu h.2⟩

end

mutual

theorem Every.prune : ∀ {t : Tree (RuleId × α)}, Every P t → Every P (prune id t)
  | node e ts, h => by
      rw [every_node] at h
      rw [Tree.prune, every_node]
      exact ⟨h.1, EveryOf.pruneAll h.2⟩

theorem EveryOf.pruneAll : ∀ {ts : List (Tree (RuleId × α))}, EveryOf P ts →
    EveryOf P (pruneAll id ts)
  | [], _ => everyOf_nil
  | t :: ts, h => by
      rw [everyOf_cons] at h
      rw [Tree.pruneAll]
      split
      · exact EveryOf.pruneAll h.2
      · rw [everyOf_cons]
        exact ⟨Every.prune h.1, EveryOf.pruneAll h.2⟩

end

theorem EveryOf.adjustAll {Q : RuleId × α → Prop} {f : α → α} {ts : List (Tree (RuleId × α))}
    (h : EveryOf P ts) (hother : ∀ e, e.1 ≠ id → P e → Q e) (hid : ∀ a, P (id, a) → Q (id, f a)) :
    EveryOf Q (adjustAll id f ts) := by
  refine EveryOf.mapAll (fun e he => ?_) h
  obtain ⟨x, a⟩ := e
  split
  · next hx =>
      obtain rfl : x = id := hx
      exact hid a he
  · next hx => exact hother _ hx he

end StyleTree.Tree
