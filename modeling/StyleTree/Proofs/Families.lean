/-
# `Proofs.Families` — a node and the values of its children

Some properties of a tree are about siblings: how the children of a node
stand to one another, or to the node.  `Families P` says that `P` holds of
each node's value and the list of its children's values.

When a tree is grafted, one family gets a member and all others stay; when
a subtree is cut off, one family loses a member; and when a value changes,
two families see it, that of the node and that of its parent.  In an arena
that holds the tree the families are what its links say (`Holds.families`).
-/
import StyleTree.Proofs.Rule.Planting

namespace StyleTree

namespace Tree

variable {α β : Type} {P Q : β → List β → Prop}

/-! ## Families -/

mutual

/-- Each node has the property together with the values of its children. -/
def Families (P : β → List β → Prop) : Tree β → Prop
  | node b ts => P b (ts.map value) ∧ FamiliesOf P ts

def FamiliesOf (P : β → List β → Prop) : List (Tree β) → Prop
  | [] => True
  | t :: ts => Families P t ∧ FamiliesOf P ts

end

@[simp] theorem families_node {b : β} {ts : List (Tree β)} :
    Families P (node b ts) ↔ P b (ts.map value) ∧ FamiliesOf P ts := by
  rw [Families]

@[simp] theorem familiesOf_nil : FamiliesOf P [] := trivial

@[simp] theorem familiesOf_cons {t : Tree β} {ts : List (Tree β)} :
    FamiliesOf P (t :: ts) ↔ Families P t ∧ FamiliesOf P ts := by
  rw [FamiliesOf]

theorem familiesOf_iff {ts : List (Tree β)} : FamiliesOf P ts ↔ ∀ t ∈ ts, Families P t := by
  induction ts with
  | nil => exact iff_of_true trivial (List.forall_mem_nil _)
  | cons t ts ih => rw [familiesOf_cons, ih, List.forall_mem_cons]

theorem FamiliesOf.append {ts us : List (Tree β)} (hts : FamiliesOf P ts) (hus : FamiliesOf P us) :
    FamiliesOf P (ts ++ us) := by
  rw [familiesOf_iff] at hts hus ⊢
  intro t ht
  exact (List.mem_append.mp ht).elim (hts t) (hus t)

theorem FamiliesOf.insertIdx {ts : List (Tree β)} {u : Tree β} (hts : FamiliesOf P ts) (hu : Families P u)
    (i : Nat) : FamiliesOf P (ts.insertIdx i u) := by
  rw [familiesOf_iff] at hts ⊢
  intro t ht
  rcases List.eq_or_mem_of_mem_insertIdx ht with rfl | ht
  · exact hu
  · exact hts t ht

mutual

theorem Families.imp (h : ∀ b vs, P b vs → Q b vs) : ∀ {t : Tree β}, Families P t → Families Q t
  | node b ts, ht => by
      rw [families_node] at ht ⊢
      exact ⟨h b _ ht.1, FamiliesOf.imp h ht.2⟩

theorem FamiliesOf.imp (h : ∀ b vs, P b vs → Q b vs) : ∀ {ts : List (Tree β)}, FamiliesOf P ts →
    FamiliesOf Q ts
  | [], _ => trivial
  | t :: ts, hts => by
      rw [familiesOf_cons] at hts ⊢
      exact ⟨Families.imp h hts.1, FamiliesOf.imp h hts.2⟩

end

mutual

theorem Families.and : ∀ {t : Tree β}, Families P t → Families Q t → Families (fun b vs => P b vs ∧ Q b vs) t
  | node b ts, hP, hQ => by
      rw [families_node] at hP hQ ⊢
      exact ⟨⟨hP.1, hQ.1⟩, FamiliesOf.and hP.2 hQ.2⟩

theorem FamiliesOf.and : ∀ {ts : List (Tree β)}, FamiliesOf P ts → FamiliesOf Q ts →
    FamiliesOf (fun b vs => P b vs ∧ Q b vs) ts
  | [], _, _ => trivial
  | t :: ts, hP, hQ => by
      rw [familiesOf_cons] at hP hQ ⊢
      exact ⟨Families.and hP.1 hQ.1, FamiliesOf.and hP.2 hQ.2⟩

end

mutual

theorem Families.map {γ : Type} {R : γ → List γ → Prop} {f : β → γ}
    (hf : ∀ b vs, P b vs → R (f b) (vs.map f)) : ∀ {t : Tree β}, Families P t → Families R (t.map f)
  | node b ts, h => by
      rw [families_node] at h
      have hvalues : (mapAll f ts).map value = (ts.map value).map f := by
        rw [mapAll_eq_map, List.map_map, List.map_map]
        exact List.map_congr_left fun t _ => value_map f t
      rw [Tree.map, families_node, hvalues]
      exact ⟨hf b _ h.1, FamiliesOf.mapAll hf h.2⟩

theorem FamiliesOf.mapAll {γ : Type} {R : γ → List γ → Prop} {f : β → γ}
    (hf : ∀ b vs, P b vs → R (f b) (vs.map f)) : ∀ {ts : List (Tree β)}, FamiliesOf P ts →
      FamiliesOf R (mapAll f ts)
  | [], _ => trivial
  | t :: ts, h => by
      rw [familiesOf_cons] at h
      rw [Tree.mapAll, familiesOf_cons]
      exact ⟨Families.map hf h.1, FamiliesOf.mapAll hf h.2⟩

end

mutual

/-- A family consists of values of the tree. -/
theorem Every.families {p : β → Prop} : ∀ {t : Tree β}, Every p t → Families (fun b vs => p b ∧ ∀ v ∈ vs, p v) t
  | node b ts, h => by
      rw [every_node] at h
      rw [families_node]
      refine ⟨⟨h.1, fun v hv => ?_⟩, EveryOf.families h.2⟩
      obtain ⟨t, ht, rfl⟩ := List.mem_map.mp hv
      exact (everyOf_iff.mp h.2 t ht).value

theorem EveryOf.families {p : β → Prop} : ∀ {ts : List (Tree β)}, EveryOf p ts →
    FamiliesOf (fun b vs => p b ∧ ∀ v ∈ vs, p v) ts
  | [], _ => trivial
  | t :: ts, h => by
      rw [everyOf_cons] at h
      rw [familiesOf_cons]
      exact ⟨Every.families h.1, EveryOf.families h.2⟩

end

/-! ## Trees with ids -/

section

variable {R S : RuleId × α → List (RuleId × α) → Prop} {id : RuleId} {n : Nat} {u : Tree (RuleId × α)}

mutual

/-- One family gets a member. -/
theorem Families.graft (hu : Families S u) (hold : ∀ e vs, R e vs → S e vs)
    (hnew : ∀ e vs, e.1 = id → R e vs → S e (vs.insertIdx (min n vs.length) u.value)) :
    ∀ {t : Tree (RuleId × α)}, Families R t → Families S (graft id n u t)
  | node e ts, h => by
      rw [families_node] at h
      rw [Tree.graft, families_node]
      by_cases he : e.1 = id
      · have hfamily := hnew e _ he h.1
        rw [if_pos he, List.map_insertIdx]
        rw [List.length_map] at hfamily
        exact ⟨hfamily, (FamiliesOf.imp hold h.2).insertIdx hu _⟩
      · have hvalues : (Tree.graftAll id n u ts).map value = ts.map value := by
          rw [graftAll_eq_map, List.map_map]
          exact List.map_congr_left fun t _ => value_graft t
        rw [if_neg he, hvalues]
        exact ⟨hold e _ h.1, FamiliesOf.graftAll hu hold hnew h.2⟩

theorem FamiliesOf.graftAll (hu : Families S u) (hold : ∀ e vs, R e vs → S e vs)
    (hnew : ∀ e vs, e.1 = id → R e vs → S e (vs.insertIdx (min n vs.length) u.value)) :
    ∀ {ts : List (Tree (RuleId × α))}, FamiliesOf R ts → FamiliesOf S (graftAll id n u ts)
  | [], _ => trivial
  | t :: ts, h => by
      rw [familiesOf_cons] at h
      rw [Tree.graftAll, familiesOf_cons]
      exact ⟨Families.graft hu hold hnew h.1, FamiliesOf.graftAll hu hold hnew h.2⟩

end

/-- What the children of a node have in common is kept when some of them are left out. -/
def ForSublists (R : RuleId × α → List (RuleId × α) → Prop) : Prop :=
  ∀ {e vs us}, us.Sublist vs → R e vs → R e us

theorem values_pruneAll_sublist (id : RuleId) (ts : List (Tree (RuleId × α))) :
    ((pruneAll id ts).map value).Sublist (ts.map value) := by
  have hvalues : (pruneAll id ts).map value = (ts.filter fun t => t.root ≠ id).map value := by
    rw [pruneAll_eq_map, List.map_map]
    exact List.map_congr_left fun t _ => value_prune t
  rw [hvalues]
  exact List.filter_sublist.map value

mutual

/-- One family loses a member. -/
theorem Families.prune (hR : ForSublists R) : ∀ {t : Tree (RuleId × α)}, Families R t → Families R (prune id t)
  | node e ts, h => by
      rw [families_node] at h
      rw [Tree.prune, families_node]
      exact ⟨hR (values_pruneAll_sublist id ts) h.1, FamiliesOf.pruneAll hR h.2⟩

theorem FamiliesOf.pruneAll (hR : ForSublists R) : ∀ {ts : List (Tree (RuleId × α))}, FamiliesOf R ts →
    FamiliesOf R (pruneAll id ts)
  | [], _ => trivial
  | t :: ts, h => by
      rw [familiesOf_cons] at h
      rw [Tree.pruneAll]
      split
      · exact FamiliesOf.pruneAll hR h.2
      · exact familiesOf_cons.mpr ⟨Families.prune hR h.1, FamiliesOf.pruneAll hR h.2⟩

end

mutual

/-- Ids apart, the families are the same. -/
theorem Families.of_bare {P : α → List α → Prop} : ∀ {t : Tree (RuleId × α)}, Families P t.bare →
    Families (fun e vs => P e.2 (vs.map (·.2))) t
  | node e ts, h => by
      have hvalues : (bareAll ts).map value = (ts.map value).map (·.2) := by
        rw [bareAll_eq_map, List.map_map, List.map_map]
        exact List.map_congr_left fun t _ => value_bare t
      rw [bare_node, families_node, hvalues] at h
      exact families_node.mpr ⟨h.1, FamiliesOf.of_bareAll h.2⟩

theorem FamiliesOf.of_bareAll {P : α → List α → Prop} : ∀ {ts : List (Tree (RuleId × α))},
    FamiliesOf P (bareAll ts) → FamiliesOf (fun e vs => P e.2 (vs.map (·.2))) ts
  | [], _ => trivial
  | t :: ts, h => by
      rw [bareAll_cons, familiesOf_cons] at h
      exact familiesOf_cons.mpr ⟨Families.of_bare h.1, FamiliesOf.of_bareAll h.2⟩

end

end

end Tree

/-! ## Families in an arena -/

namespace Arena

open StyleTree.Tree (Families FamiliesOf root idsOf)

variable {a : Arena Rule} {q : Option RuleId}

theorem Holds.childRules {e : RuleId × Rule} {ts : List (Tree (RuleId × Rule))} (h : Holds a q (.node e ts)) :
    a.childRules e.1 = (ts.map Tree.value).map (·.2) := by
  have hvalues : ∀ us : List (Tree (RuleId × Rule)), (∀ t ∈ us, a.value? t.root = some t.value.2) →
      (us.map root).filterMap a.value? = (us.map Tree.value).map (·.2) := by
    intro us hus
    induction us with
    | nil => rfl
    | cons t us ih =>
        obtain ⟨ht, hus⟩ := List.forall_mem_cons.mp hus
        rw [List.map_cons, List.filterMap_cons_some ht, ih hus]
        rfl
  rw [Arena.childRules, h.children]
  exact hvalues ts fun t ht => (holdsAll_iff.mp h.below t ht).value?

mutual

/-- The families of a tree are what the links of its nodes say. -/
theorem Holds.families {q : Option RuleId} : ∀ {t : Tree (RuleId × Rule)}, Holds a q t →
    Families (fun e vs => a.value? e.1 = some e.2 ∧ a.childRules e.1 = vs.map (·.2)) t
  | .node e ts, h => by
      rw [Tree.families_node]
      exact ⟨⟨h.value?, h.childRules⟩, HoldsAll.families h.below⟩

theorem HoldsAll.families {q : Option RuleId} : ∀ {ts : List (Tree (RuleId × Rule))}, HoldsAll a q ts →
    FamiliesOf (fun e vs => a.value? e.1 = some e.2 ∧ a.childRules e.1 = vs.map (·.2)) ts
  | [], _ => trivial
  | t :: ts, h => by
      rw [HoldsAll] at h
      rw [Tree.familiesOf_cons]
      exact ⟨Holds.families h.1, HoldsAll.families h.2⟩

end

mutual

/-- What holds of the families of a tree holds of each of its nodes and the children that it links. -/
theorem Holds.family {q : Option RuleId} {P : Rule → List Rule → Prop} {x : RuleId} {r : Rule} :
    ∀ {t : Tree (RuleId × Rule)}, Holds a q t → Families (fun e vs => P e.2 (vs.map (·.2))) t → x ∈ t.ids →
      a.value? x = some r → P r (a.childRules x)
  | .node e ts, h, hP, hx, hr => by
      rw [Tree.families_node] at hP
      rw [Tree.ids_node] at hx
      rcases List.mem_cons.mp hx with rfl | hx
      · obtain rfl : r = e.2 := Option.some.inj (hr.symm.trans h.value?)
        rw [h.childRules]
        exact hP.1
      · exact HoldsAll.family h.below hP.2 hx hr

theorem HoldsAll.family {q : Option RuleId} {P : Rule → List Rule → Prop} {x : RuleId} {r : Rule} :
    ∀ {ts : List (Tree (RuleId × Rule))}, HoldsAll a q ts → FamiliesOf (fun e vs => P e.2 (vs.map (·.2))) ts →
      x ∈ idsOf ts → a.value? x = some r → P r (a.childRules x)
  | [], _, _, hx, _ => absurd hx List.not_mem_nil
  | t :: ts, h, hP, hx, hr => by
      rw [HoldsAll] at h
      rw [Tree.familiesOf_cons] at hP
      rw [Tree.idsOf_cons] at hx
      rcases List.mem_append.mp hx with hx | hx
      · exact Holds.family h.1 hP.1 hx hr
      · exact HoldsAll.family h.2 hP.2 hx hr

end

end Arena

end StyleTree
