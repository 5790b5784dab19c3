/-
# `Proofs.Feature.Values` — maps of feature values keep their contract

A map of feature values is lawful if its names are sorted and each list of
values is one that its kind of feature accepts (`IsLawful`).  Setting values
and declaring them check the contract; merging does not, but the maps that
are merged are of one kind, so what one of them accepted the other accepts.

Merging takes over the entries of a map one by one, without the rejected
declarations that it was made of.  Still the result is the one that all
declarations give that were written in either map, one after the other
(`merge_declareAll`): both are sorted, and under each name both have the
last list that was accepted.
-/
import Mathlib.Data.List.Induction
import StyleTree.Proofs.Rule.Declarations
import StyleTree.Proofs.SortedMap

namespace StyleTree

open SortedMap (Sorted)

namespace FeatureValues

open SortedMap (orders_string)

variable {m m' old : FeatureValues} {name : String} {values : List Nat} {d : WrittenDeclaration}

/-! ## Lawful maps -/

/-- The names are sorted, and each list of values keeps the contract of the kind of feature. -/
structure IsLawful (m : FeatureValues) : Prop where
  sorted : Sorted (· < ·) m.entries
  accepted : ∀ e ∈ m.entries, m.feature.accepts e.2 = true

theorem isLawful_empty (f : FeatureType) : (empty f).IsLawful := ⟨List.Pairwise.nil, List.forall_mem_nil _⟩

theorem IsLawful.put (h : m.IsLawful) (hv : m.feature.accepts values = true) (name : String) :
    (m.put name values).IsLawful := by
  refine ⟨SortedMap.sorted_insert orders_string h.sorted name values, fun e he => ?_⟩
  rcases SortedMap.mem_insert he with rfl | he
  · exact hv
  · exact h.accepted e he

theorem IsLawful.erase (h : m.IsLawful) (name : String) : (m.erase name).IsLawful :=
  ⟨SortedMap.sorted_erase h.sorted name, fun e he => h.accepted e (List.mem_filter.mp he).1⟩

theorem set_eq_ok : m.set name values = .ok m' ↔ m.feature.accepts values = true ∧ m.put name values = m' := by
  unfold FeatureValues.set
  by_cases h : m.feature.accepts values = true
  · rw [if_pos h, Except.ok.injEq, and_iff_right h]
  · rw [if_neg h]
    exact iff_of_false (fun h => by cases h) fun h' => h h'.1

theorem IsLawful.set (h : m.IsLawful) (hset : m.set name values = .ok m') : m'.IsLawful := by
  obtain ⟨hv, rfl⟩ := set_eq_ok.mp hset
  exact h.put hv name

theorem declare?_eq_some :
    m.declare? d = some m' ↔ ∃ vs, m.feature.admits d = true ∧ ofValues? d.value = some vs ∧
      m.feature.accepts vs = true ∧ m.put d.name vs = m' := by
  rw [declare?_eq, Option.ite_none_right_eq_some, Option.map_eq_some_iff]
  constructor
  · rintro ⟨hadmits, vs, hvs, rfl⟩
    have hany := (Bool.and_eq_true_iff.mp hadmits).2
    rw [hvs, Option.any_some] at hany
    exact ⟨vs, hadmits, hvs, hany, rfl⟩
  · rintro ⟨vs, hadmits, hvs, -, hput⟩
    exact ⟨hadmits, vs, hvs, hput⟩

theorem IsLawful.declareAll (h : m.IsLawful) (ds : List WrittenDeclaration) : (m.declareAll ds).IsLawful := by
  induction ds generalizing m with
  | nil => exact h
  | cons d ds ih =>
      refine ih (m := (m.declare? d).getD m) ?_
      cases hd : m.declare? d with
      | none => exact h
      | some m' =>
          obtain ⟨vs, -, -, hvs, rfl⟩ := declare?_eq_some.mp hd
          exact h.put hvs d.name

@[simp] theorem feature_declareAll (m : FeatureValues) (ds : List WrittenDeclaration) :
    (m.declareAll ds).feature = m.feature := by
  induction ds generalizing m with
  | nil => rfl
  | cons d ds ih =>
      refine (ih ((m.declare? d).getD m)).trans ?_
      cases hd : m.declare? d with
      | none => rfl
      | some m' =>
          obtain ⟨vs, -, -, -, rfl⟩ := declare?_eq_some.mp hd
          rfl

/-- What holds of the names in a map and of those that are declared holds of the names then. -/
theorem names_declareAll {N : String → Prop} {ds : List WrittenDeclaration} (hm : ∀ e ∈ m.entries, N e.1)
    (hds : ∀ d ∈ ds, N d.name) : ∀ e ∈ (m.declareAll ds).entries, N e.1 := by
  induction ds generalizing m with
  | nil => exact hm
  | cons d ds ih =>
      obtain ⟨hd, hds⟩ := List.forall_mem_cons.mp hds
      refine ih (m := (m.declare? d).getD m) ?_ hds
      cases hdeclare : m.declare? d with
      | none => exact hm
      | some m' =>
          obtain ⟨vs, -, -, -, rfl⟩ := declare?_eq_some.mp hdeclare
          intro e he
          rcases SortedMap.mem_insert he with rfl | he
          · exact hd
          · exact hm e he

/-! ## Merging -/

/-- Merging is a run of insertions into the entries. -/
theorem merge_eq (old m : FeatureValues) :
    old.merge m =
      { old with entries := m.entries.foldl (fun es e => SortedMap.insert (· < ·) e.1 e.2 es) old.entries } := by
  unfold merge
  generalize m.entries = es
  induction es generalizing old with
  | nil => rfl
  | cons e es ih =>
      rw [List.foldl_cons, ih]
      rfl

@[simp] theorem feature_merge (old m : FeatureValues) : (old.merge m).feature = old.feature := by rw [merge_eq]

/-- What one map of a kind accepted the other accepts. -/
theorem IsLawful.merge (hold : old.IsLawful) (hm : m.IsLawful) (hf : old.feature = m.feature) :
    (old.merge m).IsLawful := by
  have hall : ∀ e ∈ m.entries, old.feature.accepts e.2 = true := fun e he => by
    rw [hf]
    exact hm.accepted e he
  unfold FeatureValues.merge
  generalize m.entries = es at hall
  clear hf
  induction es generalizing old with
  | nil => exact hold
  | cons e es ih =>
      obtain ⟨he, hes⟩ := List.forall_mem_cons.mp hall
      exact ih (hold.put he e.1) hes

/-- What holds of the names in both maps holds of those in the merged one. -/
theorem names_merge {N : String → Prop} (hold : ∀ e ∈ old.entries, N e.1) (hm : ∀ e ∈ m.entries, N e.1) :
    ∀ e ∈ (old.merge m).entries, N e.1 := by
  unfold FeatureValues.merge
  generalize m.entries = es at hm
  induction es generalizing old with
  | nil => exact hold
  | cons e es ih =>
      obtain ⟨he, hes⟩ := List.forall_mem_cons.mp hm
      refine ih (fun x hx => ?_) hes
      rcases SortedMap.mem_insert hx with rfl | hx
      · exact he
      · exact hold x hx

/-- Under each name the merged map has the values of the other, or those it had. -/
theorem IsLawful.get?_merge (hm : m.IsLawful) (old : FeatureValues) (name : String) :
    (old.merge m).get? name = (m.get? name).or (old.get? name) := by
  rw [merge_eq, get?, SortedMap.find?_foldl_insert, hm.sorted.find?_reverse orders_string]
  rfl

/-- Lawful maps of one kind are the same if every name has the same values in them. -/
theorem IsLawful.ext (h : m.IsLawful) (h' : m'.IsLawful) (hf : m.feature = m'.feature)
    (hget : ∀ name, m.get? name = m'.get? name) : m = m' := by
  have hentries : m.entries = m'.entries := h.sorted.ext orders_string h'.sorted hget
  obtain ⟨f, es⟩ := m
  obtain ⟨f', es'⟩ := m'
  cases hf
  cases hentries
  rfl

theorem get?_put (m : FeatureValues) (name : String) (values : List Nat) (key : String) :
    (m.put name values).get? key = if key = name then some values else m.get? key := by
  by_cases hkey : key = name
  · rw [if_pos hkey, hkey]
    exact SortedMap.find?_insert _ name values m.entries
  · rw [if_neg hkey]
    exact SortedMap.find?_insert_of_ne _ hkey values m.entries

/-- The entry that was put last into a map is the one that counts when the map is merged. -/
theorem IsLawful.merge_put (hold : old.IsLawful) (hm : m.IsLawful) (hf : old.feature = m.feature)
    (hv : m.feature.accepts values = true) (name : String) :
    old.merge (m.put name values) = (old.merge m).put name values := by
  have hput := hm.put hv name
  have hmerge := hold.merge hm hf
  refine IsLawful.ext (hold.merge hput hf) (hmerge.put ?_ name) ?_ fun key => ?_
  · rw [feature_merge, hf]
    exact hv
  · rw [feature_merge]
    exact (feature_merge old m).symm
  · rw [hput.get?_merge, get?_put, get?_put, hm.get?_merge]
    by_cases hkey : key = name
    · rw [if_pos hkey, if_pos hkey, Option.some_or]
    · rw [if_neg hkey, if_neg hkey]

/-- A map takes up another as if the declarations of that one had been written in it. -/
theorem IsLawful.merge_declareAll (hold : old.IsLawful) (ds : List WrittenDeclaration) :
    old.merge ((empty old.feature).declareAll ds) = old.declareAll ds := by
  induction ds using List.reverseRecOn with
  | nil => rfl
  | append_singleton ds d ih =>
      have hm := (isLawful_empty old.feature).declareAll ds
      have hf : old.feature = ((empty old.feature).declareAll ds).feature := (feature_declareAll (empty old.feature) ds).symm
      have hstep : ∀ m : FeatureValues, m.declareAll [d] = (m.declare? d).getD m := fun m => rfl
      rw [declareAll_append, declareAll_append, hstep, hstep, declare?_eq, declare?_eq, feature_declareAll,
        feature_declareAll, ← ih]
      have hkind : (empty old.feature).feature = old.feature := rfl
      rw [hkind]
      cases hadmits : old.feature.admits d with
      | false => rfl
      | true =>
          obtain ⟨vs, hvs, haccepts⟩ := (Option.any_eq_true _ _).mp (Bool.and_eq_true_iff.mp hadmits).2
          rw [if_pos rfl, if_pos rfl, hvs]
          exact hold.merge_put hm hf (by rw [← hf]; exact haccepts) d.name

end FeatureValues

end StyleTree
