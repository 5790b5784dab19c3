/-
# `Proofs.StableSort` — a stable sort grows at its end

Elements have a key, and a list is sorted by it if no key is followed by a
lower one.  Two sorted lists are the same if they have the same elements
under each key, in the same order (`eq_of_filter_eq`).  The library's merge
sort keeps elements of one key in their order, so it can be told by that:
sorting one more element at the end is putting it behind all elements of
its key (`mergeSort_concat`).
-/
import Mathlib.Data.List.Induction
import Mathlib.Data.List.InsertIdx

namespace StyleTree.StableSort

variable {α β : Type} {key : α → Nat} {a b : α} {as bs : List α}

/-- The one element may stand in front of the other. -/
def before (key : α → Nat) (a b : α) : Bool := key a ≤ key b

/-- The elements with a key. -/
def withKey (key : α → Nat) (k : Nat) (as : List α) : List α := as.filter fun a => key a = k

/-- No key is followed by a lower one. -/
abbrev SortedBy (key : α → Nat) (as : List α) : Prop := as.Pairwise fun a b => key a ≤ key b

/-! ## Sorted lists -/

theorem withKey_append (k : Nat) (as bs : List α) : withKey key k (as ++ bs) = withKey key k as ++ withKey key k bs :=
  List.filter_append ..

theorem withKey_cons (k : Nat) (a : α) (as : List α) : withKey key k (a :: as) = withKey key k [a] ++ withKey key k as :=
  withKey_append k [a] as

theorem withKey_singleton (key : α → Nat) (k : Nat) (a : α) :
    withKey key k [a] = if key a = k then [a] else [] := by
  rw [withKey, List.filter_cons, List.filter_nil]
  simp only [decide_eq_true_eq]

/-- The first of a sorted list is the first under its key. -/
theorem withKey_cons_self (a : α) (as : List α) : withKey key (key a) (a :: as) = a :: withKey key (key a) as :=
  List.filter_cons_of_pos (decide_eq_true rfl)

theorem mem_withKey {k : Nat} : a ∈ withKey key k as ↔ a ∈ as ∧ key a = k := by
  rw [withKey, List.mem_filter, decide_eq_true_eq]

/-- A sorted list is told by its elements under each key. -/
theorem eq_of_filter_eq : ∀ {as bs : List α}, SortedBy key as → SortedBy key bs →
    (∀ k, withKey key k as = withKey key k bs) → as = bs
  | [], [], _, _, _ => rfl
  | [], b :: bs, _, _, h => by
      have hb := h (key b)
      rw [withKey_cons_self] at hb
      cases hb
  | a :: as, [], _, _, h => by
      have ha := h (key a)
      rw [withKey_cons_self] at ha
      cases ha
  | a :: as, b :: bs, has, hbs, h => by
      obtain ⟨hfirst, htail⟩ := List.pairwise_cons.mp has
      obtain ⟨hfirst', htail'⟩ := List.pairwise_cons.mp hbs
      -- each of the first elements is somewhere in the other list
      have hle : key a ≤ key b := by
        have hmem : b ∈ withKey key (key b) (a :: as) := by
          rw [h, withKey_cons_self]
          exact List.mem_cons_self
        rcases List.mem_cons.mp (mem_withKey.mp hmem).1 with rfl | hmem
        · exact Nat.le_refl _
        · exact hfirst b hmem
      have hge : key b ≤ key a := by
        have hmem : a ∈ withKey key (key a) (b :: bs) := by
          rw [← h, withKey_cons_self]
          exact List.mem_cons_self
        rcases List.mem_cons.mp (mem_withKey.mp hmem).1 with rfl | hmem
        · exact Nat.le_refl _
        · exact hfirst' a hmem
      have hkey : key a = key b := Nat.le_antisymm hle hge
      have hheads := h (key a)
      rw [withKey_cons_self, hkey, withKey_cons_self, List.cons.injEq] at hheads
      obtain ⟨rfl, -⟩ := hheads
      refine congrArg (a :: ·) (eq_of_filter_eq htail htail' fun k => ?_)
      have hk := h k
      rw [withKey_cons k a as, withKey_cons k a bs] at hk
      exact List.append_cancel_left hk

/-- The place behind all elements of a key or a lower one. -/
def place (key : α → Nat) (k : Nat) (as : List α) : Nat := as.findIdx fun a => k < key a

theorem place_cons (k : Nat) (a : α) (as : List α) :
    place key k (a :: as) = if k < key a then 0 else place key k as + 1 := by
  rw [place, List.findIdx_cons, cond_eq_ite]
  simp only [decide_eq_true_eq]
  rfl

theorem place_le_length (key : α → Nat) (k : Nat) (as : List α) : place key k as ≤ as.length := List.findIdx_le_length

/-- An element behind those of its key leaves a sorted list sorted. -/
theorem sortedBy_insertIdx (h : SortedBy key as) (a : α) : SortedBy key (as.insertIdx (place key (key a) as) a) := by
  induction as with
  | nil => exact List.pairwise_singleton _ _
  | cons b as ih =>
      obtain ⟨hb, has⟩ := List.pairwise_cons.mp h
      rw [place_cons]
      split
      · next hlt =>
          refine List.pairwise_cons.mpr ⟨fun c hc => ?_, h⟩
          rcases List.mem_cons.mp hc with rfl | hc
          · exact Nat.le_of_lt hlt
          · exact Nat.le_trans (Nat.le_of_lt hlt) (hb c hc)
      · next hge =>
          rw [List.insertIdx_succ_cons]
          refine List.pairwise_cons.mpr ⟨fun c hc => ?_, ih has⟩
          rcases List.eq_or_mem_of_mem_insertIdx hc with rfl | hc
          · exact Nat.le_of_not_lt hge
          · exact hb c hc

/-- Under its key the element comes last. -/
theorem withKey_insertIdx (h : SortedBy key as) (a : α) (k : Nat) :
    withKey key k (as.insertIdx (place key (key a) as) a) = withKey key k (as ++ [a]) := by
  induction as with
  | nil => rfl
  | cons b as ih =>
      obtain ⟨hb, has⟩ := List.pairwise_cons.mp h
      rw [place_cons]
      split
      · next hlt =>
          -- nothing from here on has the key of the element
          have hnone : key a = k → withKey key k (b :: as) = [] := by
            rintro rfl
            refine List.filter_eq_nil_iff.mpr fun c hc => ?_
            rw [decide_eq_true_eq]
            rcases List.mem_cons.mp hc with rfl | hc
            · exact Nat.ne_of_gt hlt
            · exact Nat.ne_of_gt (Nat.lt_of_lt_of_le hlt (hb c hc))
          rw [List.insertIdx_zero, withKey_cons, withKey_append, withKey_singleton]
          split
          · next hk => rw [hnone hk, List.append_nil, List.nil_append]
          · rw [List.append_nil, List.nil_append]
      · rw [List.insertIdx_succ_cons, List.cons_append, withKey_cons k b, ih has, withKey_cons k b (as ++ [a])]

/-! ## Merge sort -/

theorem before_trans (key : α → Nat) (a b c : α) (h₁ : before key a b = true) (h₂ : before key b c = true) :
    before key a c = true :=
  decide_eq_true (Nat.le_trans (of_decide_eq_true h₁) (of_decide_eq_true h₂))

theorem before_total (key : α → Nat) (a b : α) : (before key a b || before key b a) = true := by
  rw [Bool.or_eq_true, before, before, decide_eq_true_eq, decide_eq_true_eq]
  exact Nat.le_total (key a) (key b)

theorem sortedBy_mergeSort (key : α → Nat) (as : List α) : SortedBy key (as.mergeSort (before key)) :=
  (List.pairwise_mergeSort (before_trans key) (before_total key) as).imp fun h => of_decide_eq_true h

/-- Merge sort keeps elements of one key in their order. -/
theorem withKey_mergeSort (key : α → Nat) (k : Nat) (as : List α) :
    withKey key k (as.mergeSort (before key)) = withKey key k as := by
  have hsub : (withKey key k as).Sublist (as.mergeSort (before key)) := by
    refine List.sublist_mergeSort (before_trans key) (before_total key) ?_ List.filter_sublist
    refine List.pairwise_iff_forall_sublist.mpr fun {a b} hab => ?_
    have ha := (mem_withKey.mp (hab.subset List.mem_cons_self)).2
    have hb := (mem_withKey.mp (hab.subset (List.mem_cons_of_mem _ List.mem_cons_self))).2
    exact decide_eq_true (Nat.le_of_eq (ha.trans hb.symm))
  have hself : withKey key k (withKey key k as) = withKey key k as := by
    rw [withKey, withKey, List.filter_filter]
    exact List.filter_congr fun a _ => Bool.and_self _
  have hfilter : (withKey key k as).Sublist (withKey key k (as.mergeSort (before key))) := by
    have hfilter := hsub.filter fun a => decide (key a = k)
    rw [← withKey, ← withKey, hself] at hfilter
    exact hfilter
  have hperm : (withKey key k (as.mergeSort (before key))).Perm (withKey key k as) :=
    (List.mergeSort_perm as _).filter _
  exact (hfilter.eq_of_length hperm.length_eq.symm).symm

/-- One more element at the end goes behind all elements of its key. -/
theorem mergeSort_concat (key : α → Nat) (as : List α) (a : α) :
    (as ++ [a]).mergeSort (before key) =
      (as.mergeSort (before key)).insertIdx (place key (key a) (as.mergeSort (before key))) a := by
  have hsorted := sortedBy_mergeSort key as
  refine eq_of_filter_eq (sortedBy_mergeSort key _) (sortedBy_insertIdx hsorted a) fun k => ?_
  rw [withKey_mergeSort, withKey_insertIdx hsorted, withKey_append, withKey_append, withKey_mergeSort]

theorem place_map (key : α → Nat) (f : β → α) (k : Nat) (bs : List β) :
    place key k (bs.map f) = place (fun b => key (f b)) k bs := by
  rw [place, place, List.findIdx_map]
  rfl

/-- What is sorted in another list comes from a list in the order of that one. -/
theorem exists_unsorted (f : β → α) : ∀ {as : List α} {bs : List β}, bs.map f = as.mergeSort (before key) →
    ∃ cs : List β, cs.map f = as ∧ bs = cs.mergeSort (before fun b => key (f b)) := by
  intro as
  induction as using List.reverseRecOn with
  | nil =>
      intro bs h
      rw [List.mergeSort_nil, List.map_eq_nil_iff] at h
      exact ⟨[], rfl, h.trans List.mergeSort_nil.symm⟩
  | append_singleton as a ih =>
      intro bs h
      rw [mergeSort_concat] at h
      generalize hsorted : as.mergeSort (before key) = sorted at h ih
      -- the element that was sorted last stands at its place, and is taken out there
      generalize hn : place key (key a) sorted = n at h
      have hle : n ≤ sorted.length := hn ▸ place_le_length key (key a) sorted
      have hlen : n < bs.length := by
        rw [← List.length_map (f := f), h, List.length_insertIdx_of_le_length hle]
        exact Nat.lt_succ_of_le hle
      have hrest : (bs.eraseIdx n).map f = sorted := by
        rw [← List.eraseIdx_map, h, List.eraseIdx_insertIdx_self]
      have hlast : f bs[n] = a := by
        have hget : (bs.map f)[n]? = some a := by
          rw [h, List.getElem?_insertIdx_self, if_pos hle]
        rw [List.getElem?_map, List.getElem?_eq_getElem hlen] at hget
        exact Option.some.inj hget
      obtain ⟨cs, hcs, hbs⟩ := ih hrest
      refine ⟨cs ++ [bs[n]], ?_, ?_⟩
      · rw [List.map_append, hcs, List.map_singleton, hlast]
      · rw [mergeSort_concat, ← hbs, ← place_map, hrest, hlast, hn, List.insertIdx_eraseIdx_getElem hlen]

end StyleTree.StableSort
