/-
# `Proofs.SortedMap` — maps stay sorted

Where the keys are put in one order, insertion and removal keep the entries
sorted, and a sorted list of entries is what comes of inserting them one
after the other into an empty map (`foldl_insert`).  Of entries that are
inserted under one key the last one stays (`find?_foldl_insert`).

In sorted entries a key can be searched by halves (`search`).  Wherever the
search ends, the key stands there or would have to be inserted there
(`stands_search`), so looking up, inserting and removing come down to what
is done at that index (`Stands.find?_eq` and its siblings).  Sorted entries
with the same values are the same list (`Sorted.ext`).
-/
import StyleTree.SortedMap

namespace StyleTree.SortedMap

variable {α β : Type} {before : α → α → Bool} {es : List (α × β)}

/-- The keys are put in one order. -/
structure Orders (before : α → α → Bool) : Prop where
  irrefl : ∀ a, before a a = false
  trans : ∀ {a b c}, before a b = true → before b c = true → before a c = true
  total : ∀ {a b}, a ≠ b → before a b = false → before b a = true

theorem Orders.asymm (h : Orders before) {a b : α} (hab : before a b = true) : before b a = false := by
  cases hba : before b a with
  | false => rfl
  | true => exact (h.trans hab hba).symm.trans (h.irrefl a)

theorem Orders.ne_of_before (ho : Orders before) {a b : α} (h : before a b = true) : a ≠ b := by
  rintro rfl
  exact Bool.false_ne_true ((ho.irrefl a).symm.trans h)

/-- Strings are put in one order by their code points. -/
theorem orders_string : Orders fun a b : String => decide (a < b) where
  irrefl a := decide_eq_false (String.lt_irrefl a)
  trans h₁ h₂ := decide_eq_true (String.lt_trans (of_decide_eq_true h₁) (of_decide_eq_true h₂))
  total hne h := by
    rw [decide_eq_false_iff_not] at h
    refine decide_eq_true (String.not_le.mp fun hle => ?_)
    exact hne (String.le_antisymm hle (String.not_lt.mp h))

/-! ## Searching by halves -/

/-- Looks for a key among the entries from `lo` up to `hi`, where `side` says how an entry's key compares
with it: its index, or the index at which it would have to be inserted. -/
def search (side : α → Ordering) (es : List (α × β)) (lo hi : Nat) (h : hi ≤ es.length) : Nat ⊕ Nat :=
  if hlt : lo < hi then
    let mid := lo + (hi - lo) / 2
    have hmid : mid < es.length := by omega
    match side es[mid].1 with
    | .eq => .inl mid
    | .lt => search side es (mid + 1) hi h
    | .gt => search side es lo mid (by omega)
  else .inr lo
termination_by hi - lo

/-- The comparison tells on which side of a key the others stand. -/
structure Tells (before : α → α → Bool) (key : α) (side : α → Ordering) : Prop where
  lt : ∀ {a}, side a = .lt → before a key = true
  gt : ∀ {a}, side a = .gt → before key a = true
  eq : ∀ {a}, side a = .eq → a = key

/-- Where a key stands in a list of entries. -/
inductive Stands (before : α → α → Bool) (key : α) (es : List (α × β)) : Nat ⊕ Nat → Prop
  | present {ds fs : List (α × β)} {value : β} : es = ds ++ (key, value) :: fs →
      (∀ d ∈ ds, before d.1 key = true) → Stands before key es (.inl ds.length)
  | absent {ds fs : List (α × β)} : es = ds ++ fs → (∀ d ∈ ds, before d.1 key = true) →
      (∀ f ∈ fs, before key f.1 = true) → Stands before key es (.inr ds.length)

theorem Sorted.before_getElem (h : Sorted before es) {i j : Nat} (hij : i < j) (hi : i < es.length)
    (hj : j < es.length) : before es[i].1 es[j].1 = true :=
  List.pairwise_iff_getElem.mp h i j hi hj hij

/-- What is in front of `lo` comes before the key, what is from `hi` on behind it; each step keeps that. -/
theorem stands_search (ho : Orders before) (hs : Sorted before es) {key : α} {side : α → Ordering}
    (ht : Tells before key side) (lo hi : Nat) (h : hi ≤ es.length) (hle : lo ≤ hi)
    (hlo : ∀ i, ∀ hi : i < es.length, i < lo → before es[i].1 key = true)
    (hhi : ∀ i, ∀ hj : i < es.length, hi ≤ i → before key es[i].1 = true) :
    Stands before key es (search side es lo hi h) := by
  fun_induction search side es lo hi h with
  | case1 lo hi h hlt mid hmid heq =>
      have hkey : es[mid].1 = key := ht.eq heq
      have hsplit : es = es.take mid ++ (key, es[mid].2) :: es.drop (mid + 1) := by
        rw [← hkey, List.getElem_cons_drop, List.take_append_drop]
      have hfront : ∀ d ∈ es.take mid, before d.1 key = true := by
        intro d hd
        obtain ⟨i, hi, rfl⟩ := List.mem_take_iff_getElem.mp hd
        rw [← hkey]
        exact hs.before_getElem (Nat.lt_min.mp hi).1 _ hmid
      have hstands := Stands.present hsplit hfront
      rwa [List.length_take_of_le (Nat.le_of_lt hmid)] at hstands
  | case2 lo hi h hlt mid hmid hless ih =>
      refine ih (by omega) (fun i hi him => ?_) hhi
      rcases Nat.lt_or_eq_of_le (Nat.le_of_lt_succ him) with him | rfl
      · exact ho.trans (hs.before_getElem him hi hmid) (ht.lt hless)
      · exact ht.lt hless
  | case3 lo hi h hlt mid hmid hmore ih =>
      refine ih (by omega) hlo (fun i hi him => ?_)
      rcases Nat.lt_or_eq_of_le him with him | him
      · exact ho.trans (ht.gt hmore) (hs.before_getElem him hmid hi)
      · subst him
        exact ht.gt hmore
  | case4 lo hi h hlt =>
      obtain rfl : lo = hi := Nat.le_antisymm hle (Nat.le_of_not_lt hlt)
      have hfront : ∀ d ∈ es.take lo, before d.1 key = true := by
        intro d hd
        obtain ⟨i, hi, rfl⟩ := List.mem_take_iff_getElem.mp hd
        exact hlo i _ (Nat.lt_min.mp hi).1
      have hbehind : ∀ d ∈ es.drop lo, before key d.1 = true := by
        intro d hd
        obtain ⟨i, hi, rfl⟩ := List.mem_drop_iff_getElem.mp hd
        exact hhi _ _ (Nat.le_add_right lo i)
      have hstands := Stands.absent (List.take_append_drop lo es).symm hfront hbehind
      rwa [List.length_take_of_le h] at hstands

theorem insertIdx_length (e : α × β) (fs : List (α × β)) : ∀ ds : List (α × β),
    (ds ++ fs).insertIdx ds.length e = ds ++ e :: fs
  | [] => List.insertIdx_zero
  | d :: ds => by
      rw [List.cons_append, List.length_cons, List.insertIdx_succ_cons, insertIdx_length e fs ds, List.cons_append]

variable [DecidableEq α]

/-! ## Staying sorted -/

theorem sorted_erase (h : Sorted before es) (key : α) : Sorted before (erase key es) :=
  List.Pairwise.filter _ h

/-- An insertion adds no other key. -/
theorem mem_insert {key : α} {value : β} {e : α × β} (h : e ∈ insert before key value es) :
    e = (key, value) ∨ e ∈ es := by
  induction es with
  | nil => exact Or.inl (List.mem_singleton.mp h)
  | cons f es ih =>
      rw [insert] at h
      split at h
      · rcases List.mem_cons.mp h with h | h
        · exact Or.inl h
        · exact Or.inr (List.mem_cons_of_mem _ h)
      · split at h
        · exact List.mem_cons.mp h
        · rcases List.mem_cons.mp h with rfl | h
          · exact Or.inr List.mem_cons_self
          · exact (ih h).imp id (List.mem_cons_of_mem _)

theorem sorted_insert (ho : Orders before) (h : Sorted before es) (key : α) (value : β) :
    Sorted before (insert before key value es) := by
  induction es with
  | nil => exact List.pairwise_singleton _ _
  | cons e es ih =>
      obtain ⟨hfirst, hes⟩ := List.pairwise_cons.mp h
      rw [insert]
      split
      · next he =>
          subst he
          exact List.pairwise_cons.mpr ⟨hfirst, hes⟩
      · next he =>
          split
          · next hb =>
              refine List.pairwise_cons.mpr ⟨fun f hf => ?_, h⟩
              rcases List.mem_cons.mp hf with rfl | hf
              · exact hb
              · exact ho.trans hb (hfirst f hf)
          · next hb =>
              refine List.pairwise_cons.mpr ⟨fun f hf => ?_, ih hes⟩
              rcases mem_insert hf with rfl | hf
              · exact ho.total (fun hk => he hk.symm) (Bool.eq_false_iff.mpr hb)
              · exact hfirst f hf

/-- An entry behind all others is inserted at the end. -/
theorem insert_last (ho : Orders before) {key : α} (value : β) (h : ∀ e ∈ es, before e.1 key = true) :
    insert before key value es = es ++ [(key, value)] := by
  induction es with
  | nil => rfl
  | cons e es ih =>
      obtain ⟨he, h⟩ := List.forall_mem_cons.mp h
      have hne : e.1 ≠ key := by
        rintro rfl
        exact Bool.false_ne_true ((ho.irrefl _).symm.trans he)
      rw [insert, if_neg hne, if_neg (Bool.eq_false_iff.mp (ho.asymm he)), ih h, List.cons_append]

/-- Sorted entries are inserted one behind the other. -/
theorem foldl_insert (ho : Orders before) : ∀ (es ds : List (α × β)), Sorted before (ds ++ es) →
    es.foldl (fun m e => insert before e.1 e.2 m) ds = ds ++ es
  | [], ds, _ => (List.append_nil ds).symm
  | e :: es, ds, h => by
      have hlast : ∀ d ∈ ds, before d.1 e.1 = true := fun d hd =>
        (List.pairwise_append.mp h).2.2 d hd e List.mem_cons_self
      have hds : ds ++ e :: es = ds ++ [e] ++ es := by rw [List.append_assoc, List.singleton_append]
      rw [List.foldl_cons, insert_last ho e.2 hlast, hds]
      exact foldl_insert ho es (ds ++ [e]) (hds ▸ h)

/-- Behind some insertions a key has the last value that was inserted under it, or the one it had. -/
theorem find?_foldl_insert (before : α → α → Bool) (key : α) : ∀ (es ds : List (α × β)),
    find? key (es.foldl (fun m e => insert before e.1 e.2 m) ds) = (find? key es.reverse).or (find? key ds)
  | [], ds => (Option.none_or).symm
  | e :: es, ds => by
      have hlast : find? key (es.reverse ++ [e]) = (find? key es.reverse).or (find? key [e]) := by
        rw [find?, List.find?_append]
        cases hes : es.reverse.find? (·.1 = key) <;> simp [find?, hes]
      have hinsert : find? key (insert before e.1 e.2 ds) = (find? key [e]).or (find? key ds) := by
        rw [find?_cons]
        by_cases he : e.1 = key
        · rw [if_pos he, ← he, find?_insert, Option.some_or]
        · rw [if_neg he, find?_insert_of_ne before (Ne.symm he)]
          rfl
      rw [List.foldl_cons, find?_foldl_insert before key es, List.reverse_cons, hlast, hinsert, Option.or_assoc]

/-! ## What is done at the place of a key -/

section Place

variable {ds fs : List (α × β)} {key : α} {p : Nat ⊕ Nat}

/-- Entries in front of a key have no part in what is done under it. -/
theorem find?_append_of_before (ho : Orders before) (h : ∀ d ∈ ds, before d.1 key = true) :
    find? key (ds ++ fs) = find? key fs := by
  induction ds with
  | nil => rfl
  | cons d ds ih =>
      obtain ⟨hd, h⟩ := List.forall_mem_cons.mp h
      rw [List.cons_append, find?_cons, if_neg (ho.ne_of_before hd), ih h]

theorem insert_append_of_before (ho : Orders before) (value : β) (h : ∀ d ∈ ds, before d.1 key = true) :
    insert before key value (ds ++ fs) = ds ++ insert before key value fs := by
  induction ds with
  | nil => rfl
  | cons d ds ih =>
      obtain ⟨hd, h⟩ := List.forall_mem_cons.mp h
      rw [List.cons_append, insert, if_neg (ho.ne_of_before hd), if_neg (Bool.eq_false_iff.mp (ho.asymm hd)), ih h,
        List.cons_append]

theorem erase_of_ne (h : ∀ e ∈ es, e.1 ≠ key) : erase key es = es :=
  List.filter_eq_self.mpr fun e he => decide_eq_true (h e he)

theorem erase_append_cons (value : β) (hds : ∀ d ∈ ds, d.1 ≠ key) (hfs : ∀ f ∈ fs, f.1 ≠ key) :
    erase key (ds ++ (key, value) :: fs) = ds ++ fs := by
  have hds := erase_of_ne hds
  have hfs := erase_of_ne hfs
  unfold erase at hds hfs ⊢
  rw [List.filter_append, List.filter_cons_of_neg (by simp), hds, hfs]

/-- Entries that all come behind a key do not have it. -/
theorem find?_of_behind (ho : Orders before) (h : ∀ f ∈ fs, before key f.1 = true) : find? key fs = none := by
  have hnone : fs.find? (·.1 = key) = none :=
    List.find?_eq_none.mpr fun f hf => by simpa using (ho.ne_of_before (h f hf)).symm
  rw [find?, hnone, Option.map_none]

theorem insert_of_behind (ho : Orders before) (value : β) (h : ∀ f ∈ fs, before key f.1 = true) :
    insert before key value fs = (key, value) :: fs := by
  cases fs with
  | nil => rfl
  | cons f fs =>
      have hf := h f List.mem_cons_self
      rw [insert, if_neg (ho.ne_of_before hf).symm, if_pos hf]

theorem Stands.find?_eq (ho : Orders before) (h : Stands before key es p) :
    find? key es = p.elim (fun i => es[i]?.map (·.2)) fun _ => none := by
  cases h with
  | present hes hfront =>
      rw [hes, find?_append_of_before ho hfront, find?_cons, if_pos rfl, Sum.elim_inl,
        List.getElem?_append_right (Nat.le_refl _), Nat.sub_self]
      rfl
  | absent hes hfront hbehind =>
      rw [hes, find?_append_of_before ho hfront, find?_of_behind ho hbehind, Sum.elim_inr]

theorem Stands.insert_eq (ho : Orders before) (h : Stands before key es p) (value : β) :
    insert before key value es =
      p.elim (fun i => es.set i (key, value)) fun i => es.insertIdx i (key, value) := by
  cases h with
  | present hes hfront =>
      rw [hes, insert_append_of_before ho value hfront, insert, if_pos rfl, Sum.elim_inl,
        List.set_append_right _ _ (Nat.le_refl _), Nat.sub_self, List.set_cons_zero]
  | absent hes hfront hbehind =>
      rw [hes, insert_append_of_before ho value hfront, insert_of_behind ho value hbehind, Sum.elim_inr,
        insertIdx_length]

theorem Stands.erase_eq (ho : Orders before) (hs : Sorted before es) (h : Stands before key es p) :
    erase key es = p.elim (fun i => es.eraseIdx i) fun _ => es := by
  cases h with
  | @present ds fs value hes hfront =>
      subst hes
      have hbehind := (List.pairwise_cons.mp (List.pairwise_append.mp hs).2.1).1
      rw [erase_append_cons value (fun d hd => ho.ne_of_before (hfront d hd)) fun f hf =>
          (ho.ne_of_before (hbehind f hf)).symm,
        Sum.elim_inl, List.eraseIdx_append_of_length_le (Nat.le_refl _), Nat.sub_self, List.eraseIdx_cons_zero]
  | absent hes hfront hbehind =>
      refine erase_of_ne fun e he => ?_
      rw [hes, List.mem_append] at he
      rcases he with he | he
      · exact ho.ne_of_before (hfront e he)
      · exact (ho.ne_of_before (hbehind e he)).symm

/-! ## Maps with the same values -/

/-- Each entry of a sorted list is what is found under its key. -/
theorem Sorted.mem_iff (ho : Orders before) {e : α × β} (h : Sorted before es) :
    e ∈ es ↔ find? e.1 es = some e.2 := by
  induction es with
  | nil => exact iff_of_false List.not_mem_nil (fun h => by cases h)
  | cons f es ih =>
      obtain ⟨hfirst, hes⟩ := List.pairwise_cons.mp h
      rw [find?_cons, List.mem_cons]
      by_cases hkey : f.1 = e.1
      · rw [if_pos hkey, Option.some.injEq]
        constructor
        · rintro (rfl | he)
          · rfl
          · exact absurd hkey (ho.ne_of_before (hfirst e he))
        · exact fun hvalue => Or.inl (Prod.ext hkey hvalue).symm
      · rw [if_neg hkey, ← ih hes]
        refine or_iff_right ?_
        rintro rfl
        exact hkey rfl

/-- In a sorted list each key stands once, so it may be searched from behind. -/
theorem Sorted.find?_reverse (ho : Orders before) (h : Sorted before es) (key : α) :
    find? key es.reverse = find? key es := by
  have hswap : Orders fun a b => before b a :=
    ⟨ho.irrefl, fun h₁ h₂ => ho.trans h₂ h₁, fun hne h => ho.total (Ne.symm hne) h⟩
  have hreverse : Sorted (fun a b => before b a) es.reverse := List.pairwise_reverse.mpr h
  refine Option.ext fun v => ?_
  have hback := hreverse.mem_iff hswap (e := (key, v))
  have hfront := h.mem_iff ho (e := (key, v))
  rw [List.mem_reverse] at hback
  exact hback.symm.trans hfront

/-- Sorted entries are the same if every key has the same value in them. -/
theorem Sorted.ext (ho : Orders before) (hes : Sorted before es) (hds : Sorted before ds)
    (h : ∀ key, find? key es = find? key ds) : es = ds := by
  have hnodup : ∀ {fs : List (α × β)}, Sorted before fs → fs.Nodup := fun hfs =>
    hfs.imp fun {e f} hef heq => ho.ne_of_before hef (congrArg Prod.fst heq)
  have hperm : es.Perm ds := by
    refine (List.perm_ext_iff_of_nodup (hnodup hes) (hnodup hds)).mpr fun e => ?_
    rw [hes.mem_iff ho, hds.mem_iff ho, h]
  refine List.Perm.eq_of_pairwise (fun e f _ _ hef hfe => ?_) hes hds hperm
  exact absurd hfe (Bool.eq_false_iff.mp (ho.asymm hef))

end Place

end StyleTree.SortedMap
