/-
# `Proofs.Arena.Ids` — an id that was given up never comes back

Nodes are looked up by id, so the first section says what each operation
does to the lookup of every id.

An id is a slot with a version.  No two ids of an arena, in use or given
up, share a slot (`Versioned`), and a slot is used again under a higher
version only.  So `Used`, the ids that were handed out so far, grows with
every operation, and the next id is never among them (`fresh_not_used`).

`Evolves a b` says of two arenas that nothing of this is lost between
them: an id that was used in `a` and is in use in `b` was in use all the
time.  It holds across every operation of an arena, whatever its links
are, and it is transitive, so it holds across every run of operations.
-/
import StyleTree.Arena.Subtree
import Mathlib.Data.List.Nodup

namespace StyleTree.Arena

variable {α : Type} {a b c : Arena α} {id i : RuleId}

/-- The ids in use. -/
def ids (a : Arena α) : List RuleId := a.nodes.map (·.1)

/-! ## Looking up after a change -/

theorem size_eq (a : Arena α) : a.size = a.ids.length := by
  simp [size, ids]

theorem get?_isSome : (a.get? id).isSome = true ↔ id ∈ a.ids := by
  simp [get?, ids]

theorem contains_iff : a.contains id = true ↔ id ∈ a.ids := get?_isSome

theorem get?_eq_none : a.get? id = none ↔ id ∉ a.ids := by
  rw [← get?_isSome, Option.isSome_iff_ne_none, not_not]

theorem mem_ids_of_get? {n : Node α} (h : a.get? id = some n) : id ∈ a.ids := by
  rw [← get?_isSome, h]
  rfl

theorem exists_get? (h : id ∈ a.ids) : ∃ n, a.get? id = some n :=
  Option.isSome_iff_exists.mp (get?_isSome.mpr h)

theorem get?_insert (a : Arena α) (v : α) (id : RuleId) :
    (a.insert v).1.get? id = if id = a.fresh then some ⟨v, none, []⟩ else a.get? id := by
  by_cases h : id = a.fresh
  · subst h
    simp [insert, get?]
  · have h' : ¬ a.fresh = id := fun e => h e.symm
    simp [insert, get?, h, h']

theorem ids_insert (a : Arena α) (v : α) : (a.insert v).1.ids = a.fresh :: a.ids := rfl

theorem erased_insert (a : Arena α) (v : α) : (a.insert v).1.erased = a.erased.tail := rfl

theorem slots_insert (a : Arena α) (v : α) :
    (a.insert v).1.slots = if a.erased.isEmpty then a.slots + 1 else a.slots := rfl

theorem get?_modify (a : Arena α) (i id : RuleId) (f : Node α → Node α) :
    (a.modify i f).get? id = if id = i then (a.get? id).map f else a.get? id := by
  obtain ⟨nodes, erased, slots⟩ := a
  simp only [get?, modify]
  induction nodes with
  | nil => simp
  | cons e es ih =>
      rw [List.map_cons]
      by_cases he : e.1 = id
      · by_cases hi : id = i <;> simp [he, hi]
      · by_cases hi : e.1 = i
        · simpa [he, hi, show ¬ i = id from hi ▸ he] using ih
        · simpa [he, hi] using ih

theorem ids_modify (a : Arena α) (i : RuleId) (f : Node α → Node α) :
    (a.modify i f).ids = a.ids := by
  simp only [ids, modify, List.map_map]
  refine List.map_congr_left fun e _ => ?_
  simp only [Function.comp_apply]
  split <;> rfl

theorem get?_erase (a : Arena α) (i id : RuleId) :
    (a.erase i).get? id = if id = i then none else a.get? id := by
  unfold erase
  by_cases hc : a.contains i = true
  · rw [if_pos hc]
    obtain ⟨nodes, erased, slots⟩ := a
    simp only [get?]
    clear hc
    induction nodes with
    | nil => simp
    | cons e es ih =>
        by_cases he : e.1 = i
        · by_cases hi : id = i
          · simp [hi]
          · simpa [he, hi, show ¬ i = id from Ne.symm hi] using ih
        · by_cases hid : e.1 = id
          · simp [hid, show ¬ id = i from hid ▸ he]
          · simpa [he, hid] using ih
  · rw [if_neg hc]
    split
    · next h => rw [h, get?_eq_none, ← contains_iff]; exact hc
    · rfl

theorem ids_erase (a : Arena α) (i : RuleId) : (a.erase i).ids = a.ids.filter (· ≠ i) := by
  unfold erase
  split
  · simp only [ids, List.filter_map]
    rfl
  · next h =>
      rw [contains_iff] at h
      refine (List.filter_eq_self.mpr fun x hx => ?_).symm
      simpa using fun e : x = i => h (e ▸ hx)

theorem get?_foldl_erase (is : List RuleId) (a : Arena α) (id : RuleId) :
    (is.foldl erase a).get? id = if id ∈ is then none else a.get? id := by
  induction is generalizing a with
  | nil => simp
  | cons i is ih =>
      rw [List.foldl_cons, ih, get?_erase]
      by_cases hi : id = i <;> by_cases his : id ∈ is <;> simp [hi, his]

theorem ids_foldl_erase (is : List RuleId) (a : Arena α) :
    (is.foldl erase a).ids = a.ids.filter (· ∉ is) := by
  induction is generalizing a with
  | nil => simp
  | cons i is ih =>
      rw [List.foldl_cons, ih, ids_erase, List.filter_filter]
      refine List.filter_congr fun x _ => ?_
      by_cases hx : x = i <;> simp [hx]

/-! ## Slots and versions -/

/-- No two ids in use or given up share a slot, and all their slots were made. -/
structure Versioned (a : Arena α) : Prop where
  nodup : ((a.ids ++ a.erased).map RuleId.slot).Nodup
  bound : ∀ id ∈ a.ids ++ a.erased, id.slot ≤ a.slots

/-- The arena has handed this id out. -/
def Used (a : Arena α) (id : RuleId) : Prop :=
  ∃ e ∈ a.ids ++ a.erased, e.slot = id.slot ∧ id.version ≤ e.version

theorem used_of_mem (h : id ∈ a.ids) : a.Used id :=
  ⟨id, List.mem_append_left _ h, rfl, Nat.le_refl _⟩

theorem Versioned.nodup_ids (h : a.Versioned) : a.ids.Nodup :=
  (List.nodup_append.mp (List.Nodup.of_map _ h.nodup)).1

theorem versioned_empty : (empty : Arena α).Versioned :=
  ⟨List.nodup_nil, fun _ h => absurd h List.not_mem_nil⟩

/-- The next id has a new slot, or a version above all of its slot. -/
theorem fresh_not_used (h : a.Versioned) : ¬ a.Used a.fresh := by
  rintro ⟨e, he, hslot, hversion⟩
  unfold fresh at hslot hversion
  cases her : a.erased with
  | nil =>
      rw [her] at hslot
      have hb := h.bound e he
      simp only at hslot
      omega
  | cons x xs =>
      simp only [her, RuleId.next] at hslot hversion
      have hx : x ∈ a.ids ++ a.erased := by simp [her]
      have : e = x := List.inj_on_of_nodup_map h.nodup he hx hslot
      subst this
      omega

theorem fresh_not_mem (h : a.Versioned) : a.fresh ∉ a.ids :=
  fun hm => fresh_not_used h (used_of_mem hm)

/-! ## What no operation loses -/

/-- Slots keep their discipline, ids that were used stay used, and none of them is in use again. -/
def Evolves (a b : Arena α) : Prop :=
  a.Versioned → b.Versioned ∧ ∀ id, a.Used id → b.Used id ∧ (id ∈ b.ids → id ∈ a.ids)

theorem Evolves.refl (a : Arena α) : Evolves a a :=
  fun h => ⟨h, fun _ hu => ⟨hu, fun hm => hm⟩⟩

theorem Evolves.trans (h₁ : Evolves a b) (h₂ : Evolves b c) : Evolves a c := by
  intro ha
  obtain ⟨hb, hab⟩ := h₁ ha
  obtain ⟨hc, hbc⟩ := h₂ hb
  refine ⟨hc, fun id hu => ?_⟩
  obtain ⟨hub, hmb⟩ := hab id hu
  exact ⟨(hbc id hub).1, fun hm => hmb ((hbc id hub).2 hm)⟩

theorem evolves_of_ids (hi : b.ids = a.ids) (he : b.erased = a.erased) (hs : b.slots = a.slots) :
    Evolves a b := by
  intro h
  refine ⟨⟨?_, ?_⟩, fun id hu => ⟨?_, ?_⟩⟩
  · rw [hi, he]; exact h.nodup
  · rw [hi, he, hs]; exact h.bound
  · obtain ⟨e, hm, hv⟩ := hu
    exact ⟨e, by rw [hi, he]; exact hm, hv⟩
  · rw [hi]; exact fun hm => hm

theorem evolves_modify (a : Arena α) (i : RuleId) (f : Node α → Node α) :
    Evolves a (a.modify i f) :=
  evolves_of_ids (ids_modify a i f) rfl rfl

theorem versioned_insert (h : a.Versioned) (v : α) : (a.insert v).1.Versioned := by
  have hn := h.nodup
  have hb := h.bound
  cases her : a.erased with
  | nil =>
      simp only [her, List.append_nil] at hn hb
      refine ⟨?_, ?_⟩ <;>
        simp only [ids_insert, erased_insert, her, fresh, List.tail_nil, List.append_nil]
      · refine List.nodup_cons.mpr ⟨fun hm => ?_, hn⟩
        obtain ⟨e, he, hs⟩ := List.mem_map.mp hm
        have := hb e he
        simp only at hs
        omega
      · intro id hm
        rw [slots_insert, her]
        rcases List.mem_cons.mp hm with rfl | hm
        · simp
        · exact Nat.le_succ_of_le (hb id hm)
  | cons x xs =>
      simp only [her] at hn hb
      refine ⟨?_, ?_⟩ <;> simp only [ids_insert, erased_insert, her, fresh, List.tail_cons]
      · have hp : (a.ids ++ x :: xs).Perm (x :: (a.ids ++ xs)) := List.perm_middle
        have := (hp.map RuleId.slot).nodup_iff.mp hn
        simpa [RuleId.next] using this
      · intro id hm
        rw [slots_insert, her]
        rcases List.mem_cons.mp hm with rfl | hm
        · exact hb x (by simp)
        · refine hb id ?_
          rcases List.mem_append.mp hm with hm | hm
          · exact List.mem_append_left _ hm
          · exact List.mem_append_right _ (List.mem_cons_of_mem _ hm)

theorem used_insert (v : α) (h : a.Used id) : (a.insert v).1.Used id := by
  obtain ⟨e, he, hs, hv⟩ := h
  rcases List.mem_append.mp he with he | he
  · exact ⟨e, List.mem_append_left _ (List.mem_cons_of_mem _ he), hs, hv⟩
  · cases her : a.erased with
    | nil => rw [her] at he; exact absurd he List.not_mem_nil
    | cons x xs =>
        rw [her] at he
        rcases List.mem_cons.mp he with rfl | he
        · refine ⟨e.next, ?_, hs, ?_⟩
          · simp [ids_insert, fresh, her]
          · simp only [RuleId.next]
            omega
        · refine ⟨e, List.mem_append_right _ ?_, hs, hv⟩
          simpa [insert, her] using he

theorem evolves_insert (a : Arena α) (v : α) : Evolves a (a.insert v).1 := by
  intro h
  refine ⟨versioned_insert h v, fun id hu => ⟨used_insert v hu, fun hm => ?_⟩⟩
  rcases List.mem_cons.mp hm with rfl | hm
  · exact absurd hu (fresh_not_used h)
  · exact hm

/-- Erasing an id moves it from those in use to those given up. -/
theorem perm_erase (h : a.Versioned) (hm : i ∈ a.ids) :
    ((a.erase i).ids ++ (a.erase i).erased).Perm (a.ids ++ a.erased) := by
  have hids : a.ids.Perm (i :: a.ids.filter (· ≠ i)) := by
    have := List.perm_cons_erase hm
    rwa [h.nodup_ids.erase_eq_filter, show (fun x => x != i) = (fun x => decide (x ≠ i)) by
      funext x; simp [bne, Bool.beq_eq_decide_eq]] at this
  have her : (a.erase i).erased = i :: a.erased := by
    simp [erase, contains_iff.mpr hm]
  rw [ids_erase, her]
  exact List.perm_middle.trans (hids.symm.append_right a.erased)

theorem slots_erase (a : Arena α) (i : RuleId) : (a.erase i).slots = a.slots := by
  unfold erase
  split <;> rfl

theorem evolves_erase (a : Arena α) (i : RuleId) : Evolves a (a.erase i) := by
  by_cases hm : i ∈ a.ids
  · intro h
    have hp := perm_erase h hm
    refine ⟨⟨(hp.map _).nodup_iff.mpr h.nodup, fun id hid => ?_⟩, fun id hu => ⟨?_, fun hid => ?_⟩⟩
    · rw [slots_erase]
      exact h.bound id (hp.mem_iff.mp hid)
    · obtain ⟨e, he, hv⟩ := hu
      exact ⟨e, hp.mem_iff.mpr he, hv⟩
    · rw [ids_erase] at hid
      exact (List.mem_filter.mp hid).1
  · have : a.erase i = a := by
      simp [erase, contains_iff, hm]
    rw [this]
    exact Evolves.refl a

/-! ## Operations made of several -/

theorem evolves_attach (a : Arena α) (p : RuleId) (n : Nat) (i : RuleId) :
    Evolves a (a.attach p n i) :=
  (evolves_modify a i _).trans (evolves_modify _ p _)

theorem evolves_unlink (a : Arena α) (i : RuleId) : Evolves a (a.unlink i) := by
  unfold unlink
  split
  · exact Evolves.refl a
  · exact (evolves_modify a _ _).trans (evolves_modify _ i _)

theorem evolves_foldl {β : Type} (f : Arena α → β → Arena α) (hf : ∀ a x, Evolves a (f a x))
    (xs : List β) (a : Arena α) : Evolves a (xs.foldl f a) := by
  induction xs generalizing a with
  | nil => exact Evolves.refl a
  | cons x xs ih => exact (hf a x).trans (ih _)

theorem evolves_removeSubtree (a : Arena α) (i : RuleId) : Evolves a (a.removeSubtree i) :=
  ((evolves_unlink a i).trans (evolves_foldl erase evolves_erase _ _)).trans (evolves_erase _ i)

end StyleTree.Arena
