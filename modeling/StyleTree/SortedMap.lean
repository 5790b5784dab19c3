/-
# `SortedMap` — entries in the order of their keys

A map is a list of entries with one entry per key, sorted by a strict
order `before` on keys.  Inserting an entry under a key that is present
replaces its value and keeps its place.
-/
namespace StyleTree.SortedMap

variable {α β : Type} [DecidableEq α]

/-- The value of a key. -/
def find? (key : α) (es : List (α × β)) : Option β := (es.find? (·.1 = key)).map (·.2)

/-- The map with `value` under `key`. -/
def insert (before : α → α → Bool) (key : α) (value : β) : List (α × β) → List (α × β)
  | [] => [(key, value)]
  | e :: es =>
    if e.1 = key then (key, value) :: es
    else if before key e.1 then (key, value) :: e :: es
    else e :: insert before key value es

/-- The map without `key`. -/
def erase (key : α) (es : List (α × β)) : List (α × β) := es.filter (·.1 ≠ key)

/-- Strictly sorted by key. -/
def Sorted (before : α → α → Bool) (es : List (α × β)) : Prop :=
  es.Pairwise (fun a b => before a.1 b.1 = true)

/-! ## Looking up after a change -/

theorem find?_cons (key : α) (e : α × β) (es : List (α × β)) :
    find? key (e :: es) = if e.1 = key then some e.2 else find? key es := by
  by_cases h : e.1 = key <;> simp [find?, h]

theorem find?_insert (before : α → α → Bool) (key : α) (value : β) (es : List (α × β)) :
    find? key (insert before key value es) = some value := by
  induction es with
  | nil => simp [insert, find?]
  | cons e es ih =>
      rw [insert]
      split
      · rw [find?_cons, if_pos rfl]
      · next h =>
          split
          · rw [find?_cons, if_pos rfl]
          · rw [find?_cons, if_neg h, ih]

theorem find?_insert_of_ne (before : α → α → Bool) {key other : α} (h : other ≠ key) (value : β)
    (es : List (α × β)) : find? other (insert before key value es) = find? other es := by
  induction es with
  | nil => rw [insert, find?_cons, if_neg (Ne.symm h)]
  | cons e es ih =>
      rw [insert]
      split
      · next he => rw [find?_cons, if_neg (Ne.symm h), find?_cons, if_neg (he ▸ Ne.symm h)]
      · split
        · rw [find?_cons, if_neg (Ne.symm h)]
        · rw [find?_cons, find?_cons, ih]

theorem find?_erase (key : α) (es : List (α × β)) : find? key (erase key es) = none := by
  simp [find?, erase]

theorem find?_erase_of_ne {key other : α} (h : other ≠ key) (es : List (α × β)) :
    find? other (erase key es) = find? other es := by
  induction es with
  | nil => rfl
  | cons e es ih =>
      rw [erase] at ih ⊢
      by_cases he : e.1 = key
      · rw [List.filter_cons_of_neg (by simpa using he), ih, find?_cons, if_neg (he ▸ Ne.symm h)]
      · rw [List.filter_cons_of_pos (by simpa using he), find?_cons, find?_cons, ih]

end StyleTree.SortedMap
