/-
# `Proofs.Condition.Editing` — media queries named by their texts

A media list shows texts (`items`), and a query is deleted or appended by a
text.  What is compared are queries, though: the one that the text is read
as with those of the list.  So a shown text names the query that shows it
exactly if it is read as this query, and no other query shows the same:

    deleting an item     takes away all items with its text if the text is read
                         as a query with this text, and is not the text of an
                         invalid query as well (`delete_item_iff`)
    appending a text     makes no second item with a text unless an invalid
                         query shows `not all` already (`count_append_le_iff`)

Every valid query of a list was read from values of some text
(`isRead_of_edited`), so its own text is read as this query again where the
values can be read back (`ofText_text`).
-/
import StyleTree.Proofs.Condition.Queries

namespace StyleTree

open ComponentValue Condition

variable {t : String}

/-! ## Queries that were read -/

namespace MediaQuery

variable {q : MediaQuery} {vs : List ComponentValue}

/-- The text of a query is read as the query, if its names need no escape and its lexemes do not run together. -/
theorem ofText_text (hvs : ∀ v ∈ vs, Fresh v) (hq : ofValues vs = .valid t) (hnames : ArePlain (names vs))
    (hplain : IsPlain (values vs)) : ofText t = .valid t := by
  have hshows : Shows t (values vs) := by
    have hshows := shows_text vs hnames
    rwa [hq] at hshows
  have hvalues : values vs = spread (canonEach media featureValues vs) := by
    rw [values, hq]
  rw [ofText, ofText_of_shows hshows (writable_values hvs hplain.clear) hplain, ofValues_respell Token.respells_alike,
    hvalues, ofValues_canon, hq]

/-- A query that was read from some of the values of a text. -/
def IsRead (q : MediaQuery) : Prop := ∃ text vs, vs ⊆ ComponentValue.ofText text ∧ ofValues vs = q

end MediaQuery

namespace MediaList

variable {l : MediaList} {q : MediaQuery}

/-! ## Edited lists -/

/-- The lists that a text is read as, and what becomes of them by appending and deleting. -/
inductive Edited : MediaList → Prop
  | ofText (text : String) : Edited (ofText text)
  | append {l : MediaList} (text : String) : Edited l → Edited (l.append text)
  | delete {l : MediaList} (text : String) : Edited l → Edited (l.delete text).2

theorem queries_append (l : MediaList) (text : String) :
    (l.append text).queries =
      if MediaQuery.ofText text = .invalid ∨ MediaQuery.ofText text ∈ l.queries then l.queries
      else l.queries ++ [MediaQuery.ofText text] := by
  rw [append]
  simp only [Bool.or_eq_true, decide_eq_true_eq]
  split <;> rfl

theorem queries_delete (l : MediaList) (text : String) :
    (l.delete text).2.queries = l.queries.filter (· ≠ MediaQuery.ofText text) := rfl

theorem isRead_of_edited (h : Edited l) : ∀ q ∈ l.queries, q.IsRead := by
  induction h with
  | ofText text =>
      intro q hq
      rw [ofText, ofValues] at hq
      split at hq
      · cases hq
      · obtain ⟨part, hpart, rfl⟩ := List.mem_map.mp hq
        obtain ⟨raw, hraw, rfl⟩ := List.mem_map.mp hpart
        exact ⟨text, trim raw, fun v hv => mem_of_mem_splitOn hraw (mem_of_mem_trim hv), rfl⟩
  | append text _ ih =>
      intro q hq
      rw [queries_append] at hq
      split at hq
      · exact ih q hq
      · rcases List.mem_append.mp hq with hq | hq
        · exact ih q hq
        · rw [List.mem_singleton.mp hq]
          exact ⟨text, ComponentValue.ofText text, List.Subset.refl _, rfl⟩
  | delete text _ ih => exact fun q hq => ih q (List.mem_of_mem_filter hq)

/-! ## The texts that are shown -/

/-- The texts of the queries. -/
def items (l : MediaList) : List String := l.queries.map MediaQuery.text

theorem item?_eq (l : MediaList) (i : Nat) : l.item? i = l.items[i]? := (List.getElem?_map ..).symm

theorem ofText_notAll : MediaQuery.ofText "not all" = .valid "not all" := by decide +kernel

theorem eq_of_text (h : q.text = t) : q = .valid t ∨ q = .invalid ∧ t = "not all" := by
  cases q with
  | valid s => exact .inl (congrArg MediaQuery.valid h)
  | invalid => exact .inr ⟨rfl, h.symm⟩

/-- If the text is read as a query that shows it and no other query shows it, then the items with this text go. -/
theorem items_delete (hread : MediaQuery.ofText t = .valid t) (honly : t = "not all" → .invalid ∉ l.queries) :
    (l.delete t).2.items = l.items.filter (· ≠ t) := by
  rw [items, queries_delete, items, List.filter_map, hread]
  refine congrArg (List.map MediaQuery.text) (List.filter_congr fun q hq => ?_)
  refine decide_eq_decide.mpr (not_congr ⟨fun h => congrArg MediaQuery.text h, fun h => ?_⟩)
  rcases eq_of_text h with rfl | ⟨rfl, rfl⟩
  · rfl
  · exact absurd hq (honly rfl)

theorem delete_fst (l : MediaList) (text : String) : (l.delete text).1 = true ↔ MediaQuery.ofText text ∈ l.queries := by
  show decide (_ ≠ _) = true ↔ _
  rw [decide_eq_true_iff, Ne, List.length_filter_eq_length_iff, not_forall]
  constructor
  · rintro ⟨q, hq⟩
    by_contra hnot
    exact hq fun hmem => decide_eq_true fun hsame => hnot (hsame ▸ hmem)
  · intro hmem
    exact ⟨_, fun h => absurd rfl (of_decide_eq_true (h hmem))⟩

/-- Deleting an item takes away the items with its text, and no other, exactly if this text is read as the query that
shows it and no invalid query shows it too. -/
theorem delete_item_iff (ht : t ∈ l.items) :
    (l.delete t).1 = true ∧ (l.delete t).2.items = l.items.filter (· ≠ t) ↔
      MediaQuery.ofText t = .valid t ∧ (t = "not all" → .invalid ∉ l.queries) := by
  obtain ⟨q, hq, hqt⟩ := List.mem_map.mp ht
  constructor
  · rintro ⟨-, hitems⟩
    -- a query that shows the text goes, so it is the one that the text is read as
    have hgone : ∀ r ∈ l.queries, r.text = t → r = MediaQuery.ofText t := by
      intro r hr hrt
      by_contra hne
      have hkept : t ∈ (l.delete t).2.items :=
        List.mem_map.mpr ⟨r, List.mem_filter.mpr ⟨hr, decide_eq_true hne⟩, hrt⟩
      rw [hitems] at hkept
      exact absurd rfl (of_decide_eq_true (List.mem_filter.mp hkept).2)
    have hread : MediaQuery.ofText t = .valid t := by
      rcases eq_of_text hqt with rfl | ⟨rfl, rfl⟩
      · exact (hgone _ hq hqt).symm
      · exact ofText_notAll
    refine ⟨hread, fun hall hinvalid => ?_⟩
    have hsame := hgone _ hinvalid hall.symm
    rw [hread] at hsame
    cases hsame
  · rintro ⟨hread, honly⟩
    refine ⟨(delete_fst l t).mpr ?_, items_delete hread honly⟩
    rcases eq_of_text hqt with rfl | ⟨rfl, hall⟩
    · exact hread.symm ▸ hq
    · exact absurd hq (honly hall)

/-- Appending makes a second item with a text exactly if an invalid query shows `not all` already. -/
theorem count_append_le_iff {text : String} (hone : l.items.count t ≤ 1) :
    (l.append text).items.count t ≤ 1 ↔
      ¬ (t = "not all" ∧ MediaQuery.ofText text = .valid t ∧ .invalid ∈ l.queries ∧ .valid t ∉ l.queries) := by
  rw [items, queries_append]
  split
  · next hstays =>
      refine iff_of_true hone ?_
      rintro ⟨-, hread, -, hnew⟩
      rw [hread] at hstays
      rcases hstays with hinvalid | hthere
      · cases hinvalid
      · exact hnew hthere
  · next hgrows =>
      obtain ⟨hvalid, hnew⟩ := not_or.mp hgrows
      cases hread : MediaQuery.ofText text with
      | invalid => exact absurd hread hvalid
      | valid s =>
          rw [hread] at hnew
          rw [List.map_append, List.count_append, List.map_singleton, List.count_singleton]
          by_cases hst : s = t
          · subst hst
            rw [show MediaQuery.text (.valid s) = s from rfl, beq_self_eq_true, if_pos rfl]
            have hshown : s ∈ l.items ↔ s = "not all" ∧ .invalid ∈ l.queries := by
              constructor
              · intro hs
                obtain ⟨q, hq, hqs⟩ := List.mem_map.mp hs
                rcases eq_of_text hqs with rfl | ⟨rfl, hall⟩
                · exact absurd hq hnew
                · exact ⟨hall, hq⟩
              · rintro ⟨rfl, hinvalid⟩
                exact List.mem_map.mpr ⟨_, hinvalid, rfl⟩
            have hzero : l.items.count s + 1 ≤ 1 ↔ l.items.count s = 0 := by omega
            refine hzero.trans (List.count_eq_zero.trans ?_)
            rw [hshown]
            exact not_congr ⟨fun h => ⟨h.1, rfl, h.2, hnew⟩, fun h => ⟨h.1, h.2.2.1⟩⟩
          · have hother : (MediaQuery.text (.valid s) == t) = false := beq_eq_false_iff_ne.mpr hst
            rw [hother, if_neg Bool.false_ne_true, Nat.add_zero]
            refine iff_of_true hone ?_
            rintro ⟨-, hsame, -⟩
            exact hst (MediaQuery.valid.inj hsame)

/-- Deleting and appending agree with the texts that a list shows exactly as long as a shown text is read as the query
that shows it, and no invalid query shows `not all` beside it.  A valid query of a list was read from values of some
text, and its text is read as this query if the values can be read back. -/
theorem editing_follows_texts (h : Edited l) :
    (∀ i t, l.item? i = some t →
      ((l.delete t).1 = true ∧ (l.delete t).2.items = l.items.filter (· ≠ t) ↔
        MediaQuery.ofText t = .valid t ∧ (t = "not all" → .invalid ∉ l.queries))) ∧
    (∀ text t, l.items.count t ≤ 1 →
      ((l.append text).items.count t ≤ 1 ↔
        ¬ (t = "not all" ∧ MediaQuery.ofText text = .valid t ∧ .invalid ∈ l.queries ∧ .valid t ∉ l.queries))) ∧
    (∀ t, .valid t ∈ l.queries → ∃ text vs, vs ⊆ ComponentValue.ofText text ∧ MediaQuery.ofValues vs = .valid t ∧
      (ArePlain (MediaQuery.names vs) → IsPlain (MediaQuery.values vs) → MediaQuery.ofText t = .valid t)) := by
  refine ⟨fun i t hi => delete_item_iff ?_, fun text t hone => count_append_le_iff hone, fun t ht => ?_⟩
  · rw [item?_eq] at hi
    exact List.mem_of_getElem? hi
  · obtain ⟨text, vs, hsub, hq⟩ := isRead_of_edited h _ ht
    exact ⟨text, vs, hsub, hq, fun hnames hplain =>
      MediaQuery.ofText_text (fun v hv => fresh_ofText text v (hsub hv)) hq hnames hplain⟩

/-- A query is appended to a list, and the first one deleted. -/
theorem editing_follows_texts_screen :
    Edited ((ofText "screen, (a)").append "print") ∧
      (((ofText "screen, (a)").append "print").delete "screen").1 = true ∧
      (((ofText "screen, (a)").append "print").delete "screen").2.items = ["(a)", "print"] := by
  have hedited : Edited ((ofText "screen, (a)").append "print") := .append "print" (.ofText "screen, (a)")
  obtain ⟨hdelete, -⟩ := editing_follows_texts hedited
  obtain ⟨hfound, hitems⟩ := (hdelete 0 "screen" (by decide +kernel)).mpr (by decide +kernel)
  have hkept : ((ofText "screen, (a)").append "print").items.filter (· ≠ "screen") = ["(a)", "print"] := by
    decide +kernel
  exact ⟨hedited, hfound, hitems.trans hkept⟩

/-- A media type that begins with a digit is shown without its escape, and is not found by what is shown. -/
theorem not_editing_follows_texts : ¬ ∀ l : MediaList, Edited l → ∀ i t, l.item? i = some t →
    (l.delete t).1 = true ∧ (l.delete t).2.items = l.items.filter (· ≠ t) :=
  fun h => absurd (h _ (.ofText "\\31 x") 0 "1x" (by decide +kernel)) (by decide +kernel)

end MediaList

end StyleTree
