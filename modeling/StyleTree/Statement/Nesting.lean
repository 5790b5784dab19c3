/-
# `Statement.Nesting` — blocks are smaller than what they stand in

The block of a statement is part of the run of values that the statement
was split from, and so smaller.  Rules are read from the outside inwards
by recursion on this measure.
-/
import StyleTree.Statement

namespace StyleTree.Statement
open ComponentValue

theorem Ending.eq_block {e : Ending} {b : List ComponentValue} (h : e.block? = some b) :
    e = .block b := by
  cases e <;> simp_all [Ending.block?]

theorem preludeOf_block_lt (semi : Bool) (vs b : List ComponentValue)
    (h : (preludeOf semi vs).2.1 = .block b) : sizeOf b < sizeOf vs := by
  fun_induction preludeOf semi vs with
  | case1 => simp at h
  | case2 contents vs =>
    simp at h; subst h
    simp; omega
  | case3 v vs hv hs => simp at h
  | case4 v vs hv hs r ih =>
    have := ih h
    simp; omega

theorem preludeOf_rest_le (semi : Bool) (vs : List ComponentValue) :
    sizeOf (preludeOf semi vs).2.2 ≤ sizeOf vs := by
  fun_induction preludeOf semi vs with
  | case1 => simp
  | case2 => simp
  | case3 => simp
  | case4 v vs _ _ _ ih => exact Nat.le_trans ih (by simp)

theorem untilSemicolon_rest_le (vs : List ComponentValue) :
    sizeOf (untilSemicolon vs).2 ≤ sizeOf vs := by
  fun_induction untilSemicolon vs with
  | case1 => simp
  | case2 => simp
  | case3 v vs _ _ ih => exact Nat.le_trans ih (by simp)

theorem nextItem_rest_le (mode : ContentForm) (v : ComponentValue) (vs : List ComponentValue) :
    sizeOf (nextItem mode v vs).2 ≤ sizeOf (v :: vs) := by
  simp only [nextItem]
  split
  · simp
  · split
    · have := preludeOf_rest_le true vs
      simp [atRule]; omega
    · split
      · have := untilSemicolon_rest_le vs
        simp; omega
      · exact preludeOf_rest_le _ _

theorem nextItem_block_lt {mode : ContentForm} {v : ComponentValue} {vs : List ComponentValue}
    {s : Statement} {b : List ComponentValue} (h : (nextItem mode v vs).1 = some (.rule s))
    (hb : s.block = some b) : sizeOf b < sizeOf (v :: vs) := by
  simp only [nextItem] at h
  split at h
  · simp at h
  · split at h
    · simp [atRule] at h; subst h
      have := preludeOf_block_lt true vs b (Ending.eq_block hb)
      simp; omega
    · split at h
      · simp [WrittenDeclaration.ofValues?] at h
      · simp [qualifiedRule] at h
        obtain ⟨c, hc, rfl⟩ := h
        simp at hb; subst hb
        exact preludeOf_block_lt _ _ _ (Ending.eq_block hc)

/-- Each block of a run of values is smaller than the run. -/
theorem split_block_lt {mode : ContentForm} {vs : List ComponentValue} {s : Statement}
    {b : List ComponentValue} (h : .rule s ∈ split mode vs) (hb : s.block = some b) :
    sizeOf b < sizeOf vs := by
  fun_induction split mode vs with
  | case1 => simp at h
  | case2 v vs r ih =>
    rcases List.mem_append.1 h with h | h
    · exact nextItem_block_lt (Option.mem_toList.1 h) hb
    · exact Nat.lt_of_lt_of_le (ih h) (nextItem_rest_le mode v vs)

/-- A statement in the block of another has the smaller block. -/
theorem sizeOf_block_lt {mode : ContentForm} {s t : Statement} {vs : List ComponentValue}
    (hs : s.block = some vs) (ht : .rule t ∈ split mode vs) : sizeOf t.block < sizeOf s.block := by
  rw [hs]
  cases hb : t.block with
  | none =>
    cases vs <;> simp only [Option.none.sizeOf_spec, Option.some.sizeOf_spec,
      List.nil.sizeOf_spec, List.cons.sizeOf_spec] <;> omega
  | some b => simpa using split_block_lt ht hb

end StyleTree.Statement
