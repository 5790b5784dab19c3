/-
# `Proofs.Statement.Splitting` — an item does not look behind its end

A run of component values is split from the front, and each item takes a
piece of it.  A piece that is closed, by a block or by a semicolon, is the
same item whatever follows it (`split_piece`), so that pieces may be taken
out of a run, or changed, without a trace in the others.

    skipped        a value between statements
    at-rule        @name … {…}        @name … ;
    qualified      … {…}
    given up       … ;                among rules in a block
    declaration    name … ;           among declarations

Only the last piece of a run can lack its end, and then no boundary is in
it (`piece_or_open`).  So what stands behind a boundary is split for itself,
however malformed the values in front of it are (`split_recovers`).
-/
import Mathlib.Logic.Function.Iterate
import StyleTree.Statement.Nesting

namespace StyleTree.Statement

open ComponentValue

variable {mode : ContentForm} {b : Bool} {pre vs us rest contents : List ComponentValue}
variable {v : ComponentValue} {item : Option Item}

theorem eq_semicolon (h : v.isSemicolon = true) : v = .token .semicolon := by
  unfold isSemicolon at h
  split at h
  · rfl
  · cases h

/-! ## Preludes -/

/-- None of the values ends a prelude. -/
def Plain (semicolonEnds : Bool) (vs : List ComponentValue) : Prop :=
  ∀ v ∈ vs, (∀ contents, v ≠ .block (.bracket .curly) contents) ∧
    (semicolonEnds && v.isSemicolon) = false

theorem plain_cons :
    Plain b (v :: vs) ↔ ((∀ contents, v ≠ .block (.bracket .curly) contents) ∧
      (b && v.isSemicolon) = false) ∧ Plain b vs :=
  List.forall_mem_cons

theorem preludeOf_cons (h : ∀ contents, v ≠ .block (.bracket .curly) contents) :
    preludeOf b (v :: vs) =
      if b && v.isSemicolon then ([], .semicolon, vs)
      else (v :: (preludeOf b vs).1, (preludeOf b vs).2) := by
  rw [preludeOf]
  exact h

theorem preludeOf_plain (h : Plain b pre) :
    preludeOf b (pre ++ vs) = (pre ++ (preludeOf b vs).1, (preludeOf b vs).2) := by
  induction pre with
  | nil => rfl
  | cons v pre ih =>
      obtain ⟨⟨hblock, hsemi⟩, h⟩ := plain_cons.mp h
      rw [List.cons_append, preludeOf_cons hblock, hsemi, ih h]
      rfl

/-- A prelude, what ended it, and what is left behind that. -/
inductive Ends (b : Bool) :
    List ComponentValue → List ComponentValue × Ending × List ComponentValue → Prop
  | block {pre contents rest : List ComponentValue} : Plain b pre →
      Ends b (pre ++ .block (.bracket .curly) contents :: rest) (pre, .block contents, rest)
  | semicolon {pre rest : List ComponentValue} : b = true → Plain b pre →
      Ends b (pre ++ .token .semicolon :: rest) (pre, .semicolon, rest)
  | nothing {pre : List ComponentValue} : Plain b pre → Ends b pre (pre, .nothing, [])

theorem Ends.preludeOf_eq {r : List ComponentValue × Ending × List ComponentValue}
    (h : Ends b vs r) : preludeOf b vs = r := by
  cases h with
  | block h => rw [preludeOf_plain h, preludeOf, List.append_nil]
  | semicolon hb h =>
      subst hb
      rw [preludeOf_plain h, preludeOf_cons (by rintro _ ⟨⟩)]
      exact Prod.ext (List.append_nil _) rfl
  | nothing h =>
      have hnil : preludeOf b (_ ++ []) = _ := preludeOf_plain h
      rwa [List.append_nil, preludeOf, List.append_nil] at hnil

theorem ends_preludeOf (b : Bool) (vs : List ComponentValue) : Ends b vs (preludeOf b vs) := by
  fun_induction preludeOf b vs with
  | case1 => exact .nothing (List.forall_mem_nil _)
  | case2 contents vs => exact Ends.block (show Plain b [] from List.forall_mem_nil _)
  | case3 v vs hblock hsemi =>
      rw [Bool.and_eq_true] at hsemi
      obtain rfl := eq_semicolon hsemi.2
      exact Ends.semicolon hsemi.1 (show Plain b [] from List.forall_mem_nil _)
  | case4 v vs hblock hsemi r ih =>
      have hv := And.intro hblock (Bool.eq_false_iff.mpr hsemi)
      show Ends b (v :: vs) (v :: (preludeOf b vs).1, (preludeOf b vs).2)
      replace ih : Ends b vs (preludeOf b vs) := ih
      generalize preludeOf b vs = r at ih ⊢
      cases ih with
      | block h => exact .block (plain_cons.mpr ⟨hv, h⟩)
      | semicolon hb h => exact .semicolon hb (plain_cons.mpr ⟨hv, h⟩)
      | nothing h => exact .nothing (plain_cons.mpr ⟨hv, h⟩)

/-- The values up to a semicolon, the rest behind it. -/
theorem untilSemicolon_of_plain (h : ∀ v ∈ us, v.isSemicolon = false) :
    untilSemicolon (us ++ vs) = (us ++ (untilSemicolon vs).1, (untilSemicolon vs).2) := by
  induction us with
  | nil => rfl
  | cons v us ih =>
      obtain ⟨hv, h⟩ := List.forall_mem_cons.mp h
      rw [List.cons_append, untilSemicolon, hv, ih h]
      rfl

/-- A semicolon follows, or there is none. -/
theorem untilSemicolon_cases (vs : List ComponentValue) :
    (∀ v ∈ (untilSemicolon vs).1, v.isSemicolon = false) ∧
      (vs = (untilSemicolon vs).1 ++ .token .semicolon :: (untilSemicolon vs).2 ∨
        vs = (untilSemicolon vs).1 ∧ (untilSemicolon vs).2 = []) := by
  fun_induction untilSemicolon vs with
  | case1 => exact ⟨List.forall_mem_nil _, Or.inr ⟨rfl, rfl⟩⟩
  | case2 v vs hv =>
      obtain rfl := eq_semicolon hv
      exact ⟨List.forall_mem_nil _, Or.inl rfl⟩
  | case3 v vs hv r ih =>
      refine ⟨List.forall_mem_cons.mpr ⟨Bool.eq_false_iff.mpr hv, ih.1⟩, ?_⟩
      rcases ih.2 with h | h
      · exact Or.inl (congrArg (v :: ·) h)
      · exact Or.inr ⟨congrArg (v :: ·) h.1, h.2⟩

/-! ## The first item -/

/-- A qualified rule starts here. -/
structure StartsQualified (mode : ContentForm) (v : ComponentValue) : Prop where
  kept : isSkipped mode v = false
  noAt : ∀ name, v ≠ .token (.atKeyword name)
  noName : (mode == .declarations && v.ident?.isSome) = false

theorem nextItem_skipped (h : isSkipped mode v = true) (vs : List ComponentValue) :
    nextItem mode v vs = (none, vs) := by
  unfold nextItem
  exact if_pos h

theorem nextItem_atRule (name : String) (vs : List ComponentValue) :
    nextItem mode (.token (.atKeyword name)) vs =
      (some (.rule (atRule name vs).1), (atRule name vs).2) := rfl

theorem nextItem_declaration (name : String) (vs : List ComponentValue) :
    nextItem .declarations (.token (.ident name)) vs =
      ((WrittenDeclaration.ofValues? (.token (.ident name) :: (untilSemicolon vs).1)).map .declaration,
        (untilSemicolon vs).2) := rfl

theorem nextItem_qualified (h : StartsQualified mode v) (vs : List ComponentValue) :
    nextItem mode v vs =
      ((qualifiedRule (mode != .stylesheet) (v :: vs)).1.map .rule,
        (qualifiedRule (mode != .stylesheet) (v :: vs)).2) := by
  unfold nextItem
  rw [h.kept, if_neg Bool.false_ne_true]
  split
  · exact absurd rfl (h.noAt _)
  · exact if_neg (Bool.eq_false_iff.mp h.noName)

/-- A value is skipped, or it starts an at-rule, a declaration or a qualified rule. -/
theorem starts_cases (mode : ContentForm) (v : ComponentValue) :
    isSkipped mode v = true ∨ (∃ name, v = .token (.atKeyword name)) ∨
      (mode = .declarations ∧ ∃ name, v = .token (.ident name)) ∨ StartsQualified mode v := by
  by_cases hskip : isSkipped mode v = true
  · exact Or.inl hskip
  by_cases hat : ∃ name, v = .token (.atKeyword name)
  · exact Or.inr (Or.inl hat)
  by_cases hname : (mode == .declarations && v.ident?.isSome) = true
  · rw [Bool.and_eq_true, beq_iff_eq] at hname
    refine Or.inr (Or.inr (Or.inl ⟨hname.1, ?_⟩))
    obtain ⟨n, hn⟩ := Option.isSome_iff_exists.mp hname.2
    unfold ident? at hn
    split at hn
    · exact ⟨_, rfl⟩
    · cases hn
  · exact Or.inr (Or.inr (Or.inr
      ⟨Bool.eq_false_iff.mpr hskip, not_exists.mp hat, Bool.eq_false_iff.mpr hname⟩))

/-! ## Boundaries -/

/-- The values at which an item ends, whatever it is: a block in braces among rules, and a semicolon
everywhere but at the top level of a sheet. -/
inductive IsBoundary : ContentForm → ComponentValue → Prop
  | sheetBlock (contents : List ComponentValue) :
      IsBoundary .stylesheet (.block (.bracket .curly) contents)
  | listBlock (contents : List ComponentValue) : IsBoundary .ruleList (.block (.bracket .curly) contents)
  | semicolon {mode : ContentForm} : mode ≠ .stylesheet → IsBoundary mode (.token .semicolon)

theorem not_isBoundary_of_plain (h : Plain b us) (hb : mode ≠ .stylesheet → b = true) :
    ∀ u ∈ us, ¬ IsBoundary mode u := by
  intro u hu hboundary
  obtain ⟨hblock, hsemi⟩ := h u hu
  cases hboundary with
  | sheetBlock contents => exact hblock contents rfl
  | listBlock contents => exact hblock contents rfl
  | semicolon hmode =>
      rw [hb hmode] at hsemi
      cases hsemi

theorem not_isBoundary_declarations (h : v.isSemicolon = false) : ¬ IsBoundary .declarations v := by
  intro hboundary
  cases hboundary
  cases h

/-! ## Pieces -/

/-- A run of values that is one closed piece, and the item that it is, if it is any. -/
inductive Piece (mode : ContentForm) : List ComponentValue → Option Item → Prop
  | skipped {v : ComponentValue} : isSkipped mode v = true → Piece mode [v] none
  | atBlock {name : String} {pre contents : List ComponentValue} : Plain true pre →
      Piece mode (.token (.atKeyword name) :: (pre ++ [.block (.bracket .curly) contents]))
        (some (.rule ⟨some name, trim pre, some contents⟩))
  | atSemicolon {name : String} {pre : List ComponentValue} : Plain true pre →
      Piece mode (.token (.atKeyword name) :: (pre ++ [.token .semicolon]))
        (some (.rule ⟨some name, trim pre, none⟩))
  | qualified {v : ComponentValue} {us pre contents : List ComponentValue} :
      StartsQualified mode v → v :: us = pre ++ [.block (.bracket .curly) contents] →
      Plain (mode != .stylesheet) pre →
      Piece mode (v :: us) (some (.rule ⟨none, trim pre, some contents⟩))
  | givenUp {v : ComponentValue} {us pre : List ComponentValue} :
      StartsQualified mode v → v :: us = pre ++ [.token .semicolon] → (mode != .stylesheet) = true →
      Plain (mode != .stylesheet) pre → Piece mode (v :: us) none
  | declaration {name : String} {us : List ComponentValue} : mode = .declarations →
      (∀ v ∈ us, v.isSemicolon = false) →
      Piece mode (.token (.ident name) :: (us ++ [.token .semicolon]))
        ((WrittenDeclaration.ofValues? (.token (.ident name) :: us)).map .declaration)

theorem atRule_eq {name : String} {r : List ComponentValue × Ending × List ComponentValue}
    (h : Ends true vs r) : atRule name vs = (⟨some name, trim r.1, r.2.1.block?⟩, r.2.2) := by
  rw [atRule, h.preludeOf_eq]

theorem qualifiedRule_eq {r : List ComponentValue × Ending × List ComponentValue}
    (h : Ends b vs r) :
    qualifiedRule b vs = (r.2.1.block?.map fun c => ⟨none, trim r.1, some c⟩, r.2.2) := by
  rw [qualifiedRule, h.preludeOf_eq]

/-- A closed piece is its item, whatever follows. -/
theorem split_piece (h : Piece mode us item) (rest : List ComponentValue) :
    split mode (us ++ rest) = item.toList ++ split mode rest := by
  cases h with
  | skipped hv =>
      rw [List.singleton_append, split, nextItem_skipped hv]
  | atBlock hp =>
      rw [List.cons_append, List.append_assoc, List.singleton_append, split, nextItem_atRule,
        atRule_eq (.block hp)]
      rfl
  | atSemicolon hp =>
      rw [List.cons_append, List.append_assoc, List.singleton_append, split, nextItem_atRule,
        atRule_eq (.semicolon rfl hp)]
      rfl
  | @qualified v us pre contents hv hus hp =>
      have hvs : v :: (us ++ rest) = pre ++ .block (.bracket .curly) contents :: rest := by
        rw [← List.cons_append, hus, List.append_assoc, List.singleton_append]
      rw [List.cons_append, split, nextItem_qualified hv, hvs, qualifiedRule_eq (.block hp)]
      rfl
  | @givenUp v us pre hv hus hmode hp =>
      have hvs : v :: (us ++ rest) = pre ++ .token .semicolon :: rest := by
        rw [← List.cons_append, hus, List.append_assoc, List.singleton_append]
      rw [List.cons_append, split, nextItem_qualified hv, hvs, qualifiedRule_eq (.semicolon hmode hp)]
      rfl
  | @declaration name us hmode hus =>
      subst hmode
      have hs : untilSemicolon (us ++ .token .semicolon :: rest) = _ := untilSemicolon_of_plain hus
      rw [List.cons_append, List.append_assoc, List.singleton_append, split, nextItem_declaration, hs]
      simp only [untilSemicolon, isSemicolon, if_true, List.append_nil]

/-- The first item of a run takes a closed piece, or all of it, in which then nothing can end it. -/
theorem piece_or_open (mode : ContentForm) (v : ComponentValue) (vs : List ComponentValue) :
    (∃ us, v :: vs = us ++ (nextItem mode v vs).2 ∧ Piece mode us (nextItem mode v vs).1) ∨
      (nextItem mode v vs).2 = [] ∧ (∀ st, (nextItem mode v vs).1 = some (.rule st) → st.block = none) ∧
        ∀ u ∈ v :: vs, ¬ IsBoundary mode u := by
  rcases starts_cases mode v with hskip | ⟨name, rfl⟩ | ⟨rfl, name, rfl⟩ | hv
  · rw [nextItem_skipped hskip]
    exact Or.inl ⟨[v], rfl, .skipped hskip⟩
  · rw [nextItem_atRule]
    have he := ends_preludeOf true vs
    rw [atRule_eq he]
    generalize preludeOf true vs = r at he
    cases he with
    | block hp => exact Or.inl ⟨_, by simp, .atBlock hp⟩
    | semicolon _ hp => exact Or.inl ⟨_, by simp, .atSemicolon hp⟩
    | nothing hp =>
        have hat : ¬ IsBoundary mode (.token (.atKeyword name)) := by rintro ⟨⟩
        refine Or.inr ⟨rfl, fun st h => ?_,
          List.forall_mem_cons.mpr ⟨hat, not_isBoundary_of_plain hp fun _ => rfl⟩⟩
        cases h
        rfl
  · rw [nextItem_declaration]
    obtain ⟨hplain, h | h⟩ := untilSemicolon_cases vs
    · exact Or.inl ⟨_, by rw [List.cons_append, List.append_assoc, List.singleton_append, ← h],
        .declaration rfl hplain⟩
    · have hname := not_isBoundary_declarations (show (token (.ident name)).isSemicolon = false from rfl)
      refine Or.inr ⟨h.2, fun st hst => ?_, List.forall_mem_cons.mpr ⟨hname, fun u hu => ?_⟩⟩
      · obtain ⟨d, -, hd⟩ := Option.map_eq_some_iff.mp hst
        cases hd
      · rw [h.1] at hu
        exact not_isBoundary_declarations (hplain u hu)
  · rw [nextItem_qualified hv]
    have he := ends_preludeOf (mode != .stylesheet) (v :: vs)
    rw [qualifiedRule_eq he]
    generalize hvs : v :: vs = ws at he ⊢
    generalize preludeOf (mode != .stylesheet) ws = r at he ⊢
    cases he with
    | @block pre contents rest hp =>
        cases pre with
        | nil =>
            cases hvs
            exact Or.inl ⟨_, rfl, .qualified hv (List.nil_append _).symm hp⟩
        | cons u pre =>
            cases hvs
            exact Or.inl ⟨v :: (pre ++ [.block (.bracket .curly) contents]), by simp,
              .qualified hv (List.cons_append ..).symm hp⟩
    | @semicolon pre rest hmode hp =>
        cases pre with
        | nil =>
            cases hvs
            exact Or.inl ⟨_, rfl, .givenUp hv (List.nil_append _).symm hmode hp⟩
        | cons u pre =>
            cases hvs
            exact Or.inl ⟨v :: (pre ++ [.token .semicolon]), by simp,
              .givenUp hv (List.cons_append ..).symm hmode hp⟩
    | nothing hp => exact Or.inr ⟨rfl, by rintro _ ⟨⟩, not_isBoundary_of_plain hp bne_iff_ne.mpr⟩

theorem Piece.exists_cons (h : Piece mode us item) : ∃ v ws, us = v :: ws := by
  cases h <;> exact ⟨_, _, rfl⟩

/-- Less is left behind the first item. -/
theorem sizeOf_nextItem_lt (mode : ContentForm) (v : ComponentValue) (vs : List ComponentValue) :
    sizeOf (nextItem mode v vs).2 < sizeOf (v :: vs) := by
  rcases piece_or_open mode v vs with ⟨us, hus, hp⟩ | ⟨hrest, -⟩
  · obtain ⟨u, ws, rfl⟩ := hp.exists_cons
    rw [List.cons_append, List.cons.injEq] at hus
    have hle : ∀ ws : List ComponentValue,
        sizeOf (nextItem mode v vs).2 ≤ sizeOf (ws ++ (nextItem mode v vs).2) := by
      intro ws
      induction ws with
      | nil => exact Nat.le_refl _
      | cons w ws ih =>
          rw [List.cons_append, List.cons.sizeOf_spec]
          omega
    have := hle ws
    rw [← hus.2] at this
    rw [List.cons.sizeOf_spec]
    omega
  · rw [hrest]
    cases vs <;> simp only [List.cons.sizeOf_spec, List.nil.sizeOf_spec] <;> omega

/-- Behind a boundary, what follows is split for itself. -/
theorem split_append_of_isBoundary {w : ComponentValue} (hw : IsBoundary mode w)
    (us rest : List ComponentValue) :
    split mode (us ++ w :: rest) = split mode (us ++ [w]) ++ split mode rest := by
  obtain ⟨v, vs, hvs⟩ := List.exists_cons_of_ne_nil (l := us ++ [w]) (by simp)
  rcases piece_or_open mode v vs with ⟨ps, hps, hpiece⟩ | ⟨-, -, hopen⟩
  · generalize (nextItem mode v vs).2 = r at hps
    have hall : us ++ [w] = ps ++ r := hvs.trans hps
    rcases List.eq_nil_or_concat r with rfl | ⟨us', u, rfl⟩
    · have hwhole : us ++ w :: rest = ps ++ rest := by
        rw [← List.append_nil ps, ← hall, List.append_assoc, List.singleton_append]
      rw [hwhole, hall, split_piece hpiece, split_piece hpiece, split, List.append_nil]
    · rw [List.concat_eq_append, ← List.append_assoc] at hall
      obtain ⟨hus, hu⟩ := List.append_inj' hall rfl
      cases hu
      have hlt : us'.length < us.length := by
        obtain ⟨p, ps', rfl⟩ := hpiece.exists_cons
        rw [hus, List.length_append, List.length_cons]
        omega
      rw [hus, List.append_assoc, List.append_assoc, split_piece hpiece, split_piece hpiece,
        split_append_of_isBoundary hw us' rest, List.append_assoc]
  · exact absurd hw (hopen w (hvs ▸ List.mem_append_right _ (List.mem_singleton_self _)))
termination_by us.length

theorem split_append_of_semicolon (hmode : mode ≠ .stylesheet) (us rest : List ComponentValue) :
    split mode (us ++ .token .semicolon :: rest) =
      split mode (us ++ [.token .semicolon]) ++ split mode rest :=
  split_append_of_isBoundary (.semicolon hmode) us rest

/-! ## Turn by turn -/

/-- One turn of the splitting: the item at the front, if there is one, and what is left behind it. -/
def turn (mode : ContentForm) : List ComponentValue → Option Item × List ComponentValue
  | [] => (none, [])
  | v :: vs => nextItem mode v vs

/-- What is left behind one turn. -/
def behind (mode : ContentForm) (vs : List ComponentValue) : List ComponentValue := (turn mode vs).2

theorem length_behind (mode : ContentForm) (vs : List ComponentValue) :
    (behind mode vs).length ≤ vs.length - 1 := by
  cases vs with
  | nil => exact Nat.le_refl _
  | cons v vs => exact nextItem_length mode v vs

theorem split_eq_turn (mode : ContentForm) (vs : List ComponentValue) :
    split mode vs = (turn mode vs).1.toList ++ split mode (behind mode vs) := by
  cases vs with
  | nil => simp only [split, turn, Option.toList_none, behind, List.append_nil]
  | cons v vs => rw [split, turn, behind, turn]

/-- With as many turns as there are values nothing is left, and every item was found in one of them. -/
theorem split_eq_turns {n : Nat} : ∀ {vs : List ComponentValue}, vs.length ≤ n →
    (behind mode)^[n] vs = [] ∧
      split mode vs = (List.range n).filterMap fun k => (turn mode ((behind mode)^[k] vs)).1 := by
  induction n with
  | zero =>
      intro vs h
      obtain rfl := List.length_eq_zero_iff.mp (Nat.le_zero.mp h)
      exact ⟨rfl, by rw [split]; rfl⟩
  | succ n ih =>
      intro vs h
      have hshort : (behind mode vs).length ≤ n := Nat.le_trans (length_behind mode vs) (Nat.sub_le_of_le_add h)
      obtain ⟨hnil, hsplit⟩ := ih hshort
      refine ⟨hnil, ?_⟩
      rw [split_eq_turn, hsplit, List.range_succ_eq_map, List.filterMap_cons, List.filterMap_map]
      cases hfirst : (turn mode vs).1 <;> simp [Function.iterate_succ_apply, hfirst, Function.comp_def]

/-- What follows a boundary is split for itself, whatever stands in front; and there are at most as many turns
as values, each with at most one item. -/
theorem split_recovers (mode : ContentForm) (us : List ComponentValue) :
    (∀ w ∈ us.getLast?, IsBoundary mode w →
      ∀ vs, split mode (us ++ vs) = split mode us ++ split mode vs) ∧
    (behind mode)^[us.length] us = [] ∧
    (split mode us = (List.range us.length).filterMap fun k => (turn mode ((behind mode)^[k] us)).1) ∧
    (split mode us).length ≤ us.length := by
  obtain ⟨hnil, hturns⟩ := @split_eq_turns mode us.length us (Nat.le_refl _)
  refine ⟨fun w hw hboundary vs => ?_, hnil, hturns, ?_⟩
  · obtain ⟨front, rfl⟩ := List.getLast?_eq_some_iff.mp hw
    rw [List.append_assoc, List.singleton_append]
    exact split_append_of_isBoundary hboundary front vs
  · calc (split mode us).length
      _ = ((List.range us.length).filterMap fun k => (turn mode ((behind mode)^[k] us)).1).length := by
          rw [← hturns]
      _ ≤ (List.range us.length).length := List.length_filterMap_le _ _
      _ = us.length := List.length_range

/-- A rule without a block and a declaration without a colon: both are given up at their semicolon, and the rest
is split as if they were not there. -/
theorem split_recovers_malformed :
    (IsBoundary .ruleList (.token .semicolon) ∧ ∀ vs,
      split .ruleList ([.token (.ident "a"), .token .semicolon] ++ vs) = split .ruleList vs) ∧
    IsBoundary .declarations (.token .semicolon) ∧ ∀ vs,
      split .declarations ([.token (.ident "a"), .token .semicolon] ++ vs) = split .declarations vs := by
  refine ⟨⟨.semicolon (by decide), fun vs => ?_⟩, .semicolon (by decide), fun vs => ?_⟩
  · have hnone : split .ruleList [.token (.ident "a"), .token .semicolon] = [] := by
      simp [split, nextItem, isSkipped, qualifiedRule, preludeOf, isSemicolon, Ending.block?]
    rw [(split_recovers .ruleList _).1 _ rfl (.semicolon (by decide)), hnone, List.nil_append]
  · have hnone : split .declarations [.token (.ident "a"), .token .semicolon] = [] := by
      simp [split, nextItem_declaration, untilSemicolon, isSemicolon, WrittenDeclaration.ofValues?, isBlank]
    rw [(split_recovers .declarations _).1 _ rfl (.semicolon (by decide)), hnone, List.nil_append]

/-- A piece that ends in a block is one with another block, too. -/
theorem Piece.withBlock {st : Statement} (h : Piece mode us (some (.rule st)))
    (hb : st.block = some contents) (contents' : List ComponentValue) :
    Piece mode (us.dropLast ++ [.block (.bracket .curly) contents'])
      (some (.rule { st with block := some contents' })) := by
  generalize hi : some (Item.rule st) = item at h
  cases h with
  | atBlock hp =>
      cases hi
      rw [← List.cons_append, List.dropLast_concat]
      exact .atBlock hp
  | atSemicolon hp =>
      cases hi
      cases hb
  | @qualified v us pre contents hv hus hp =>
      cases hi
      rw [hus, List.dropLast_concat]
      cases pre with
      | nil =>
          exact .qualified ⟨rfl, by rintro _ ⟨⟩, Bool.and_false _⟩ (List.nil_append _).symm hp
      | cons u pre =>
          cases hus
          exact .qualified hv (List.cons_append ..).symm hp
  | declaration hmode hus =>
      obtain ⟨d, -, hd⟩ := Option.map_eq_some_iff.mp hi.symm
      cases hd
  | _ => cases hi

end StyleTree.Statement
