/-
# `Proofs.Condition.Reading` — conditions at the front of a run

`Condition.ofValues?` gives the condition that a whole run is.  Here a
condition is read from the front of a run as a production, greedily: a
keyword calls for a term behind it, another keyword than before spoils the
condition, and anything else ends it.  What the run is as a whole is then the
condition at its front, if only blanks are left (`whole_production`).

Whether a keyword fits is decided in front of the term that it calls for, so
the two readers do not fail at the same value; they fail on the same runs.
-/
import StyleTree.Proofs.Condition.Grammar
import StyleTree.Proofs.Declaration.Combinators

namespace StyleTree

open ComponentValue

namespace Production

variable {α β : Type} {p : Production α} {q : Production β} {vs us : List ComponentValue}

theorem whole_of_none (h : p vs = none) : p.whole vs = none := by rw [whole, h]

theorem whole_of_some {a : α} {left : List ComponentValue} (h : p vs = some (a, left)) :
    p.whole vs = if left.all isBlank then some a else none := by rw [whole, h]

/-- The result is shown in another way, and what is left stays. -/
theorem whole_map {k : β → α} (h : p vs = (q us).map fun s => (k s.1, s.2)) : p.whole vs = (q.whole us).map k := by
  cases hq : q us with
  | none => rw [whole_of_none hq, whole_of_none (by rw [h, hq]; rfl)]; rfl
  | some s =>
      obtain ⟨b, left⟩ := s
      have hp : p vs = some (k b, left) := by rw [h, hq]; rfl
      rw [whole_of_some hq, whole_of_some hp]
      split <;> rfl

theorem taken_map (f : ComponentValue → Option α) (k : α → β) :
    (do let a ← taken f; pure (k a)) = taken fun v => (f v).map k := by
  funext vs
  cases hvs : vs.dropWhile isBlank with
  | nil =>
      rw [bind_apply, taken_of_nil hvs, taken_of_nil hvs]
      rfl
  | cons v left =>
      rw [bind_apply, taken_of_cons hvs, taken_of_cons hvs]
      cases f v <;> rfl

theorem whole_taken (f : ComponentValue → Option α) (vs : List ComponentValue) :
    (taken f).whole vs = match withoutBlanks vs with | [v] => f v | _ => none := by
  cases hvs : vs.dropWhile isBlank with
  | nil =>
      rw [whole_of_none (taken_of_nil hvs), ← withoutBlanks_dropWhile, hvs]
      rfl
  | cons v left =>
      rw [whole, taken_of_cons hvs, withoutBlanks_of_dropWhile hvs]
      cases hf : f v with
      | none =>
          cases withoutBlanks left with
          | nil => exact hf.symm
          | cons w ws => rfl
      | some a =>
          show (if left.all isBlank then some a else none) = _
          rw [all_isBlank]
          cases withoutBlanks left with
          | nil => exact hf.symm
          | cons w ws => rfl

end Production

namespace Condition

open Production

variable {g : Vocabulary} {T : ComponentValue → Option String} {allowOr : Bool} {k t : String}
  {v : ComponentValue} {vs left : List ComponentValue}

/-- The keyword that a value joins two terms with. -/
def joinerWord (allowOr : Bool) (v : ComponentValue) : Option String := joiner? allowOr ⟨v, none⟩

/-- The terms behind a condition, each behind a keyword, which is `keyword` if that is given; at most `fuel`. -/
def moreTerms (T : ComponentValue → Option String) (allowOr : Bool) (keyword : Option String) :
    (fuel : Nat) → Production String
  | 0 => pure ""
  | fuel + 1 => fun vs =>
    match taken (joinerWord allowOr) vs with
    | none => some ("", vs)
    | some (k, rest) =>
      if keyword.isNone || keyword = some k then
        (taken T rest).bind fun r =>
          (moreTerms T allowOr (some k) fuel r.2).map fun s => (" " ++ k ++ " " ++ r.1 ++ s.1, s.2)
      else none

/-- The condition at the front of a run; what the terms are is told by `T`. -/
def production (T : ComponentValue → Option String) (allowOr : Bool) : Production String := fun vs =>
  match Production.word "not" vs with
  | some (_, rest) => (taken T rest).map fun r => ("not " ++ r.1, r.2)
  | none => (taken T vs).bind fun r => (moreTerms T allowOr none vs.length r.2).map fun s => (r.1 ++ s.1, s.2)

/-- What the reader of a whole run makes of a keyword and the term behind it. -/
theorem joinedTerms_cons_cons (keyword : Option String) (p q : Operand) (ps : List Operand) :
    joinedTerms allowOr keyword (p :: q :: ps) = (joiner? allowOr p).bind fun k => q.term.bind fun t =>
      if keyword.isNone || keyword = some k then (joinedTerms allowOr (some k) ps).map (" " ++ k ++ " " ++ t ++ ·)
      else none := by
  rw [joinedTerms]
  refine Option.bind_congr fun k _ => Option.bind_congr fun t _ => ?_
  split
  · rw [Option.map_eq_bind]
    rfl
  · rfl

theorem joinedTerms_of_not_joiner {p : Operand} (h : joiner? allowOr p = none) (keyword : Option String)
    (ps : List Operand) : joinedTerms allowOr keyword (p :: ps) = none := by
  cases ps with
  | nil => rfl
  | cons q ps => rw [joinedTerms_cons_cons, h, Option.bind_none]

theorem moreTerms_of_none (h : taken (joinerWord allowOr) vs = none) (keyword : Option String) (fuel : Nat) :
    moreTerms T allowOr keyword (fuel + 1) vs = some ("", vs) := by
  simp only [moreTerms, h]

theorem moreTerms_of_some (h : taken (joinerWord allowOr) vs = some (k, left)) (keyword : Option String) (fuel : Nat) :
    moreTerms T allowOr keyword (fuel + 1) vs =
      if keyword.isNone || keyword = some k then
        (taken T left).bind fun r =>
          (moreTerms T allowOr (some k) fuel r.2).map fun s => (" " ++ k ++ " " ++ r.1 ++ s.1, s.2)
      else none := by
  simp only [moreTerms, h]

theorem production_of_not {s : Unit × List ComponentValue} (h : Production.word "not" vs = some s) :
    production T allowOr vs = (taken T s.2).map fun r => ("not " ++ r.1, r.2) := by
  simp only [production, h]

theorem production_of_not_not (h : Production.word "not" vs = none) : production T allowOr vs =
    (taken T vs).bind fun r => (moreTerms T allowOr none vs.length r.2).map fun s => (r.1 ++ s.1, s.2) := by
  simp only [production, h]

theorem length_of_cons (h : vs.dropWhile isBlank = v :: left) : left.length < vs.length := by
  have hlen := (List.dropWhile_suffix (l := vs) isBlank).length_le
  rwa [h, List.length_cons] at hlen

theorem whole_moreTerms (keyword : Option String) {fuel : Nat} (hfuel : vs.length ≤ fuel) :
    (moreTerms (term g) allowOr keyword fuel).whole vs =
      joinedTerms allowOr keyword ((withoutBlanks vs).map (operandOf g)) := by
  induction fuel generalizing vs keyword with
  | zero =>
      obtain rfl : vs = [] := List.length_eq_zero_iff.mp (Nat.le_zero.mp hfuel)
      rfl
  | succ fuel ih =>
      cases hvs : vs.dropWhile isBlank with
      | nil =>
          have hblank := withoutBlanks_of_dropWhile_nil hvs
          have hstop : moreTerms (term g) allowOr keyword (fuel + 1) vs = some ("", vs) := by
            simp only [moreTerms, taken_of_nil hvs]
          rw [whole_of_some hstop, all_isBlank, hblank]
          rfl
      | cons v left =>
          have hword := taken_of_cons (f := joinerWord allowOr) hvs
          rw [withoutBlanks_of_dropWhile hvs, List.map_cons]
          cases hjoiner : joinerWord allowOr v with
          | none =>
              have hjoin : joiner? allowOr (operandOf g v) = none := hjoiner
              rw [hjoiner] at hword
              rw [whole_of_some (moreTerms_of_none hword keyword fuel), all_isBlank, withoutBlanks_of_dropWhile hvs,
                joinedTerms_of_not_joiner hjoin]
              rfl
          | some k =>
              have hjoin : joiner? allowOr (operandOf g v) = some k := hjoiner
              rw [hjoiner] at hword
              have hmore := moreTerms_of_some (T := term g) hword keyword fuel
              cases hleft : left.dropWhile isBlank with
              | nil =>
                  have hblank := withoutBlanks_of_dropWhile_nil hleft
                  rw [taken_of_nil hleft] at hmore
                  rw [whole_of_none (hmore.trans (ite_self none)), hblank]
                  rfl
              | cons w rest =>
                  have hshort := (length_of_cons hleft).trans (length_of_cons hvs)
                  have hterm : (operandOf g w).term = term g w := rfl
                  rw [taken_of_cons hleft] at hmore
                  rw [withoutBlanks_of_dropWhile hleft, List.map_cons, joinedTerms_cons_cons, hjoin, Option.bind_some,
                    hterm]
                  cases ht : term g w with
                  | none =>
                      rw [ht] at hmore
                      exact whole_of_none (hmore.trans (ite_self none))
                  | some t =>
                      rw [ht] at hmore
                      rw [Option.bind_some]
                      split
                      · next hfits =>
                          rw [if_pos hfits] at hmore
                          rw [← ih (some k) (show rest.length ≤ fuel by omega)]
                          exact whole_map hmore
                      · next hfits =>
                          rw [if_neg hfits] at hmore
                          exact whole_of_none hmore

/-- A whole run is a condition if its front is one and nothing but blanks is left. -/
theorem whole_production (g : Vocabulary) (allowOr : Bool) (vs : List ComponentValue) :
    (production (term g) allowOr).whole vs = ofValues? g allowOr vs := by
  rw [ofValues?, dense_operands]
  cases hvs : vs.dropWhile isBlank with
  | nil =>
      have hblank := withoutBlanks_of_dropWhile_nil hvs
      have hnone : production (term g) allowOr vs = none := by
        rw [production_of_not_not (taken_of_nil hvs), taken_of_nil hvs, Option.bind_none]
      rw [whole_of_none hnone, hblank]
      rfl
  | cons v left =>
      rw [withoutBlanks_of_dropWhile hvs, List.map_cons]
      have hshort := length_of_cons hvs
      cases hnot : v.isWord "not" with
      | true =>
          have hword : Production.word "not" vs = some ((), left) := by
            rw [Production.word, taken_of_cons hvs, hnot]
            rfl
          have hread : production (term g) allowOr vs = _ := production_of_not hword
          rw [whole_map hread, whole_taken]
          show _ = if v.isWord "not" = true then _ else _
          rw [if_pos hnot]
          rcases withoutBlanks left with _ | ⟨w, _ | ⟨x, ws⟩⟩ <;> rfl
      | false =>
          have hword : Production.word "not" vs = none := by
            rw [Production.word, taken_of_cons hvs, hnot]
            rfl
          have hread : production (term g) allowOr vs = _ := production_of_not_not hword
          rw [taken_of_cons hvs] at hread
          show _ = if v.isWord "not" = true then _ else
            (term g v).bind fun t => (joinedTerms allowOr none _).bind fun more => some (t ++ more)
          rw [hnot, if_neg Bool.false_ne_true]
          cases ht : term g v with
          | none =>
              rw [ht] at hread
              exact whole_of_none hread
          | some t =>
              rw [ht] at hread
              rw [whole_map hread, whole_moreTerms none (Nat.le_of_lt hshort), Option.map_eq_bind]
              rfl

end Condition

end StyleTree
