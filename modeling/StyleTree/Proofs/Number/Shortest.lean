/-
# `Proofs.Number.Shortest` — the shortest decimal is near

The search goes through the grids from the leading digit of a number down,
nine of them, and takes the first that has a decimal in the interval of the
number.  Such a decimal is off by at most half a unit of the last binary
place (`readsBack_near`).  If there is none, the number is cut behind its
ninth digit, which makes less of a difference.  So the decimal is near in
any case, and has no digits behind the ninth place (`shortest_spec`); that
one of the grids must have a decimal is not needed for it.
-/
import StyleTree.Proofs.Number.Decimal

namespace StyleTree.Number

variable {m num den : Nat} {e grid : Int} {d : Decimal}

open Magnitude (scaledUp scaledDown)

/-! ## Decimals that read back -/

theorem Decimal.quotient_rational (d : Decimal) :
    0 < d.quotient.2 ∧ (d.quotient.1 : ℚ) / d.quotient.2 = d.rational := by
  have hten := zpow_eq_div 10 (by decide) d.exponent
  rw [Nat.cast_ofNat] at hten
  refine ⟨Nat.pow_pos (by decide), ?_⟩
  rw [quotient, rational, Nat.cast_mul, mul_div_assoc, ← hten]

/-- A decimal in the interval of a number is off by at most half a unit of the last place. -/
theorem readsBack_near (hm : 0 < m) (h : readsBack m e d = true) :
    |d.rational - m * (2 : ℚ) ^ e| ≤ (2 : ℚ) ^ (e - 1) := by
  have htwo : (2 : ℚ) ≠ 0 := by norm_num
  obtain ⟨hden, hvalue⟩ := d.quotient_rational
  have hquarters := div_zpow_eq 2 (by decide) d.quotient.1 d.quotient.2 (e - 2)
  rw [Nat.cast_ofNat, hvalue, Int.neg_sub] at hquarters
  unfold readsBack at h
  simp only [Bool.and_eq_true, decide_eq_true_eq] at h
  rw [mul_comm (Nat.pow 2 (e - 2).toNat)] at h
  obtain ⟨hlow, hhigh⟩ := h
  have hpos : (0 : ℚ) < (d.quotient.2 * Nat.pow 2 (e - 2).toNat : Nat) := by
    exact_mod_cast Nat.mul_pos hden (Nat.pow_pos (by decide))
  generalize d.quotient.2 * Nat.pow 2 (e - 2).toNat = unit at *
  generalize d.quotient.1 * Nat.pow 2 (2 - e).toNat = value at *
  have hlow : (lowerEnd m e : ℚ) * unit < value := by exact_mod_cast hlow
  have hhigh : (value : ℚ) < upperEnd m * unit := by exact_mod_cast hhigh
  rw [← lt_div_iff₀ hpos, hquarters] at hlow
  rw [← div_lt_iff₀ hpos, hquarters] at hhigh
  have hquarter : (0 : ℚ) < (2 : ℚ) ^ (e - 2) := by positivity
  have hunit : (2 : ℚ) ^ e = 4 * (2 : ℚ) ^ (e - 2) ∧ (2 : ℚ) ^ (e - 1) = 2 * (2 : ℚ) ^ (e - 2) := by
    have hone : e - 1 = (e - 2) + 1 := by ring
    have htwice : e = (e - 2) + 2 := by ring
    constructor
    · conv_lhs => rw [htwice, zpow_add₀ htwo]
      ring
    · rw [hone, zpow_add_one₀ htwo]
      ring
  rw [lt_div_iff₀ hquarter] at hlow
  rw [div_lt_iff₀ hquarter] at hhigh
  have hends : (4 : ℚ) * m ≤ lowerEnd m e + 2 := by exact_mod_cast (lowerEnd_bounds hm e).1
  have hupper : (upperEnd m : ℚ) = 4 * m + 2 := by
    unfold upperEnd
    push_cast
    rfl
  have hlow' := mul_le_mul_of_nonneg_right hends hquarter.le
  rw [hunit.1, hunit.2, abs_le]
  rw [hupper] at hhigh
  constructor <;> linarith

theorem onGrid_spec (h : onGrid m e grid = some d) : d.exponent = grid ∧ readsBack m e d = true := by
  unfold onGrid neighbours at h
  simp only at h
  split at h
  · next ha hb =>
      split at h
      all_goals
        cases h
        exact ⟨rfl, by assumption⟩
  · next ha _ =>
      cases h
      exact ⟨rfl, ha⟩
  · next _ hb =>
      cases h
      exact ⟨rfl, hb⟩
  · cases h

/-! ## The leading digit -/

/-- The lengths of the numerals tell where the leading digit of a quotient stands. -/
theorem powerAbove_spec (hnum : 0 < num) (hden : 0 < den) :
    (10 : ℚ) ^ (powerAbove num den - 1) ≤ num / den ∧ (num : ℚ) / den < (10 : ℚ) ^ powerAbove num den := by
  have hten : (10 : ℚ) ≠ 0 := by norm_num
  have hd : (0 : ℚ) < den := by exact_mod_cast hden
  have hlow : ∀ {n : Nat}, 0 < n → (10 : ℚ) ^ ((Decimal.lengthOf n : Int) - 1) ≤ n := fun {n} hn => by
    have hlength := lengthOf_pos n
    have hcast : (Decimal.lengthOf n : Int) - 1 = (Decimal.lengthOf n - 1 : Nat) := by omega
    rw [hcast, zpow_natCast]
    exact_mod_cast pow_lengthOf_le hn
  have hhigh : ∀ n : Nat, (n : ℚ) < (10 : ℚ) ^ (Decimal.lengthOf n : Int) := fun n => by
    rw [zpow_natCast]
    exact_mod_cast lt_pow_lengthOf n
  have hfrom : (10 : ℚ) ^ ((Decimal.lengthOf num : Int) - Decimal.lengthOf den - 1) ≤ num / den := by
    rw [le_div_iff₀ hd]
    calc (10 : ℚ) ^ ((Decimal.lengthOf num : Int) - Decimal.lengthOf den - 1) * den
        ≤ (10 : ℚ) ^ ((Decimal.lengthOf num : Int) - Decimal.lengthOf den - 1) *
            (10 : ℚ) ^ (Decimal.lengthOf den : Int) := by
          have := hhigh den
          gcongr
      _ = (10 : ℚ) ^ ((Decimal.lengthOf num : Int) - 1) := by
          rw [← zpow_add₀ hten]
          congr 1
          ring
      _ ≤ num := hlow hnum
  have hto : (num : ℚ) / den < (10 : ℚ) ^ ((Decimal.lengthOf num : Int) - Decimal.lengthOf den + 1) := by
    rw [div_lt_iff₀ hd]
    calc (num : ℚ) < (10 : ℚ) ^ (Decimal.lengthOf num : Int) := hhigh num
      _ = (10 : ℚ) ^ ((Decimal.lengthOf num : Int) - Decimal.lengthOf den + 1) *
            (10 : ℚ) ^ ((Decimal.lengthOf den : Int) - 1) := by
          rw [← zpow_add₀ hten]
          congr 1
          ring
      _ ≤ (10 : ℚ) ^ ((Decimal.lengthOf num : Int) - Decimal.lengthOf den + 1) * den := by
          have := hlow hden
          gcongr
  unfold powerAbove
  simp only
  generalize (Decimal.lengthOf num : Int) - Decimal.lengthOf den = k at *
  have htest : num * Nat.pow 10 (-k).toNat < den * Nat.pow 10 k.toNat ↔ (num : ℚ) / den < (10 : ℚ) ^ k := by
    have hunits := div_zpow_eq 10 (by decide) num den k
    have hpos : (0 : ℚ) < (den * Nat.pow 10 k.toNat : Nat) := by
      exact_mod_cast Nat.mul_pos hden (Nat.pow_pos (by decide))
    rw [Nat.cast_ofNat] at hunits
    have hpower : (0 : ℚ) < (10 : ℚ) ^ k := by positivity
    rw [← div_lt_one hpower, ← hunits, div_lt_one hpos, Nat.cast_lt]
  by_cases h : num * Nat.pow 10 (-k).toNat < den * Nat.pow 10 k.toNat
  · rw [if_pos h]
    exact ⟨hfrom, htest.mp h⟩
  · rw [if_neg h, add_sub_cancel_right]
    exact ⟨le_of_not_gt fun h' => h (htest.mpr h'), hto⟩

/-! ## The search -/

/-- The decimal of a number is near, and there are no digits in it behind the ninth of the number. -/
theorem shortest_spec (hm : 2 ^ 23 ≤ m) (e : Int) :
    |(shortest m e).rational - m * (2 : ℚ) ^ e| ≤ m * (2 : ℚ) ^ e / 2 ^ 24 ∧
      (m : ℚ) * (2 : ℚ) ^ e < (10 : ℚ) ^ ((shortest m e).exponent + 9) := by
  have hten : (10 : ℚ) ≠ 0 := by norm_num
  have hden := Magnitude.scaledDown_pos e
  have hvalue := Magnitude.scaled_div m e
  have hm' : (2 : ℚ) ^ 23 ≤ m := by exact_mod_cast hm
  have hunit : (0 : ℚ) < (2 : ℚ) ^ e := by positivity
  have hpos : (0 : ℚ) < m * (2 : ℚ) ^ e := mul_pos (lt_of_lt_of_le (by positivity) hm') hunit
  have hnum : 0 < scaledUp m e := Nat.mul_pos (lt_of_lt_of_le (by decide) hm) (Nat.pow_pos (by decide))
  obtain ⟨hlow, hhigh⟩ := powerAbove_spec hnum hden
  rw [hvalue] at hlow hhigh
  unfold shortest
  simp only
  generalize powerAbove (scaledUp m e) (scaledDown e) = top at *
  split
  · next d hfind =>
      obtain ⟨n, hn, hd⟩ := List.exists_of_findSome?_eq_some hfind
      rw [List.mem_range] at hn
      obtain ⟨hexp, hback⟩ := onGrid_spec hd
      have hnear : |d.rational - m * (2 : ℚ) ^ e| ≤ m * (2 : ℚ) ^ e / 2 ^ 24 := by
        refine le_trans (readsBack_near (lt_of_lt_of_le (by decide) hm) hback) ?_
        rw [zpow_sub_one₀ (by norm_num), le_div_iff₀ (by positivity)]
        have := mul_le_mul_of_nonneg_right hm' hunit.le
        linarith
      have hdigits : 0 < d.digits := Nat.pos_of_ne_zero fun h0 => by
        rw [Decimal.rational, h0, Nat.cast_zero, zero_mul, zero_sub, abs_neg, abs_of_pos hpos,
          le_div_iff₀ (by positivity)] at hnear
        linarith
      obtain ⟨hsame, hstrip⟩ := Decimal.strip_spec 9 d.digits d.exponent
      have hraised := hstrip 0 (Nat.zero_le _) hdigits (one_dvd _)
      rw [hsame]
      refine ⟨hnear, lt_of_lt_of_le hhigh (zpow_le_zpow_right₀ (by norm_num) ?_)⟩
      omega
  · have hcut := div_zpow_eq 10 (by decide) (scaledUp m e) (scaledDown e) (top - 9)
    rw [Nat.cast_ofNat, hvalue] at hcut
    have hdiv : 0 < scaledDown e * Nat.pow 10 (top - 9).toNat := Nat.mul_pos hden (Nat.pow_pos (by decide))
    generalize scaledUp m e * Nat.pow 10 (-(top - 9)).toNat = a at *
    generalize scaledDown e * Nat.pow 10 (top - 9).toNat = b at *
    have hb : (0 : ℚ) < b := by exact_mod_cast hdiv
    have hgrid : (0 : ℚ) < (10 : ℚ) ^ (top - 9) := by positivity
    rw [eq_div_iff hgrid.ne'] at hcut
    have hfloor : ((a / b : Nat) : ℚ) ≤ a / b := by
      rw [le_div_iff₀ hb]
      exact_mod_cast Nat.div_mul_le_self a b
    have hfloor' : (a : ℚ) / b < (a / b : Nat) + 1 := by
      rw [div_lt_iff₀ hb]
      exact_mod_cast Nat.lt_mul_of_div_lt (Nat.lt_succ_self _) hdiv
    have hsmall : (10 : ℚ) ^ (top - 9) * 10 ^ 8 ≤ m * (2 : ℚ) ^ e := by
      have hsplit : top - 1 = top - 9 + (8 : Nat) := by
        push_cast
        ring
      rw [← zpow_natCast, ← zpow_add₀ hten, ← hsplit]
      exact hlow
    have hless := mul_le_mul_of_nonneg_right hfloor hgrid.le
    have hmore := mul_lt_mul_of_pos_right hfloor' hgrid
    refine ⟨?_, by rwa [sub_add_cancel]⟩
    rw [Decimal.rational, abs_le]
    constructor <;> linarith

end StyleTree.Number
