/-
# `Proofs.Number.Errors` — how far a sum, a product or a quotient is off

`x.Within r ε` says that a magnitude is finite and at most `ε` away from the
rational `r`.  Every operation on magnitudes adds to that what its one
rounding may amount to, which is a fraction of the result and, below the
normal range of the precision, half a unit of its least exponent.  So no
case of zero or of a number too small has to be told apart.
-/
import StyleTree.Proofs.Number.Whole

namespace StyleTree.Number

open Magnitude (scaledUp scaledDown)

variable {p : Precision} {x y : Magnitude} {num den k : Nat} {r a b α β : ℚ}

/-- The magnitude is finite and no further from the rational than that. -/
def Magnitude.Within (x : Magnitude) (r ε : ℚ) : Prop := ∃ m e, x = .finite m e ∧ |(m : ℚ) * (2 : ℚ) ^ e - r| ≤ ε

theorem Magnitude.Within.mono {ε ε' : ℚ} (h : x.Within r ε) (hε : ε ≤ ε') : x.Within r ε' := by
  obtain ⟨m, e, hx, hnear⟩ := h
  exact ⟨m, e, hx, le_trans hnear hε⟩

theorem Magnitude.within_whole (n : Nat) : (Magnitude.finite n 0).Within n 0 :=
  ⟨n, 0, rfl, by rw [zpow_zero, mul_one, sub_self, abs_zero]⟩

namespace Precision

/-- There are exponents for all numbers in use. -/
structure IsWide (p : Precision) : Prop where
  bits : 0 < p.bits
  least : p.leastExponent ≤ -99
  greatest : 61 ≤ p.greatestExponent

theorem isWide_double : double.IsWide := ⟨by decide, by decide, by decide⟩

theorem isWide_single : single.IsWide := ⟨by decide, by decide, by decide⟩

/-- What one rounding may amount to. -/
def slack (p : Precision) (r : ℚ) : ℚ := r / 2 ^ p.bits + 1 / 2 ^ 100

theorem slack_double (r : ℚ) : double.slack r = r / 2 ^ 53 + 1 / 2 ^ 100 := rfl

theorem slack_single (r : ℚ) : single.slack r = r / 2 ^ 24 + 1 / 2 ^ 100 := rfl

theorem slack_mono (p : Precision) (h : a ≤ b) : p.slack a ≤ p.slack b := by
  unfold slack
  gcongr

/-- A quotient that is not too large is rounded to a finite magnitude, whether it is in the normal range or not. -/
theorem IsWide.round (hp : p.IsWide) (hden : 0 < den) (hr : (num : ℚ) / den = r) (hmax : r < 2 ^ 60) :
    (p.round num den).Within r (p.slack r) := by
  have htwo : (2 : ℚ) ≠ 0 := by norm_num
  have htiny : (0 : ℚ) < 1 / 2 ^ 100 := by norm_num
  rcases Nat.eq_zero_or_pos num with rfl | hnum
  · refine ⟨0, 0, if_pos rfl, ?_⟩
    rw [Nat.cast_zero, zero_div] at hr
    rw [← hr, slack, Nat.cast_zero, zero_mul, sub_zero, abs_zero, zero_div, zero_add]
    exact htiny.le
  obtain ⟨z, hz, hlow, -⟩ := p.unitExponent_cases hnum hden
  obtain ⟨hunits, -⟩ := @inUnits_spec num _ hden (max z p.leastExponent)
  rw [hr] at hlow hunits
  unfold Precision.round
  rw [if_neg (by simpa using hnum.ne')]
  simp only [hz]
  generalize inUnits num den (max z p.leastExponent) = n at hunits ⊢
  have hexp : max z p.leastExponent < p.greatestExponent := by
    have hbits := hp.bits
    have hleast := hp.least
    have hgreatest := hp.greatest
    have hlt : (2 : ℚ) ^ (z + p.bits - 1) < (2 : ℚ) ^ (60 : Int) := lt_of_le_of_lt hlow (by exact_mod_cast hmax)
    rw [zpow_lt_zpow_iff_right₀ (by norm_num)] at hlt
    omega
  have hhalf : 1 / 2 * (2 : ℚ) ^ (max z p.leastExponent) ≤ p.slack r := by
    have hpos : (0 : ℚ) < r / 2 ^ p.bits := div_pos (lt_of_lt_of_le (by positivity) hlow) (by positivity)
    unfold slack
    rcases Int.le_total p.leastExponent z with hle | hle
    · rw [max_eq_left hle]
      have hbit : (2 : ℚ) ^ (z + p.bits - 1) = 1 / 2 * (2 : ℚ) ^ z * 2 ^ p.bits := by
        rw [zpow_sub_one₀ htwo, zpow_add₀ htwo, zpow_natCast]
        ring
      rw [hbit, ← le_div_iff₀ (by positivity)] at hlow
      linarith
    · rw [max_eq_right hle]
      have hsmall : (2 : ℚ) ^ p.leastExponent ≤ (2 : ℚ) ^ (-99 : Int) := zpow_le_zpow_right₀ (by norm_num) hp.least
      norm_num at hsmall ⊢
      linarith
  generalize max z p.leastExponent = e at *
  have hunit : (0 : ℚ) < (2 : ℚ) ^ e := by positivity
  have hoff : |(n : ℚ) * (2 : ℚ) ^ e - r| ≤ p.slack r := by
    have hscaled : (n : ℚ) * (2 : ℚ) ^ e - r = (n - r / (2 : ℚ) ^ e) * (2 : ℚ) ^ e := by field_simp
    rw [hscaled, abs_mul, abs_of_pos hunit]
    refine le_trans ?_ hhalf
    gcongr
  obtain ⟨m, f, hpack, hvalue, hparts⟩ := p.pack_eq hp.bits n e
  rw [← hvalue] at hoff
  by_cases hzero : m = 0
  · refine ⟨0, 0, by rw [hpack, if_pos hzero]; rfl, ?_⟩
    rw [hzero, Nat.cast_zero, zero_mul] at hoff
    rwa [Nat.cast_zero, zero_mul]
  · refine ⟨m, f, ?_, hoff⟩
    rw [hpack, if_neg hzero, if_neg]
    omega

/-! ## Operations -/

theorem IsWide.add (hp : p.IsWide) (hx : x.Within a α) (hy : y.Within b β) (hmax : a + b + (α + β) < 2 ^ 60) :
    (p.add x y).Within (a + b) (α + β + p.slack (a + b + (α + β))) := by
  obtain ⟨m, e, rfl, hx⟩ := hx
  obtain ⟨m', e', rfl, hy⟩ := hy
  obtain ⟨hden, hquotient⟩ := add_quotient m m' e e'
  rw [abs_le] at hx hy
  have hle : (m : ℚ) * (2 : ℚ) ^ e + m' * (2 : ℚ) ^ e' ≤ a + b + (α + β) := by linarith
  obtain ⟨n, f, hround, hnear⟩ := hp.round hden hquotient (lt_of_le_of_lt hle hmax)
  refine ⟨n, f, hround, ?_⟩
  have hslack := p.slack_mono hle
  rw [abs_le] at hnear ⊢
  constructor <;> linarith

theorem IsWide.mul (hp : p.IsWide) (hx : x.Within a α) (hy : y.Within b β) (ha : 0 ≤ a) (hb : 0 ≤ b)
    (hmax : a * b + (α * b + a * β + α * β) < 2 ^ 60) :
    (p.mul x y).Within (a * b) (α * b + a * β + α * β + p.slack (a * b + (α * b + a * β + α * β))) := by
  obtain ⟨m, e, rfl, hx⟩ := hx
  obtain ⟨m', e', rfl, hy⟩ := hy
  obtain ⟨hden, hquotient⟩ := mul_quotient m m' e e'
  generalize (m : ℚ) * (2 : ℚ) ^ e = u at hx hquotient
  generalize (m' : ℚ) * (2 : ℚ) ^ e' = v at hy hquotient
  have hoff : |u * v - a * b| ≤ α * b + a * β + α * β := by
    have hα : 0 ≤ α := le_trans (abs_nonneg _) hx
    have hsplit : u * v - a * b = (u - a) * b + a * (v - b) + (u - a) * (v - b) := by ring
    rw [hsplit]
    refine le_trans (abs_add_le _ _) (add_le_add (le_trans (abs_add_le _ _) (add_le_add ?_ ?_)) ?_)
    · rw [abs_mul, abs_of_nonneg hb]
      gcongr
    · rw [abs_mul, abs_of_nonneg ha]
      gcongr
    · rw [abs_mul]
      gcongr
  rw [abs_le] at hoff
  have hle : u * v ≤ a * b + (α * b + a * β + α * β) := by linarith
  obtain ⟨n, f, hround, hnear⟩ := hp.round hden hquotient (lt_of_le_of_lt hle hmax)
  refine ⟨n, f, hround, ?_⟩
  have hslack := p.slack_mono hle
  rw [abs_le] at hnear ⊢
  constructor <;> linarith

theorem IsWide.divNat (hp : p.IsWide) (hx : x.Within a α) (hk : 0 < k) (hmax : (a + α) / k < 2 ^ 60) :
    (p.divNat x k).Within (a / k) (α / k + p.slack ((a + α) / k)) := by
  obtain ⟨m, e, rfl, hx⟩ := hx
  obtain ⟨hpos, hquotient⟩ := divNat_quotient m e hk
  have hk' : (0 : ℚ) < k := by exact_mod_cast hk
  rw [abs_le] at hx
  have hle : (m : ℚ) * (2 : ℚ) ^ e / k ≤ (a + α) / k := by
    gcongr
    linarith
  have hge : (a - α) / k ≤ (m : ℚ) * (2 : ℚ) ^ e / k := by
    gcongr
    linarith
  obtain ⟨n, f, hround, hnear⟩ := hp.round hpos hquotient (lt_of_le_of_lt hle hmax)
  refine ⟨n, f, hround, ?_⟩
  have hslack := p.slack_mono hle
  rw [add_div] at hle
  rw [sub_div] at hge
  rw [abs_le] at hnear ⊢
  constructor <;> linarith

theorem IsWide.convert (hp : p.IsWide) (hx : x.Within a α) (hmax : a + α < 2 ^ 60) :
    (p.convert x).Within a (α + p.slack (a + α)) := by
  obtain ⟨m, e, rfl, hx⟩ := hx
  rw [abs_le] at hx
  have hle : (m : ℚ) * (2 : ℚ) ^ e ≤ a + α := by linarith
  obtain ⟨n, f, hround, hnear⟩ := hp.round (Magnitude.scaledDown_pos e) (Magnitude.scaled_div m e) (lt_of_le_of_lt hle hmax)
  refine ⟨n, f, hround, ?_⟩
  have hslack := p.slack_mono hle
  rw [abs_le] at hnear ⊢
  constructor <;> linarith

end Precision

end StyleTree.Number
