/-
# `Proofs.Number.Whole` — whole numbers in binary

Whole numbers of less than 53 bits are exact in double precision, so their
sums and products are again the magnitudes of whole numbers (`add_ofNat`,
`mul_ofNat`).  In single precision a whole number is off by what three
roundings amount to, whether it is kept itself or as a percentage
(`isNear_convert`, `isNear_percent`); that is little enough for it to be
written as it is, if it has at most six significant digits (`write_whole`).
-/
import StyleTree.Proofs.Number.Decimal

namespace StyleTree.Number

open Magnitude (scaledUp scaledDown)

variable {p : Precision} {m m' n n' k num den : Nat} {e e' : Int} {r : ℚ}

/-! ## Operations on finite magnitudes -/

namespace Precision

/-- A rational in the normal range of a precision. -/
def InRange (p : Precision) (r : ℚ) : Prop :=
  (2 : ℚ) ^ (p.leastExponent + p.bits - 1) ≤ r ∧ r < (2 : ℚ) ^ (p.greatestExponent + p.bits - 1)

theorem InRange.pos (h : p.InRange r) : 0 < r := lt_of_lt_of_le (by positivity) h.1

theorem inRange_double (h : (2 : ℚ) ^ (-60 : Int) ≤ r) (h' : r < (2 : ℚ) ^ (60 : Int)) : double.InRange r :=
  ⟨le_trans (zpow_le_zpow_right₀ (by norm_num) (by decide)) h,
    lt_of_lt_of_le h' (zpow_le_zpow_right₀ (by norm_num) (by decide))⟩

theorem inRange_single (h : (2 : ℚ) ^ (-60 : Int) ≤ r) (h' : r < (2 : ℚ) ^ (60 : Int)) : single.InRange r :=
  ⟨le_trans (zpow_le_zpow_right₀ (by norm_num) (by decide)) h,
    lt_of_lt_of_le h' (zpow_le_zpow_right₀ (by norm_num) (by decide))⟩

/-- The magnitude is what the rational is rounded to. -/
def Gives (p : Precision) (x : Magnitude) (r : ℚ) : Prop := ∃ m e, x = .finite m e ∧ p.Rounds r m e

theorem gives_round (hbits : 0 < p.bits) (hden : 0 < den) (hr : (num : ℚ) / den = r) (h : p.InRange r) :
    p.Gives (p.round num den) r := by
  subst hr
  have hnum : 0 < num := Nat.pos_of_ne_zero fun h0 => by
    have := h.pos
    rw [h0, Nat.cast_zero, zero_div] at this
    exact lt_irrefl _ this
  exact rounds_round p hbits hnum hden h.1 h.2

theorem gives_convert (hbits : 0 < p.bits) (h : p.InRange (m * (2 : ℚ) ^ e)) :
    p.Gives (p.convert (.finite m e)) (m * (2 : ℚ) ^ e) := by
  obtain ⟨hpos, hvalue⟩ := Magnitude.quotient_finite m e
  exact gives_round hbits hpos hvalue h

theorem divNat_quotient (m : Nat) (e : Int) (hk : 0 < k) : 0 < scaledDown e * k ∧
    (scaledUp m e : ℚ) / (scaledDown e * k : Nat) = m * (2 : ℚ) ^ e / k := by
  refine ⟨Nat.mul_pos (Magnitude.scaledDown_pos e) hk, ?_⟩
  rw [Nat.cast_mul, ← div_div, Magnitude.scaled_div]

theorem gives_divNat (hbits : 0 < p.bits) (hk : 0 < k) (h : p.InRange (m * (2 : ℚ) ^ e / k)) :
    p.Gives (p.divNat (.finite m e) k) (m * (2 : ℚ) ^ e / k) := by
  obtain ⟨hpos, hvalue⟩ := divNat_quotient m e hk
  exact gives_round hbits hpos hvalue h

theorem mul_quotient (m m' : Nat) (e e' : Int) : 0 < scaledDown e * scaledDown e' ∧
    ((scaledUp m e * scaledUp m' e' : Nat) : ℚ) / (scaledDown e * scaledDown e' : Nat) =
      m * (2 : ℚ) ^ e * (m' * (2 : ℚ) ^ e') := by
  obtain ⟨hpos, hvalue⟩ := Magnitude.quotient_finite m e
  obtain ⟨hpos', hvalue'⟩ := Magnitude.quotient_finite m' e'
  refine ⟨Nat.mul_pos hpos hpos', ?_⟩
  rw [Nat.cast_mul, Nat.cast_mul, ← div_mul_div_comm, hvalue, hvalue']
  rfl

theorem add_quotient (m m' : Nat) (e e' : Int) : 0 < scaledDown e * scaledDown e' ∧
    ((scaledUp m e * scaledDown e' + scaledUp m' e' * scaledDown e : Nat) : ℚ) / (scaledDown e * scaledDown e' : Nat) =
      m * (2 : ℚ) ^ e + m' * (2 : ℚ) ^ e' := by
  obtain ⟨hpos, hvalue⟩ := Magnitude.quotient_finite m e
  obtain ⟨hpos', hvalue'⟩ := Magnitude.quotient_finite m' e'
  have hne : (scaledDown e : ℚ) ≠ 0 := by exact_mod_cast hpos.ne'
  have hne' : (scaledDown e' : ℚ) ≠ 0 := by exact_mod_cast hpos'.ne'
  refine ⟨Nat.mul_pos hpos hpos', ?_⟩
  have hsum := div_add_div (scaledUp m e : ℚ) (scaledUp m' e' : ℚ) hne hne'
  rw [hvalue, hvalue'] at hsum
  push_cast
  rw [mul_comm (scaledUp m' e' : ℚ), ← hsum]
  rfl

theorem gives_mul (hbits : 0 < p.bits) (h : p.InRange (m * (2 : ℚ) ^ e * (m' * (2 : ℚ) ^ e'))) :
    p.Gives (p.mul (.finite m e) (.finite m' e')) (m * (2 : ℚ) ^ e * (m' * (2 : ℚ) ^ e')) := by
  obtain ⟨hpos, hvalue⟩ := mul_quotient m m' e e'
  exact gives_round hbits hpos hvalue h

end Precision

/-! ## Exact numbers -/

/-- A number has one mantissa with all bits. -/
theorem mantissa_unique {b : Nat} (hm : 2 ^ b ≤ m) (hm' : m < 2 ^ (b + 1)) (hn : 2 ^ b ≤ n) (hn' : n < 2 ^ (b + 1))
    (h : (m : ℚ) * (2 : ℚ) ^ e = n * (2 : ℚ) ^ e') : m = n ∧ e = e' := by
  have key : ∀ {m n : Nat} {e e' : Int}, 2 ^ b ≤ m → n < 2 ^ (b + 1) →
      (m : ℚ) * (2 : ℚ) ^ e = n * (2 : ℚ) ^ e' → e ≤ e' := by
    intro m n e e' hm hn h
    have hm : (2 : ℚ) ^ b ≤ m := by exact_mod_cast hm
    have hn : (n : ℚ) < 2 ^ (b + 1) := by exact_mod_cast hn
    have hlt : (2 : ℚ) ^ ((b : Int) + e) < (2 : ℚ) ^ (((b + 1 : Nat) : Int) + e') := by
      rw [zpow_add₀ (by norm_num), zpow_add₀ (by norm_num), zpow_natCast, zpow_natCast]
      calc (2 : ℚ) ^ b * (2 : ℚ) ^ e ≤ m * (2 : ℚ) ^ e := by gcongr
        _ = n * (2 : ℚ) ^ e' := h
        _ < 2 ^ (b + 1) * (2 : ℚ) ^ e' := by gcongr
    rw [zpow_lt_zpow_iff_right₀ (by norm_num)] at hlt
    omega
  obtain rfl := le_antisymm (key hm hn' h) (key hn hm' h.symm)
  have hpos : (2 : ℚ) ^ e ≠ 0 := by positivity
  refine ⟨?_, rfl⟩
  exact_mod_cast mul_right_cancel₀ hpos h

/-- What a whole number in the range of exact ones is rounded to. -/
theorem gives_whole (hn : 0 < n) (hn' : n < 2 ^ 53) (hden : 0 < den) (hr : (num : ℚ) / den = n) :
    ∃ m e, double.round num den = .finite m e ∧ 2 ^ 52 ≤ m ∧ m < 2 ^ 53 ∧ (m : ℚ) * (2 : ℚ) ^ e = n := by
  have hpos : (1 : ℚ) ≤ n := by exact_mod_cast hn
  have hmax : (n : ℚ) < 2 ^ 53 := by exact_mod_cast hn'
  have hrange : double.InRange n := Precision.inRange_double (by norm_num; linarith) (by norm_num at hmax ⊢; linarith)
  obtain ⟨m, e, hround, hrounds⟩ := Precision.gives_round (by decide) hden hr hrange
  refine ⟨m, e, hround, hrounds.normal, hrounds.bounded, hrounds.exact n 0 ?_ hn'⟩
  rw [zpow_zero, mul_one]

theorem div_one_cast (n : Nat) : (n : ℚ) / (1 : Nat) = n := by rw [Nat.cast_one, div_one]

theorem round_zero (den : Nat) : double.round 0 den = .zero := if_pos rfl

/-- A quotient that is whole and in the range of exact numbers is rounded to that number. -/
theorem round_whole (hn : n < 2 ^ 53) (hden : 0 < den) (hr : (num : ℚ) / den = n) :
    double.round num den = double.ofNat n := by
  rcases Nat.eq_zero_or_pos n with rfl | hpos
  · have hnum : num = 0 := by
      rw [Nat.cast_zero, div_eq_zero_iff] at hr
      rcases hr with hr | hr
      · exact_mod_cast hr
      · have : den = 0 := by exact_mod_cast hr
        omega
    subst hnum
    exact (round_zero den).trans (round_zero 1).symm
  · obtain ⟨m, e, hround, hm, hm', hvalue⟩ := gives_whole hpos hn hden hr
    obtain ⟨m', e', hround', hn1, hn2, hvalue'⟩ := gives_whole hpos hn Nat.one_pos (div_one_cast n)
    obtain ⟨rfl, rfl⟩ := mantissa_unique hm hm' hn1 hn2 (hvalue.trans hvalue'.symm)
    rw [hround, Precision.ofNat, hround']

/-- The magnitude of a whole number in the range of exact ones. -/
theorem ofNat_finite (hn : n < 2 ^ 53) : ∃ m e, double.ofNat n = .finite m e ∧ (m : ℚ) * (2 : ℚ) ^ e = n := by
  rcases Nat.eq_zero_or_pos n with rfl | hpos
  · refine ⟨0, 0, round_zero 1, ?_⟩
    rw [Nat.cast_zero, zero_mul]
  · obtain ⟨m, e, hround, -, -, hvalue⟩ := gives_whole hpos hn Nat.one_pos (div_one_cast n)
    exact ⟨m, e, hround, hvalue⟩

theorem add_ofNat (h : n + k < 2 ^ 53) : double.add (double.ofNat n) (.finite k 0) = double.ofNat (n + k) := by
  obtain ⟨m, e, hn, hvalue⟩ := ofNat_finite (show n < 2 ^ 53 by omega)
  obtain ⟨hpos, hquotient⟩ := Precision.add_quotient m k e 0
  rw [hn]
  refine round_whole h hpos (hquotient.trans ?_)
  rw [hvalue, zpow_zero, mul_one, Nat.cast_add]

theorem mul_ofNat (h : n * k < 2 ^ 53) (hn : n < 2 ^ 53) :
    double.mul (double.ofNat n) (.finite k 0) = double.ofNat (n * k) := by
  obtain ⟨m, e, hn, hvalue⟩ := ofNat_finite hn
  obtain ⟨hpos, hquotient⟩ := Precision.mul_quotient m k e 0
  rw [hn]
  refine round_whole h hpos (hquotient.trans ?_)
  rw [hvalue, zpow_zero, mul_one, Nat.cast_mul]

/-! ## Whole numbers in single precision -/

/-- A magnitude of single precision that is a whole number but for two roundings. -/
def IsNear (n : Nat) (x : Magnitude) : Prop :=
  ∃ m e, x = .finite m e ∧ 2 ^ 23 ≤ m ∧ m < 2 ^ 24 ∧ |(m : ℚ) * (2 : ℚ) ^ e - n| ≤ n / (8 * 10 ^ 6)

/-- A whole number of 31 bits, in the ranges of both precisions. -/
theorem whole_bounds (hn : 0 < n) (hmax : n < 2 ^ 31) : (1 : ℚ) ≤ n ∧ (n : ℚ) < 2147483648 :=
  ⟨by exact_mod_cast hn, by exact_mod_cast hmax⟩

theorem isNear_convert (hn : 0 < n) (hmax : n < 2 ^ 31) : IsNear n (single.convert (double.ofNat n)) := by
  obtain ⟨hn1, hn2⟩ := whole_bounds hn hmax
  obtain ⟨m, e, hx, hvalue⟩ := ofNat_finite (show n < 2 ^ 53 by omega)
  have hrange : single.InRange (m * (2 : ℚ) ^ e) := by
    rw [hvalue]
    exact Precision.inRange_single (by norm_num; linarith) (by norm_num; linarith)
  obtain ⟨m', e', hround, hrounds⟩ := Precision.gives_convert (by decide) hrange
  rw [hvalue] at hrounds
  refine ⟨m', e', ?_, hrounds.normal, hrounds.bounded, le_trans hrounds.near ?_⟩
  · rw [hx]
    exact hround
  · show (n : ℚ) / 2 ^ 24 ≤ n / (8 * 10 ^ 6)
    gcongr
    norm_num

/-- A percentage of a whole number: a hundredth of it, kept, and taken a hundred times. -/
theorem isNear_percent (hn : 0 < n) (hmax : n < 2 ^ 31) :
    IsNear n (single.mul (single.convert (double.divNat (double.ofNat n) 100)) (.finite 100 0)) := by
  obtain ⟨hn1, hn2⟩ := whole_bounds hn hmax
  obtain ⟨m, e, hx, hvalue⟩ := ofNat_finite (show n < 2 ^ 53 by omega)
  rw [hx]
  have hrange : double.InRange (m * (2 : ℚ) ^ e / (100 : Nat)) := by
    rw [hvalue]
    exact Precision.inRange_double (by norm_num; linarith) (by norm_num; linarith)
  obtain ⟨m₁, e₁, hround₁, hrounds₁⟩ := Precision.gives_divNat (by decide) (by decide) hrange
  have hnear₁ := abs_le.mp hrounds₁.near
  rw [hvalue] at hnear₁
  replace hnear₁ : -((n : ℚ) / 100 / 2 ^ 53) ≤ m₁ * (2 : ℚ) ^ e₁ - n / 100 ∧
      (m₁ : ℚ) * (2 : ℚ) ^ e₁ - n / 100 ≤ n / 100 / 2 ^ 53 := by
    exact_mod_cast hnear₁
  rw [hround₁]
  have hrange₁ : single.InRange (m₁ * (2 : ℚ) ^ e₁) :=
    Precision.inRange_single (by norm_num; linarith) (by norm_num; linarith)
  obtain ⟨m₂, e₂, hround₂, hrounds₂⟩ := Precision.gives_convert (by decide) hrange₁
  have hnear₂ : -((m₁ : ℚ) * (2 : ℚ) ^ e₁ / 2 ^ 24) ≤ m₂ * (2 : ℚ) ^ e₂ - m₁ * (2 : ℚ) ^ e₁ ∧
      (m₂ : ℚ) * (2 : ℚ) ^ e₂ - m₁ * (2 : ℚ) ^ e₁ ≤ m₁ * (2 : ℚ) ^ e₁ / 2 ^ 24 := abs_le.mp hrounds₂.near
  rw [hround₂]
  have hrange₂ : single.InRange (m₂ * (2 : ℚ) ^ e₂ * ((100 : Nat) * (2 : ℚ) ^ (0 : Int))) :=
    Precision.inRange_single (by norm_num; linarith) (by norm_num; linarith)
  obtain ⟨m₃, e₃, hround₃, hrounds₃⟩ := Precision.gives_mul (by decide) hrange₂
  have hnear₃ := abs_le.mp hrounds₃.near
  rw [zpow_zero, mul_one] at hnear₃
  replace hnear₃ : -((m₂ : ℚ) * (2 : ℚ) ^ e₂ * 100 / 2 ^ 24) ≤ m₃ * (2 : ℚ) ^ e₃ - m₂ * (2 : ℚ) ^ e₂ * 100 ∧
      (m₃ : ℚ) * (2 : ℚ) ^ e₃ - m₂ * (2 : ℚ) ^ e₂ * 100 ≤ m₂ * (2 : ℚ) ^ e₂ * 100 / 2 ^ 24 := by
    exact_mod_cast hnear₃
  refine ⟨m₃, e₃, hround₃, hrounds₃.normal, hrounds₃.bounded, ?_⟩
  rw [abs_le]
  constructor <;> linarith

/-! ## Written -/

/-- At most six significant digits: zeros at the end do not count. -/
def IsShort (n : Nat) : Bool := (Decimal.strip 10 n 0).digits < 10 ^ 6

theorem exists_of_isShort (h : IsShort n = true) : ∃ a k, n = a * 10 ^ k ∧ a < 10 ^ 6 := by
  unfold IsShort at h
  rw [decide_eq_true_eq] at h
  obtain ⟨hvalue, hexp⟩ := Decimal.strip_spec 10 n 0
  rcases Nat.eq_zero_or_pos n with rfl | hn
  · exact ⟨0, 0, rfl, by decide⟩
  · have hexp0 := hexp 0 (Nat.zero_le _) hn (one_dvd _)
    obtain ⟨k, hk⟩ := Int.eq_ofNat_of_zero_le (show 0 ≤ (Decimal.strip 10 n 0).exponent by omega)
    rw [Decimal.rational, hk, zpow_zero, mul_one, zpow_natCast] at hvalue
    exact ⟨_, k, by exact_mod_cast hvalue.symm, h⟩

/-- The decimal of a number from a half up to `2 ^ 31` that comes out whole has no digits behind the point. -/
theorem exponent_of_whole (hm : 2 ^ 23 ≤ m) (hm' : m < 2 ^ 24) (he : -24 ≤ e) (he' : e ≤ 7)
    (h : (fixedPoint m e).rational = n) : 0 ≤ (fixedPoint m e).exponent := by
  obtain ⟨hnear, hwhole⟩ := fixedPoint_spec hm hm' he he'
  rcases Int.le_total 0 e with h0 | h0
  · obtain ⟨j, rfl⟩ := Int.eq_ofNat_of_zero_le h0
    refine hwhole (m * 2 ^ j) ?_
    rw [zpow_natCast]
    push_cast
    rfl
  · -- the number and the whole number are both multiples of a unit, and less than one apart
    obtain ⟨j, hj⟩ := Int.eq_ofNat_of_zero_le (Int.neg_nonneg.mpr h0)
    obtain rfl : e = -(j : Int) := by omega
    have hunit : (2 : ℚ) ^ (-(j : Int)) * 2 ^ j = 1 := by
      rw [zpow_neg, zpow_natCast]
      exact inv_mul_cancel₀ (by positivity)
    rw [h, zpow_sub_one₀ (by norm_num)] at hnear
    have hscaled := mul_le_mul_of_nonneg_right hnear (show (0 : ℚ) ≤ 2 ^ j by positivity)
    have hsame : n * 2 ^ j = m := by
      refine eq_of_near ?_
      have hoff : ((n * 2 ^ j : Nat) : ℚ) - m = (n - m * (2 : ℚ) ^ (-(j : Int))) * 2 ^ j := by
        rw [sub_mul, mul_assoc (m : ℚ), hunit, mul_one]
        push_cast
        rfl
      rw [hoff, abs_mul, abs_of_pos (show (0 : ℚ) < 2 ^ j by positivity)]
      refine lt_of_le_of_lt hscaled ?_
      rw [mul_right_comm, hunit]
      norm_num
    refine hwhole n ?_
    rw [← hsame]
    push_cast
    rw [mul_assoc, mul_comm (2 ^ j : ℚ), hunit, mul_one]

/-- The decimal of a magnitude next to a whole number is next to it, too. -/
theorem fixedPoint_near (hm : 2 ^ 23 ≤ m) (hm' : m < 2 ^ 24) (hpos : 0 < n) (hmax : n ≤ 2147480000)
    (h : |(m : ℚ) * (2 : ℚ) ^ e - n| ≤ n / (8 * 10 ^ 6)) :
    |(fixedPoint m e).rational - n| ≤ n / (4 * 10 ^ 6) ∧
      ((fixedPoint m e).rational = n → 0 ≤ (fixedPoint m e).exponent) := by
  have hone : (1 : ℚ) < 2 := by norm_num
  have hn1 : (1 : ℚ) ≤ n := by exact_mod_cast hpos
  have hn2 : (n : ℚ) ≤ 2147480000 := by exact_mod_cast hmax
  have hm1 : (2 : ℚ) ^ 23 ≤ m := by exact_mod_cast hm
  have hm2 : (m : ℚ) < 2 ^ 24 := by exact_mod_cast hm'
  have hnear := abs_le.mp h
  have hunit : (0 : ℚ) < (2 : ℚ) ^ e := by positivity
  have hlow : (2 : ℚ) ^ 23 * (2 : ℚ) ^ e ≤ m * (2 : ℚ) ^ e := by gcongr
  have hhigh : (m : ℚ) * (2 : ℚ) ^ e < 2 ^ 24 * (2 : ℚ) ^ e := by gcongr
  have he : -24 ≤ e := by
    have hlt : (2 : ℚ) ^ (-25 : Int) < (2 : ℚ) ^ e := by
      norm_num at hhigh ⊢
      linarith
    rw [zpow_lt_zpow_iff_right₀ hone] at hlt
    omega
  have he' : e ≤ 7 := by
    have hlt : (2 : ℚ) ^ e < (2 : ℚ) ^ (8 : Int) := by
      norm_num at hlow ⊢
      linarith
    rw [zpow_lt_zpow_iff_right₀ hone] at hlt
    omega
  refine ⟨?_, exponent_of_whole hm hm' he he'⟩
  have hdecimal := abs_le.mp (fixedPoint_spec hm hm' he he').1
  rw [zpow_sub_one₀ (by norm_num)] at hdecimal
  rw [abs_le]
  norm_num at hlow
  constructor <;> linarith

/-- A whole number of at most six significant digits is written as it is. -/
theorem write_whole {l : Layout} (hplaces : l.places = 6) (hleast : l.least ≤ -1) (hgreatest : 10 ≤ l.greatest)
    {x : Magnitude} (hx : IsNear n x) (hshort : IsShort n = true) (hpos : 0 < n) (hmax : n < 2 ^ 31) :
    l.write x.fixedDecimal = numeral n := by
  obtain ⟨m, e, rfl, hm, hm', hnear⟩ := hx
  obtain ⟨a, k, hn, ha⟩ := exists_of_isShort hshort
  have hmax' : n ≤ 2147480000 := by
    rcases Nat.lt_or_ge k 4 with hk | hk
    · have hpower : 10 ^ k ≤ 10 ^ 3 := Nat.pow_le_pow_right (by decide) (by omega)
      have := Nat.mul_le_mul ha.le hpower
      omega
    · obtain ⟨j, rfl⟩ := Nat.exists_eq_add_of_le hk
      rw [pow_add, ← mul_assoc, mul_right_comm] at hn
      omega
  have hdecimal : (Magnitude.finite m e).fixedDecimal = fixedPoint m e := by
    obtain ⟨m, rfl⟩ : ∃ i, m = i + 1 := ⟨m - 1, by omega⟩
    rfl
  obtain ⟨hnear', hwhole⟩ := fixedPoint_near hm hm' hpos hmax' hnear
  rw [hdecimal]
  exact Layout.write_near hplaces hleast hgreatest hn ha hpos (by omega) hnear' hwhole

end StyleTree.Number
