/-
# `Proofs.Number.Decimal` — whole numbers of six digits are written as they are

A decimal that is next to a whole number of at most six significant digits
is written as that whole number: the cut to six digits takes away what the
decimal is off (`write_near`).  "Next to" is a quarter of a millionth, which
is more than three roundings to single precision amount to.  Only if the
decimal is the whole number itself, nothing is cut, so then it must have no
digits behind the point.
-/
import StyleTree.Proofs.Number.FixedPoint

namespace StyleTree.Number

variable {n m k : Nat} {x : Int} {d : Decimal}

/-! ## Numerals -/

theorem numeral_mul_pow (hm : 0 < m) (k : Nat) : numeral (m * 10 ^ k) = numeral m ++ List.replicate k '0' := by
  induction k with
  | zero => rw [pow_zero, mul_one, List.replicate_zero, List.append_nil]
  | succ k ih =>
      have happend : numeral (m * 10 ^ k) ++ numeral 0 = numeral (10 * (m * 10 ^ k) + 0) :=
        Nat.toDigits_append_toDigits (by decide) (Nat.mul_pos hm (Nat.pow_pos (by decide))) (by decide)
      have hpower : m * 10 ^ (k + 1) = 10 * (m * 10 ^ k) + 0 := by ring
      rw [hpower, ← happend, ih, List.append_assoc, List.replicate_succ']
      rfl

theorem lengthOf_pos (n : Nat) : 0 < Decimal.lengthOf n := List.length_pos_of_ne_nil Nat.toDigits_ne_nil

theorem lt_pow_lengthOf (n : Nat) : n < 10 ^ Decimal.lengthOf n :=
  (Nat.length_toDigits_le_iff (by decide) (lengthOf_pos n)).mp le_rfl

theorem pow_lengthOf_le (hn : 0 < n) : 10 ^ (Decimal.lengthOf n - 1) ≤ n := by
  by_contra hlt
  rcases Nat.eq_zero_or_pos (Decimal.lengthOf n - 1) with h | h
  · rw [h] at hlt
    omega
  · have hle : Decimal.lengthOf n ≤ Decimal.lengthOf n - 1 :=
      (Nat.length_toDigits_le_iff (by decide) h).mpr (Nat.lt_of_not_le hlt)
    omega

/-! ## Decimals -/

namespace Decimal

/-- The leading exponent tells a decimal up to a factor of ten. -/
theorem leading_bounds (hd : 0 < d.digits) :
    (10 : ℚ) ^ d.leadingExponent ≤ d.rational ∧ d.rational < (10 : ℚ) ^ (d.leadingExponent + 1) := by
  have hten : (10 : ℚ) ≠ 0 := by norm_num
  have hlow := pow_lengthOf_le hd
  have hhigh := lt_pow_lengthOf d.digits
  have hpos := lengthOf_pos d.digits
  have hleading : d.leadingExponent = ((lengthOf d.digits - 1 : Nat) : Int) + d.exponent := by
    unfold leadingExponent
    omega
  have hleading' : d.leadingExponent + 1 = (lengthOf d.digits : Int) + d.exponent := by
    unfold leadingExponent
    omega
  constructor
  · rw [hleading, zpow_add₀ hten, zpow_natCast, rational]
    gcongr
    exact_mod_cast hlow
  · rw [hleading', zpow_add₀ hten, zpow_natCast, rational]
    gcongr
    exact_mod_cast hhigh

/-- Zeros at the end go over to the exponent, as many as there are. -/
theorem strip_spec : ∀ (fuel m : Nat) (x : Int), (strip fuel m x).rational = m * (10 : ℚ) ^ x ∧
    ∀ j ≤ fuel, 0 < m → 10 ^ j ∣ m → x + j ≤ (strip fuel m x).exponent
  | 0, m, x => by
      refine ⟨rfl, fun j hj _ _ => ?_⟩
      show x + j ≤ x
      omega
  | fuel + 1, m, x => by
      unfold strip
      by_cases h : (m % 10 == 0 && m != 0) = true
      · obtain ⟨hvalue, hexp⟩ := strip_spec fuel (m / 10) (x + 1)
        rw [if_pos h]
        rw [Bool.and_eq_true, beq_iff_eq, bne_iff_ne] at h
        obtain ⟨q, rfl⟩ := Nat.dvd_of_mod_eq_zero h.1
        rw [Nat.mul_div_cancel_left q (by decide)] at hvalue hexp ⊢
        refine ⟨?_, fun j hj hm hdvd => ?_⟩
        · rw [hvalue, zpow_add_one₀ (by norm_num)]
          push_cast
          ring
        · cases j with
          | zero =>
              have := hexp 0 (Nat.zero_le _) (by omega) (one_dvd _)
              omega
          | succ j =>
              rw [pow_succ', Nat.mul_dvd_mul_iff_left (by decide)] at hdvd
              have := hexp j (by omega) (by omega) hdvd
              omega
      · rw [if_neg h]
        refine ⟨rfl, fun j hj hm hdvd => ?_⟩
        rw [Bool.and_eq_true, beq_iff_eq, bne_iff_ne, not_and_not_right] at h
        have hj0 : j = 0 := by
          by_contra hj0
          have := h (Nat.mod_eq_zero_of_dvd (dvd_trans (dvd_pow_self 10 hj0) hdvd))
          omega
        subst hj0
        show x + (0 : Nat) ≤ x
        omega

end Decimal

/-- A whole number with no digits behind the point is written as its numeral. -/
theorem positional_whole (hn : 0 < n) (hd : d.rational = n) (hexp : 0 ≤ d.exponent) : positional d = numeral n := by
  obtain ⟨k, hk⟩ := Int.eq_ofNat_of_zero_le hexp
  rw [Decimal.rational, hk, zpow_natCast] at hd
  have hvalue : d.digits * 10 ^ k = n := by exact_mod_cast hd
  have hdigits : 0 < d.digits := Nat.pos_of_ne_zero fun h => by
    rw [h, zero_mul] at hvalue
    omega
  unfold positional
  rw [if_pos hexp, hk, Int.toNat_natCast, ← numeral_mul_pow hdigits, hvalue]

/-! ## Cut to six digits -/

/-- A number of at most six significant digits has none behind the sixth place of a decimal next to it. -/
theorem exists_units {a : Nat} (hn : n = a * 10 ^ k) (ha : a < 10 ^ 6) {r : ℚ} {t : Int}
    (hnear : |r - n| ≤ n / (4 * 10 ^ 6)) (hlow : (10 : ℚ) ^ (t + 5) ≤ r) : ∃ z : Nat, (n : ℚ) = z * (10 : ℚ) ^ t := by
  have hten : (10 : ℚ) ≠ 0 := by norm_num
  rcases Int.le_total t 0 with ht | ht
  · obtain ⟨j, hj⟩ := Int.eq_ofNat_of_zero_le (Int.neg_nonneg.mpr ht)
    obtain rfl : t = -(j : Int) := by omega
    refine ⟨n * 10 ^ j, ?_⟩
    rw [zpow_neg, zpow_natCast]
    push_cast
    field_simp
  · obtain ⟨j, rfl⟩ := Int.eq_ofNat_of_zero_le ht
    rw [zpow_natCast]
    rcases Nat.lt_or_ge k j with hkj | hkj
    · -- then all digits of the number stand behind that place, so it is less than the decimal by too much
      exfalso
      have hpower : (10 : ℚ) ^ ((j : Int) + 5) = 10 ^ 5 * (10 : ℚ) ^ j := by
        rw [zpow_add₀ hten, zpow_natCast]
        ring
      have hle : (10 : ℚ) * (10 : ℚ) ^ k ≤ (10 : ℚ) ^ j := by
        rw [← pow_succ']
        exact pow_le_pow_right₀ (by norm_num) hkj
      have hk : (0 : ℚ) < (10 : ℚ) ^ k := by positivity
      have ha' : (a : ℚ) + 1 ≤ 10 ^ 6 := by exact_mod_cast ha
      have hn' : (n : ℚ) + (10 : ℚ) ^ k ≤ 10 ^ 6 * (10 : ℚ) ^ k := by
        have := mul_le_mul_of_nonneg_right ha' hk.le
        rw [hn]
        push_cast
        linarith
      have hupper := (abs_le.mp hnear).2
      rw [hpower] at hlow
      linarith
    · refine ⟨a * 10 ^ (k - j), ?_⟩
      rw [hn]
      push_cast
      rw [mul_assoc, ← pow_add, Nat.sub_add_cancel hkj]

/-- Two naturals less than one apart are equal. -/
theorem eq_of_near {a b : Nat} (h : |(a : ℚ) - b| < 1) : a = b := by
  rw [abs_lt] at h
  have h1 : (a : ℚ) < (b + 1 : Nat) := by
    push_cast
    linarith
  have h2 : (b : ℚ) < (a + 1 : Nat) := by
    push_cast
    linarith
  rw [Nat.cast_lt] at h1 h2
  omega

/-- The quotient by an even number, a half going up, is the natural less than a half away. -/
theorem halfUp_eq {a u z : Nat} (hu : 0 < u) (heven : 2 ∣ u) (h : |(a : ℚ) / u - z| < 1 / 2) :
    (a + u / 2) / u = z := by
  have hu' : (0 : ℚ) < u := by exact_mod_cast hu
  obtain ⟨v, rfl⟩ := heven
  rw [Nat.mul_div_cancel_left v (by decide)]
  rw [abs_lt] at h
  have h1 : (z : ℚ) * (2 * v : Nat) < a + v := by
    have hlt : (z : ℚ) - 1 / 2 < a / (2 * v : Nat) := by linarith
    rw [lt_div_iff₀ hu'] at hlt
    push_cast at hlt ⊢
    linarith
  have h2 : (a : ℚ) < z * (2 * v : Nat) + v := by
    have hlt : (a : ℚ) / (2 * v : Nat) < z + 1 / 2 := by linarith
    rw [div_lt_iff₀ hu'] at hlt
    push_cast at hlt ⊢
    linarith
  have h1 : z * (2 * v) < a + v := by exact_mod_cast h1
  have h2 : a < z * (2 * v) + v := by exact_mod_cast h2
  refine Nat.div_eq_of_lt_le h1.le ?_
  rw [Nat.succ_mul]
  omega

/-- A decimal that is next to a whole number, cut to six digits, is that number. -/
theorem cut_near {a : Nat} (hn : n = a * 10 ^ k) (ha : a < 10 ^ 6) (hpos : 0 < n) (hd : 0 < d.digits)
    (hnear : |d.rational - n| ≤ n / (4 * 10 ^ 6)) (hwhole : d.rational = n → 0 ≤ d.exponent) :
    (d.cut 6).rational = n ∧ 0 ≤ (d.cut 6).exponent := by
  have hten : (10 : ℚ) ≠ 0 := by norm_num
  obtain ⟨hlow, hhigh⟩ := Decimal.leading_bounds hd
  obtain ⟨t, ht⟩ : ∃ t, d.leadingExponent = t + 5 := ⟨d.leadingExponent - 5, by ring⟩
  rw [ht] at hlow hhigh
  obtain ⟨z, hz⟩ := exists_units hn ha hnear hlow
  have hlength : (Decimal.lengthOf d.digits : Int) + d.exponent = t + 6 := by
    unfold Decimal.leadingExponent at ht
    omega
  have hu : (0 : ℚ) < (10 : ℚ) ^ t := by positivity
  have hsix : (10 : ℚ) ^ (t + 5 + 1) = 10 ^ 6 * (10 : ℚ) ^ t := by
    have hsum : t + 5 + 1 = 6 + t := by ring
    rw [hsum, zpow_add₀ hten]
    norm_num
  rw [hsix] at hhigh
  rw [abs_le] at hnear
  -- in units of the sixth place the decimal is less than a half off
  have hunits : |d.rational / (10 : ℚ) ^ t - z| < 1 / 2 := by
    have hoff : |d.rational - z * (10 : ℚ) ^ t| < (10 : ℚ) ^ t / 2 := by
      rw [abs_lt, ← hz]
      constructor <;> linarith
    have hdivide : d.rational / (10 : ℚ) ^ t - z = (d.rational - z * (10 : ℚ) ^ t) / (10 : ℚ) ^ t := by field_simp
    rw [hdivide, abs_div, abs_of_pos hu, div_lt_iff₀ hu]
    linarith
  unfold Decimal.cut
  simp only
  by_cases hle : Decimal.lengthOf d.digits ≤ 6
  · -- nothing is cut, and the decimal is on the same grid as the number
    rw [if_pos hle]
    obtain ⟨j, hj⟩ := Int.eq_ofNat_of_zero_le (show 0 ≤ d.exponent - t by omega)
    have hvalue : d.rational / (10 : ℚ) ^ t = (d.digits * 10 ^ j : Nat) := by
      obtain hx : d.exponent = j + t := by omega
      rw [Decimal.rational, hx, zpow_add₀ hten, zpow_natCast]
      push_cast
      field_simp
    rw [hvalue] at hunits
    have hsame := eq_of_near (lt_trans hunits (by norm_num))
    have hrational : d.rational = n := by
      rw [hz, ← hsame, ← hvalue]
      field_simp
    exact ⟨hrational, hwhole hrational⟩
  · rw [if_neg hle]
    obtain ⟨j, hj⟩ : ∃ j, Decimal.lengthOf d.digits - 6 = j + 1 := ⟨Decimal.lengthOf d.digits - 7, by omega⟩
    have hx : t = d.exponent + (j + 1 : Nat) := by omega
    have hvalue : d.rational / (10 : ℚ) ^ t = d.digits / (10 ^ (j + 1) : Nat) := by
      rw [Decimal.rational, hx, zpow_add₀ hten, zpow_natCast]
      push_cast
      field_simp
    rw [hj, Nat.pow_eq]
    rw [hvalue] at hunits
    rw [halfUp_eq (Nat.pow_pos (by decide)) (dvd_pow (by decide) (Nat.succ_ne_zero j)) hunits, ← hx]
    show (Decimal.strip 7 z t).rational = n ∧ 0 ≤ (Decimal.strip 7 z t).exponent
    obtain ⟨hstrip, hexp⟩ := Decimal.strip_spec 7 z t
    refine ⟨hstrip.trans hz.symm, ?_⟩
    have hz0 : 0 < z := Nat.pos_of_ne_zero fun h => by
      rw [h, Nat.cast_zero, zero_mul] at hz
      have : n = 0 := by exact_mod_cast hz
      omega
    rcases Int.le_total 0 t with h0 | h0
    · have := hexp 0 (Nat.zero_le _) hz0 (one_dvd _)
      omega
    · -- the digits behind the point are zeros, and there are at most six of them
      obtain ⟨i, hi⟩ := Int.eq_ofNat_of_zero_le (Int.neg_nonneg.mpr h0)
      have hti : t = -(i : Int) := by omega
      have hdvd : z = 10 ^ i * n := by
        rw [hti, zpow_neg, zpow_natCast] at hz
        field_simp at hz
        rw [mul_comm] at hz
        exact_mod_cast hz.symm
      have hzmax : (z : ℚ) < 10 ^ 7 := by
        rw [← hvalue, abs_lt] at hunits
        have : d.rational / (10 : ℚ) ^ t < 10 ^ 6 := by rwa [div_lt_iff₀ hu]
        linarith
      have hi7 : i ≤ 7 := by
        by_contra hi7
        have h1 : 10 ^ 7 ≤ 10 ^ i := Nat.pow_le_pow_right (by decide) (by omega)
        have h2 : 10 ^ i * 1 ≤ 10 ^ i * n := Nat.mul_le_mul_left _ hpos
        have h3 : z < 10 ^ 7 := by exact_mod_cast hzmax
        omega
      have := hexp i hi7 hz0 (Dvd.intro n hdvd.symm)
      omega

/-- A decimal that is next to a whole number of at most six significant digits is written as that number. -/
theorem Layout.write_near {l : Layout} (hplaces : l.places = 6) (hleast : l.least ≤ -1) (hgreatest : 10 ≤ l.greatest)
    {a : Nat} (hn : n = a * 10 ^ k) (ha : a < 10 ^ 6) (hpos : 0 < n) (hmax : n < 10 ^ 10)
    (hnear : |d.rational - n| ≤ n / (4 * 10 ^ 6)) (hwhole : d.rational = n → 0 ≤ d.exponent) :
    l.write d = numeral n := by
  have hone : (1 : ℚ) < 10 := by norm_num
  have hpos' : (1 : ℚ) ≤ n := by exact_mod_cast hpos
  have hmax' : (n : ℚ) < 10 ^ 10 := by exact_mod_cast hmax
  have hnear' := abs_le.mp hnear
  have hd : 0 < d.digits := Nat.pos_of_ne_zero fun h => by
    rw [Decimal.rational, h, Nat.cast_zero, zero_mul] at hnear'
    linarith
  obtain ⟨hlow, hhigh⟩ := Decimal.leading_bounds hd
  have hleast' : -1 ≤ d.leadingExponent := by
    have hlt : (10 : ℚ) ^ (-1 : Int) < (10 : ℚ) ^ (d.leadingExponent + 1) := by
      refine lt_trans ?_ hhigh
      norm_num
      linarith
    rw [zpow_lt_zpow_iff_right₀ hone] at hlt
    omega
  have hgreatest' : d.leadingExponent ≤ 10 := by
    have hlt : (10 : ℚ) ^ d.leadingExponent < (10 : ℚ) ^ (11 : Int) := by
      have hpower : (10 : ℚ) ^ (11 : Int) = 10 * 10 ^ 10 := by norm_num
      rw [hpower]
      linarith
    rw [zpow_lt_zpow_iff_right₀ hone] at hlt
    omega
  unfold Layout.write
  rw [if_pos, hplaces]
  · obtain ⟨hrational, hexp⟩ := cut_near hn ha hpos hd hnear hwhole
    exact positional_whole hpos hrational hexp
  · unfold Layout.isPositional
    simp only [Bool.and_eq_true, decide_eq_true_eq]
    omega

end StyleTree.Number
