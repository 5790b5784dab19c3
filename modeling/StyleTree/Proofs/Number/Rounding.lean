/-
# `Proofs.Number.Rounding` — how far a rounded number is off

The arithmetic of binary magnitudes works with quotients of naturals and
rounds once at the end of each operation.  Here a finite magnitude is taken
for the rational it stands for.  What is rounded in the normal range of a
precision gets a mantissa of all its bits and is off by at most half a unit
of the last place; what has no more bits than the precision keeps is not
off at all (`Rounds`, `rounds_round`).
-/
import Mathlib.Algebra.Order.Field.Basic
import Mathlib.Algebra.Order.Field.Power
import Mathlib.Data.Rat.Cast.Order
import Mathlib.Tactic.FieldSimp
import Mathlib.Tactic.Linarith
import Mathlib.Tactic.Positivity
import Mathlib.Tactic.Ring
import StyleTree.Number.Binary

namespace StyleTree.Number

variable {a b m num den : Nat} {e : Int}

/-! ## Powers of two -/

/-- A power with its positive part above the fraction bar and its negative part below. -/
theorem zpow_eq_div (base : Nat) (hbase : 0 < base) (e : Int) :
    (base : ℚ) ^ e = (Nat.pow base e.toNat : Nat) / (Nat.pow base (-e).toNat : Nat) := by
  have hne : (base : ℚ) ≠ 0 := by positivity
  rcases Int.le_total 0 e with h | h
  · obtain ⟨n, rfl⟩ := Int.eq_ofNat_of_zero_le h
    have hneg : (-(n : Int)).toNat = 0 := by omega
    rw [hneg, Int.toNat_natCast]
    simp
  · obtain ⟨n, hn⟩ := Int.eq_ofNat_of_zero_le (Int.neg_nonneg.mpr h)
    obtain rfl : e = -(n : Int) := by omega
    have hpos : (-(n : Int)).toNat = 0 := by omega
    rw [hpos, Int.neg_neg, Int.toNat_natCast]
    simp

/-- A quotient in units of a power. -/
theorem div_zpow_eq (base : Nat) (hbase : 0 < base) (num den : Nat) (e : Int) :
    ((num * Nat.pow base (-e).toNat : Nat) : ℚ) / (den * Nat.pow base e.toNat : Nat) = num / den / (base : ℚ) ^ e := by
  have hpower := zpow_eq_div base hbase e
  rw [hpower, Nat.cast_mul, Nat.cast_mul, div_div_eq_mul_div, div_mul_eq_mul_div, div_div]

/-- The rational that a finite magnitude stands for. -/
def Magnitude.rational : Magnitude → ℚ
  | .finite m e => m * (2 : ℚ) ^ e
  | .infinite | .undefined => 0

theorem Magnitude.quotient_finite (m : Nat) (e : Int) :
    0 < scaledDown e ∧ (scaledUp m e : ℚ) / scaledDown e = (Magnitude.finite m e).rational := by
  have htwo := zpow_eq_div 2 (by decide) e
  constructor
  · exact Nat.pow_pos (by decide)
  · rw [rational, scaledUp, scaledDown, Nat.cast_mul, mul_div_assoc, ← htwo]
    rfl

theorem Magnitude.scaledDown_pos (e : Int) : 0 < scaledDown e := Nat.pow_pos (by decide)

theorem Magnitude.scaled_div (m : Nat) (e : Int) : (scaledUp m e : ℚ) / scaledDown e = m * (2 : ℚ) ^ e :=
  (quotient_finite m e).2

/-! ## The nearest natural -/

/-- The nearest natural is off by a half at most, and it is the quotient if that is whole. -/
theorem nearest_spec (hden : 0 < den) :
    |(nearest num den : ℚ) - num / den| ≤ 1 / 2 ∧ ∀ k : Nat, (num : ℚ) / den = k → nearest num den = k := by
  have hpos : (0 : ℚ) < den := by exact_mod_cast hden
  have hdivide : (num : ℚ) = den * (num / den : Nat) + (num % den : Nat) := by
    exact_mod_cast (Nat.div_add_mod num den).symm
  have hquotient : (num : ℚ) / den = (num / den : Nat) + (num % den : Nat) / den := by
    field_simp
    linarith
  have hrest : (num % den : Nat) < (den : ℚ) := by exact_mod_cast Nat.mod_lt num hden
  have hrest0 : (0 : ℚ) ≤ (num % den : Nat) := by positivity
  unfold nearest
  simp only [Bool.or_eq_true, Bool.and_eq_true, decide_eq_true_eq, beq_iff_eq]
  constructor
  · rw [hquotient]
    split
    · next h =>
        have htwice : (den : ℚ) ≤ 2 * (num % den : Nat) := by
          rcases h with h | h
          · exact_mod_cast Nat.le_of_lt h
          · exact_mod_cast h.1.ge
        have hhalf : (1 : ℚ) / 2 ≤ (num % den : Nat) / den := by
          rw [le_div_iff₀ hpos]
          linarith
        have hone : ((num % den : Nat) : ℚ) / den < 1 := by rwa [div_lt_one hpos]
        rw [abs_le]
        push_cast
        constructor <;> linarith
    · next h =>
        rw [not_or] at h
        have htwice : 2 * (num % den : Nat) ≤ (den : ℚ) := by exact_mod_cast Nat.le_of_not_lt h.1
        have hhalf : ((num % den : Nat) : ℚ) / den ≤ 1 / 2 := by
          rw [div_le_iff₀ hpos]
          linarith
        have hzero : 0 ≤ ((num % den : Nat) : ℚ) / den := by positivity
        rw [abs_le]
        constructor <;> linarith
  · intro k hk
    have hnum : num = den * k := by
      rw [div_eq_iff hpos.ne', mul_comm] at hk
      exact_mod_cast hk
    rw [hnum, Nat.mul_div_cancel_left k hden, Nat.mul_mod_right, if_neg]
    omega

namespace Precision

/-- The quotient in units of `2 ^ e`, as a rational. -/
theorem inUnits_eq (num den : Nat) (e : Int) :
    ((num * Nat.pow 2 (-e).toNat : Nat) : ℚ) / (den * Nat.pow 2 e.toNat : Nat) = num / den / (2 : ℚ) ^ e := by
  have hunits := div_zpow_eq 2 (by decide) num den e
  rwa [Nat.cast_ofNat] at hunits

theorem inUnits_spec (hden : 0 < den) (e : Int) :
    |(inUnits num den e : ℚ) - num / den / (2 : ℚ) ^ e| ≤ 1 / 2 ∧
      ∀ k : Nat, (num : ℚ) / den / (2 : ℚ) ^ e = k → inUnits num den e = k := by
  have hpos : 0 < den * Nat.pow 2 e.toNat := Nat.mul_pos hden (Nat.pow_pos (by decide))
  have hnearest := @nearest_spec (num * Nat.pow 2 (-e).toNat) _ hpos
  rwa [inUnits_eq] at hnearest

/-! ## The unit in the last place -/

/-- The lengths of numerator and denominator tell the quotient up to a factor of two on either side. -/
theorem guess_bounds (hnum : 0 < num) (hden : 0 < den) :
    (2 : ℚ) ^ ((num.log2 : Int) - den.log2 - 1) < num / den ∧
      (num : ℚ) / den < (2 : ℚ) ^ ((num.log2 : Int) - den.log2 + 1) := by
  have hn : (0 : ℚ) < num := by exact_mod_cast hnum
  have hd : (0 : ℚ) < den := by exact_mod_cast hden
  have hlow : ∀ {n : Nat}, 0 < n → (2 : ℚ) ^ (n.log2 : Int) ≤ n := fun {n} h => by
    rw [zpow_natCast]
    exact_mod_cast Nat.log2_self_le h.ne'
  have hhigh : ∀ n : Nat, (n : ℚ) < (2 : ℚ) ^ ((n.log2 : Int) + 1) := fun n => by
    have := @Nat.lt_log2_self n
    have hcast : ((n.log2 : Int) + 1) = ((n.log2 + 1 : Nat) : Int) := by push_cast; rfl
    rw [hcast, zpow_natCast]
    exact_mod_cast this
  have htwo : (2 : ℚ) ≠ 0 := by norm_num
  constructor
  · rw [lt_div_iff₀ hd]
    calc (2 : ℚ) ^ ((num.log2 : Int) - den.log2 - 1) * den
        < (2 : ℚ) ^ ((num.log2 : Int) - den.log2 - 1) * (2 : ℚ) ^ ((den.log2 : Int) + 1) := by
          have := hhigh den
          gcongr
      _ = (2 : ℚ) ^ (num.log2 : Int) := by
          rw [← zpow_add₀ htwo]
          congr 1
          ring
      _ ≤ num := hlow hnum
  · rw [div_lt_iff₀ hd]
    calc (num : ℚ) < (2 : ℚ) ^ ((num.log2 : Int) + 1) := hhigh num
      _ = (2 : ℚ) ^ ((num.log2 : Int) - den.log2 + 1) * (2 : ℚ) ^ (den.log2 : Int) := by
          rw [← zpow_add₀ htwo]
          congr 1
          ring
      _ ≤ (2 : ℚ) ^ ((num.log2 : Int) - den.log2 + 1) * den := by
          have := hlow hden
          gcongr

/-- The unit is such that the quotient has as many bits before the point as the precision keeps, unless that would
take an exponent below the least one. -/
theorem unitExponent_cases (p : Precision) (hnum : 0 < num) (hden : 0 < den) :
    ∃ x, p.unitExponent num den = max x p.leastExponent ∧
      (2 : ℚ) ^ (x + p.bits - 1) ≤ num / den ∧ (num : ℚ) / den < (2 : ℚ) ^ (x + p.bits) := by
  obtain ⟨hlow, hhigh⟩ := guess_bounds hnum hden
  have htwo : (2 : ℚ) ≠ 0 := by norm_num
  generalize hg : p.guessExponent num den = g
  have hguess : (num.log2 : Int) - den.log2 = g + p.bits := by
    rw [← hg, guessExponent]
    ring
  rw [hguess] at hlow hhigh
  -- the test is whether the guess leaves one bit too many
  have htest : num * Nat.pow 2 (-g).toNat < Nat.pow 2 p.bits * (den * Nat.pow 2 g.toNat) ↔
      (num : ℚ) / den < (2 : ℚ) ^ (g + p.bits) := by
    have hunits := inUnits_eq num den g
    have hpos : (0 : ℚ) < (den * Nat.pow 2 g.toNat : Nat) := by
      exact_mod_cast Nat.mul_pos hden (Nat.pow_pos (by decide))
    rw [zpow_add₀ htwo, zpow_natCast, mul_comm ((2 : ℚ) ^ g), ← div_lt_iff₀ (zpow_pos (by norm_num) g), ← hunits,
      div_lt_iff₀ hpos]
    constructor
    · intro h
      exact_mod_cast h
    · intro h
      exact_mod_cast h
  unfold unitExponent
  simp only [hg]
  by_cases h : num * Nat.pow 2 (-g).toNat < Nat.pow 2 p.bits * (den * Nat.pow 2 g.toNat)
  · rw [if_pos h]
    exact ⟨g, rfl, hlow.le, htest.mp h⟩
  · rw [if_neg h]
    refine ⟨g + 1, rfl, ?_, ?_⟩
    · have hge := le_of_not_gt fun h' => h (htest.mpr h')
      have hsame : g + 1 + p.bits - 1 = g + p.bits := by ring
      rwa [hsame]
    · have hsame : g + 1 + p.bits = g + p.bits + 1 := by ring
      rwa [hsame]

/-- In the normal range the quotient has as many bits before the point as the precision keeps. -/
theorem unitExponent_spec (p : Precision) (hnum : 0 < num) (hden : 0 < den)
    (hnormal : (2 : ℚ) ^ (p.leastExponent + p.bits - 1) ≤ num / den) :
    (2 : ℚ) ^ (p.unitExponent num den + p.bits - 1) ≤ num / den ∧
      (num : ℚ) / den < (2 : ℚ) ^ (p.unitExponent num den + p.bits) := by
  have hone : (1 : ℚ) < 2 := by norm_num
  obtain ⟨x, hx, hxlow, hxhigh⟩ := p.unitExponent_cases hnum hden
  have hleast : p.leastExponent ≤ x := by
    have hlt := lt_of_le_of_lt hnormal hxhigh
    rw [zpow_lt_zpow_iff_right₀ hone] at hlt
    omega
  rw [hx, max_eq_left hleast]
  exact ⟨hxlow, hxhigh⟩

/-! ## Rounding -/

/-- A magnitude is what a rational is rounded to: it has all bits, it is near, and it is the rational itself if
that has no more bits. -/
structure Rounds (p : Precision) (r : ℚ) (m : Nat) (e : Int) : Prop where
  normal : 2 ^ (p.bits - 1) ≤ m
  bounded : m < 2 ^ p.bits
  near : |(m : ℚ) * (2 : ℚ) ^ e - r| ≤ r / 2 ^ p.bits
  exact : ∀ (k : Nat) (j : Int), r = k * (2 : ℚ) ^ j → k < 2 ^ p.bits → (m : ℚ) * (2 : ℚ) ^ e = r

/-- One mantissa bit too many is carried to the exponent, which leaves the value as it is. -/
theorem pack_eq (p : Precision) (hbits : 0 < p.bits) (n : Nat) (e : Int) : ∃ m f,
    p.pack n e = (if m = 0 then .zero else if p.greatestExponent < f then .infinite else .finite m f) ∧
      (m : ℚ) * (2 : ℚ) ^ f = n * (2 : ℚ) ^ e ∧
      (n = 2 ^ p.bits ∧ m = 2 ^ (p.bits - 1) ∧ f = e + 1 ∨ n ≠ 2 ^ p.bits ∧ m = n ∧ f = e) := by
  unfold pack
  simp only [Nat.pow_eq, beq_iff_eq]
  by_cases hcarry : n = 2 ^ p.bits
  · have hdouble : 2 ^ p.bits = 2 * 2 ^ (p.bits - 1) := by rw [← pow_succ', Nat.sub_add_cancel hbits]
    refine ⟨2 ^ (p.bits - 1), e + 1, ?_, ?_, .inl ⟨hcarry, rfl, rfl⟩⟩
    · rw [if_pos hcarry, hcarry, hdouble, Nat.mul_div_cancel_left _ Nat.two_pos]
    · rw [zpow_add_one₀ (by norm_num), hcarry, hdouble]
      push_cast
      ring
  · refine ⟨n, e, ?_, rfl, .inr ⟨hcarry, rfl, rfl⟩⟩
    rw [if_neg hcarry]

/-- A quotient that is not too small is rounded, or infinite if the exponent is too large. -/
theorem rounds_or_infinite (p : Precision) (hbits : 0 < p.bits) (hnum : 0 < num) (hden : 0 < den)
    (hnormal : (2 : ℚ) ^ (p.leastExponent + p.bits - 1) ≤ num / den) :
    ∃ m e, p.round num den = (if p.greatestExponent < e then .infinite else .finite m e) ∧
      p.Rounds (num / den) m e := by
  have hone : (1 : ℚ) < 2 := by norm_num
  have htwo : (2 : ℚ) ≠ 0 := by norm_num
  obtain ⟨hlow, hhigh⟩ := p.unitExponent_spec hnum hden hnormal
  generalize hr : (num : ℚ) / den = r at *
  unfold round
  rw [if_neg (by simpa using hnum.ne')]
  simp only
  generalize p.unitExponent num den = x at *
  obtain ⟨hnear, hexact⟩ := @inUnits_spec num _ hden x
  rw [hr] at hnear hexact
  generalize inUnits num den x = n at *
  have hunit : (0 : ℚ) < (2 : ℚ) ^ x := by positivity
  have hsplit : (2 : ℚ) ^ (x + p.bits - 1) = 2 ^ (p.bits - 1) * (2 : ℚ) ^ x := by
    have hsame : x + p.bits - 1 = ((p.bits - 1 : Nat) : Int) + x := by omega
    rw [hsame, zpow_add₀ htwo, zpow_natCast]
  have hsplit' : (2 : ℚ) ^ (x + p.bits) = 2 ^ p.bits * (2 : ℚ) ^ x := by
    rw [add_comm, zpow_add₀ htwo, zpow_natCast]
  have hfrom : (2 : ℚ) ^ (p.bits - 1) ≤ r / (2 : ℚ) ^ x := by
    rw [le_div_iff₀ hunit, ← hsplit]
    exact hlow
  have hto : r / (2 : ℚ) ^ x < (2 : ℚ) ^ p.bits := by
    rw [div_lt_iff₀ hunit, ← hsplit']
    exact hhigh
  rw [abs_le] at hnear
  -- the ends are naturals, so half a unit does not lead past them
  have hn1 : 2 ^ (p.bits - 1) ≤ n := by
    by_contra hlt
    have hlt : (n : ℚ) + 1 ≤ (2 : ℚ) ^ (p.bits - 1) := by exact_mod_cast Nat.lt_of_not_le hlt
    linarith
  have hn2 : n ≤ 2 ^ p.bits := by
    by_contra hlt
    have hlt : (2 : ℚ) ^ p.bits + 1 ≤ n := by exact_mod_cast Nat.lt_of_not_le hlt
    linarith
  have hoff : |(n : ℚ) * (2 : ℚ) ^ x - r| ≤ r / 2 ^ p.bits := by
    have hscaled : (n : ℚ) * (2 : ℚ) ^ x - r = (n - r / (2 : ℚ) ^ x) * (2 : ℚ) ^ x := by field_simp
    have hhalf : (1 : ℚ) / 2 * (2 : ℚ) ^ x ≤ r / 2 ^ p.bits := by
      have hpower : (2 : ℚ) ^ p.bits = 2 * 2 ^ (p.bits - 1) := by
        rw [← pow_succ', Nat.sub_add_cancel hbits]
      rw [le_div_iff₀ (by positivity), hpower]
      rw [hsplit] at hlow
      linarith
    rw [hscaled, abs_mul, abs_of_pos hunit]
    refine le_trans ?_ hhalf
    gcongr
    exact abs_le.mpr hnear
  have hsame : ∀ (k : Nat) (j : Int), r = k * (2 : ℚ) ^ j → k < 2 ^ p.bits → (n : ℚ) * (2 : ℚ) ^ x = r := by
    intro k j hk hbound
    have hjx : x ≤ j := by
      have hk' : (k : ℚ) < 2 ^ p.bits := by exact_mod_cast hbound
      have hlt : (2 : ℚ) ^ (x + p.bits - 1) < (2 : ℚ) ^ ((p.bits : Int) + j) := by
        calc (2 : ℚ) ^ (x + p.bits - 1) ≤ k * (2 : ℚ) ^ j := by rw [← hk]; exact hlow
          _ < 2 ^ p.bits * (2 : ℚ) ^ j := by gcongr
          _ = (2 : ℚ) ^ ((p.bits : Int) + j) := by rw [zpow_add₀ htwo, zpow_natCast]
      rw [zpow_lt_zpow_iff_right₀ hone] at hlt
      omega
    obtain ⟨d, hd⟩ := Int.eq_ofNat_of_zero_le (Int.sub_nonneg.mpr hjx)
    have hwhole : r / (2 : ℚ) ^ x = (k * 2 ^ d : Nat) := by
      obtain rfl : j = d + x := by omega
      rw [hk, zpow_add₀ htwo, zpow_natCast]
      push_cast
      field_simp
    rw [hexact _ hwhole, ← hwhole]
    field_simp
  have hbit : 2 ^ (p.bits - 1) < 2 ^ p.bits := Nat.pow_lt_pow_right (by decide) (Nat.sub_lt hbits (by decide))
  have hfirst : 0 < 2 ^ (p.bits - 1) := Nat.pow_pos (by decide)
  obtain ⟨m, f, hpack, hvalue, hparts⟩ := p.pack_eq hbits n x
  have hm : 2 ^ (p.bits - 1) ≤ m ∧ m < 2 ^ p.bits := by
    rcases hparts with ⟨-, rfl, -⟩ | ⟨hne, rfl, -⟩
    · exact ⟨le_rfl, hbit⟩
    · exact ⟨hn1, Nat.lt_of_le_of_ne hn2 hne⟩
  refine ⟨m, f, ?_, hm.1, hm.2, by rwa [hvalue], by rwa [hvalue]⟩
  rw [hpack, if_neg]
  omega

/-- A quotient in the normal range of a precision is rounded. -/
theorem rounds_round (p : Precision) (hbits : 0 < p.bits) (hnum : 0 < num) (hden : 0 < den)
    (hnormal : (2 : ℚ) ^ (p.leastExponent + p.bits - 1) ≤ num / den)
    (hgreatest : (num : ℚ) / den < (2 : ℚ) ^ (p.greatestExponent + p.bits - 1)) :
    ∃ m e, p.round num den = .finite m e ∧ p.Rounds (num / den) m e := by
  obtain ⟨m, e, hround, hrounds⟩ := p.rounds_or_infinite hbits hnum hden hnormal
  refine ⟨m, e, ?_, hrounds⟩
  rw [hround, if_neg]
  -- a larger exponent would make the magnitude twice the quotient
  intro hlt
  have hnear := (abs_le.mp hrounds.near).2
  have hnormal : (2 : ℚ) ^ (p.bits - 1) ≤ m := by exact_mod_cast hrounds.normal
  have hone : (1 : ℚ) ≤ 2 ^ p.bits := one_le_pow₀ (by norm_num)
  have hr : (0 : ℚ) < num / den := by
    have : (0 : ℚ) < num ∧ (0 : ℚ) < den := ⟨by exact_mod_cast hnum, by exact_mod_cast hden⟩
    exact div_pos this.1 this.2
  have hoff : (num : ℚ) / den / 2 ^ p.bits ≤ num / den := div_le_self hr.le hone
  have hscaled : (2 : ℚ) ^ (p.bits - 1) * (2 : ℚ) ^ e ≤ m * (2 : ℚ) ^ e := by gcongr
  have hexp : (2 : ℚ) ^ (p.greatestExponent + p.bits) ≤ (2 : ℚ) ^ (p.bits - 1) * (2 : ℚ) ^ e := by
    rw [← zpow_natCast, ← zpow_add₀ (by norm_num)]
    exact zpow_le_zpow_right₀ (by norm_num) (by omega)
  have hdouble : (2 : ℚ) ^ (p.greatestExponent + p.bits) = 2 * (2 : ℚ) ^ (p.greatestExponent + p.bits - 1) := by
    rw [zpow_sub_one₀ (by norm_num)]
    ring
  linarith

end Precision

end StyleTree.Number
