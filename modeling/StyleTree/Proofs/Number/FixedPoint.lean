/-
# `Proofs.Number.FixedPoint` — the decimal found in fixed point is near

The search for a decimal lifts the interval of a number by a power of ten
and draws its ends in by one unit, since the two roundings on the way may
have moved them.  So the lifted interval lies in the true one, and misses
at most two units of it on either side (`lift_spec`).  What is found on a
grid lies in the lifted interval (`onGrid_spec`), and something is found if
the interval is wide enough for the grid (`isSome_onGrid`).

For the numbers from a half up to `2 ^ 31` two powers of ten are in use.  The
decimal is then off by at most half a unit of the last binary place, and
if the number is whole, the decimal has no digits behind the point
(`fixedPoint_spec`).
-/
import Mathlib.Algebra.Order.Floor.Semiring
import Mathlib.Data.Rat.Floor
import Mathlib.Tactic.IntervalCases
import StyleTree.Number.FixedPoint
import StyleTree.Proofs.Number.Rounding

namespace StyleTree.Number

/-- The rational that a decimal stands for. -/
def Decimal.rational (d : Decimal) : ℚ := d.digits * (10 : ℚ) ^ d.exponent

namespace Interval

variable {i : Interval} {k p : Int} {d : Decimal} {D x c : Nat}

/-- The rationals at the ends. -/
def low (i : Interval) : ℚ := i.lower * (2 : ℚ) ^ i.exponent

def high (i : Interval) : ℚ := i.upper * (2 : ℚ) ^ i.exponent

/-! ## Lifting -/

/-- A product of words is rounded, and so was the power `t` that `c` stands for in units of `s`.  Either makes it
off by at most half a unit. -/
theorem upperWord_near {t s : ℚ} (hs : 0 < s) (hx : x ≤ 2 ^ 32) (hc : |(c : ℚ) - t / s| ≤ 1 / 2) :
    x * t - 2 ^ 32 * s < upperWord x c * 2 ^ 32 * s ∧ upperWord x c * 2 ^ 32 * s ≤ x * t + 2 ^ 32 * s := by
  have hle : upperWord x c * 2 ^ 32 ≤ x * c + 2 ^ 31 := Nat.div_mul_le_self ..
  have hlt : x * c + 2 ^ 31 < upperWord x c * 2 ^ 32 + 2 ^ 32 := Nat.lt_div_mul_add (Nat.pow_pos (by decide))
  have hle' : (upperWord x c : ℚ) * 2 ^ 32 ≤ x * c + 2 ^ 31 := by exact_mod_cast hle
  have hlt' : (x : ℚ) * c + 2 ^ 31 < upperWord x c * 2 ^ 32 + 2 ^ 32 := by exact_mod_cast hlt
  have hx' : (x : ℚ) ≤ 2 ^ 32 := by exact_mod_cast hx
  have hpower : |(x : ℚ) * (c * s - t)| ≤ 2 ^ 31 * s := by
    have hscaled : (x : ℚ) * (c * s - t) = (c - t / s) * (x * s) := by
      field_simp
    have hpos : (0 : ℚ) ≤ x * s := by positivity
    calc |(x : ℚ) * (c * s - t)| = |(c : ℚ) - t / s| * (x * s) := by rw [hscaled, abs_mul, abs_of_nonneg hpos]
      _ ≤ 1 / 2 * (2 ^ 32 * s) := by gcongr
      _ = 2 ^ 31 * s := by ring
  obtain ⟨h1, h2⟩ := abs_le.mp hpower
  have hlow : ((x : ℚ) * c + 2 ^ 31) * s < (upperWord x c * 2 ^ 32 + 2 ^ 32) * s := by gcongr
  have hhigh : (upperWord x c * 2 ^ 32 : ℚ) * s ≤ (x * c + 2 ^ 31) * s := by gcongr
  constructor <;> linarith

/-- The ends of a lifted interval lie inside of the true ones, by two units at most. -/
theorem lift_spec (hlower : i.lower ≤ 2 ^ 32) (hupper : i.upper ≤ 2 ^ 32) (p : Int) :
    (i.low * (10 : ℚ) ^ p < (i.lift p).low ∧
        (i.lift p).low ≤ i.low * (10 : ℚ) ^ p + 2 * (2 : ℚ) ^ (i.lift p).exponent) ∧
      (i.lift p).high ≤ i.high * (10 : ℚ) ^ p ∧
        i.high * (10 : ℚ) ^ p ≤ (i.lift p).high + 2 * (2 : ℚ) ^ (i.lift p).exponent := by
  have htwo : (2 : ℚ) ≠ 0 := by norm_num
  have hpower := zpow_eq_div 10 (by decide) p
  rw [Nat.cast_ofNat] at hpower
  unfold lift
  simp only
  generalize word.unitExponent (Nat.pow 10 p.toNat) (Nat.pow 10 (-p).toNat) = q
  have hden : 0 < Nat.pow 10 (-p).toNat := Nat.pow_pos (by decide)
  obtain ⟨hc, -⟩ := @Precision.inUnits_spec (Nat.pow 10 p.toNat) _ hden q
  rw [← hpower] at hc
  generalize Precision.inUnits (Nat.pow 10 p.toNat) (Nat.pow 10 (-p).toNat) q = c at hc ⊢
  have hq : (0 : ℚ) < (2 : ℚ) ^ q := by positivity
  have hunit : (2 : ℚ) ^ (i.exponent + q + 32) = 2 ^ 32 * (2 : ℚ) ^ q * (2 : ℚ) ^ i.exponent := by
    rw [zpow_add₀ htwo, zpow_add₀ htwo, mul_comm, mul_comm ((2 : ℚ) ^ i.exponent), mul_assoc]
    norm_cast
  have hv : (0 : ℚ) < (2 : ℚ) ^ i.exponent := by positivity
  obtain ⟨hl1, hl2⟩ := upperWord_near hq hlower hc
  obtain ⟨hu1, hu2⟩ := upperWord_near hq hupper hc
  have hsub : ((upperWord i.upper c : ℚ) - 1 ≤ (upperWord i.upper c - 1 : Nat)) ∧
      (upperWord i.upper c - 1 : Nat) * 2 ^ 32 * (2 : ℚ) ^ q ≤ i.upper * (10 : ℚ) ^ p := by
    rcases Nat.eq_zero_or_pos (upperWord i.upper c) with h0 | hpos
    · rw [h0]
      refine ⟨by norm_num, ?_⟩
      have : (0 : ℚ) ≤ i.upper * (10 : ℚ) ^ p := by positivity
      simpa using this
    · have hcast : ((upperWord i.upper c - 1 : Nat) : ℚ) = upperWord i.upper c - 1 := by
        rw [Nat.cast_sub hpos, Nat.cast_one]
      rw [hcast]
      exact ⟨le_refl _, by linarith⟩
  obtain ⟨hsub1, hsub2⟩ := hsub
  have hsub3 : ((upperWord i.upper c : ℚ) - 1) * (2 ^ 32 * (2 : ℚ) ^ q) ≤
      (upperWord i.upper c - 1 : Nat) * (2 ^ 32 * (2 : ℚ) ^ q) := by gcongr
  unfold low high
  simp only [hunit]
  push_cast
  refine ⟨⟨?_, ?_⟩, ?_, ?_⟩
  · calc i.lower * (2 : ℚ) ^ i.exponent * (10 : ℚ) ^ p
        = i.lower * (10 : ℚ) ^ p * (2 : ℚ) ^ i.exponent := by ring
      _ < ((upperWord i.lower c + 1) * (2 ^ 32 * (2 : ℚ) ^ q)) * (2 : ℚ) ^ i.exponent := by
          refine mul_lt_mul_of_pos_right ?_ hv
          linarith
      _ = _ := by ring
  · calc ((upperWord i.lower c : ℚ) + 1) * (2 ^ 32 * (2 : ℚ) ^ q * (2 : ℚ) ^ i.exponent)
        = ((upperWord i.lower c + 1) * (2 ^ 32 * (2 : ℚ) ^ q)) * (2 : ℚ) ^ i.exponent := by ring
      _ ≤ (i.lower * (10 : ℚ) ^ p + 2 * (2 ^ 32 * (2 : ℚ) ^ q)) * (2 : ℚ) ^ i.exponent := by
          gcongr
          linarith
      _ = _ := by ring
  · calc ((upperWord i.upper c - 1 : Nat) : ℚ) * (2 ^ 32 * (2 : ℚ) ^ q * (2 : ℚ) ^ i.exponent)
        = (upperWord i.upper c - 1 : Nat) * 2 ^ 32 * (2 : ℚ) ^ q * (2 : ℚ) ^ i.exponent := by ring
      _ ≤ i.upper * (10 : ℚ) ^ p * (2 : ℚ) ^ i.exponent := by gcongr
      _ = _ := by ring
  · calc i.upper * (2 : ℚ) ^ i.exponent * (10 : ℚ) ^ p
        = i.upper * (10 : ℚ) ^ p * (2 : ℚ) ^ i.exponent := by ring
      _ ≤ ((upperWord i.upper c - 1 : Nat) * (2 ^ 32 * (2 : ℚ) ^ q) + 2 * (2 ^ 32 * (2 : ℚ) ^ q)) *
          (2 : ℚ) ^ i.exponent := by
          gcongr
          linarith
      _ = _ := by ring

/-! ## Grids -/

/-- The ends and the multiples of a grid on one denominator. -/
theorem scaled_le (hexp : i.exponent ≤ 0) (n D : Nat) (k : Int) :
    ((n : ℚ) * (2 : ℚ) ^ i.exponent ≤ D * (10 : ℚ) ^ k ↔
        n * Nat.pow 10 (-k).toNat ≤ D * (Nat.pow 10 k.toNat * Nat.pow 2 (-i.exponent).toNat)) ∧
      (D * (10 : ℚ) ^ k ≤ n * (2 : ℚ) ^ i.exponent ↔
        D * (Nat.pow 10 k.toNat * Nat.pow 2 (-i.exponent).toNat) ≤ n * Nat.pow 10 (-k).toNat) := by
  have hten := zpow_eq_div 10 (by decide) k
  have htwo := zpow_eq_div 2 (by decide) i.exponent
  have hzero : i.exponent.toNat = 0 := Int.toNat_of_nonpos hexp
  rw [Nat.cast_ofNat] at hten htwo
  rw [hten, htwo, hzero]
  have h10 : (0 : ℚ) < (Nat.pow 10 (-k).toNat : Nat) := by exact_mod_cast Nat.pow_pos (by decide)
  have h2 : (0 : ℚ) < (Nat.pow 2 (-i.exponent).toNat : Nat) := by exact_mod_cast Nat.pow_pos (by decide)
  have hone : ((Nat.pow 2 0 : Nat) : ℚ) = 1 := by norm_num
  rw [hone, mul_one_div, mul_div_assoc', div_le_div_iff₀ h2 h10, div_le_div_iff₀ h10 h2]
  constructor
  · rw [mul_assoc]
    exact_mod_cast Iff.rfl
  · rw [mul_assoc]
    exact_mod_cast Iff.rfl

/-- What is found on a grid is a multiple of its step in the interval. -/
theorem onGrid_spec (hexp : i.exponent ≤ 0) (h : i.onGrid k = some d) :
    d.exponent = k ∧ i.low ≤ d.rational ∧ d.rational ≤ i.high := by
  unfold onGrid at h
  simp only at h
  rw [Option.ite_none_right_eq_some] at h
  obtain ⟨hcond, h⟩ := h
  rw [Bool.and_eq_true, decide_eq_true_eq] at hcond
  obtain ⟨hle, -⟩ := hcond
  cases h
  have hstep : 0 < Nat.pow 10 k.toNat * Nat.pow 2 (-i.exponent).toNat :=
    Nat.mul_pos (Nat.pow_pos (by decide)) (Nat.pow_pos (by decide))
  refine ⟨rfl, ?_, ?_⟩
  · rw [low, Decimal.rational, (scaled_le hexp _ _ k).1]
    have hfirst := Nat.lt_div_mul_add hstep (a := i.lower * Nat.pow 10 (-k).toNat +
      Nat.pow 10 k.toNat * Nat.pow 2 (-i.exponent).toNat - 1)
    generalize Nat.pow 10 k.toNat * Nat.pow 2 (-i.exponent).toNat = step at *
    have hmul := Nat.mul_le_mul_right step (Nat.le_max_left
      ((i.lower * Nat.pow 10 (-k).toNat + step - 1) / step)
      (min ((2 * (i.value * Nat.pow 10 (-k).toNat) + step) / (2 * step)) (i.upper * Nat.pow 10 (-k).toNat / step)))
    simp only
    omega
  · rw [high, Decimal.rational, (scaled_le hexp _ _ k).2]
    refine le_trans (Nat.mul_le_mul_right _ (Nat.max_le.mpr ⟨hle, Nat.min_le_right _ _⟩)) ?_
    exact Nat.div_mul_le_self _ _

/-- A grid that has a multiple in the interval, above its lower end, gives one. -/
theorem isSome_onGrid (hexp : i.exponent ≤ 0) (hlow : i.low < D * (10 : ℚ) ^ k)
    (hhigh : D * (10 : ℚ) ^ k ≤ i.high) : (i.onGrid k).isSome = true := by
  rw [high, (scaled_le hexp _ _ k).2] at hhigh
  rw [low, ← not_le, (scaled_le hexp _ _ k).2, not_le] at hlow
  unfold onGrid
  simp only
  have hstep : 0 < Nat.pow 10 k.toNat * Nat.pow 2 (-i.exponent).toNat :=
    Nat.mul_pos (Nat.pow_pos (by decide)) (Nat.pow_pos (by decide))
  generalize Nat.pow 10 k.toNat * Nat.pow 2 (-i.exponent).toNat = step at *
  generalize i.lower * Nat.pow 10 (-k).toNat = lower at *
  generalize i.upper * Nat.pow 10 (-k).toNat = upper at *
  have hfirst : (lower + step - 1) / step ≤ D := by
    rw [Nat.div_le_iff_le_mul hstep]
    omega
  have hlast : D ≤ upper / step := (Nat.le_div_iff_mul_le hstep).mpr hhigh
  have hmul := Nat.mul_le_mul_right step hlast
  rw [if_pos]
  · rfl
  · simp only [Bool.and_eq_true, Bool.or_eq_true, decide_eq_true_eq]
    exact ⟨Nat.le_trans hfirst hlast, Or.inr (Nat.lt_of_lt_of_le hlow hmul)⟩

/-- The search takes the coarsest grid that gives a decimal, so none behind one that is known to. -/
theorem decimal_spec (hexp : i.exponent ≤ 0) {n : Nat} (hn : n < 17) (h : (i.onGrid (9 - (n : Int))).isSome = true) :
    i.low ≤ i.decimal.rational ∧ i.decimal.rational ≤ i.high ∧ 9 - (n : Int) ≤ i.decimal.exponent := by
  unfold decimal
  cases hfind : (List.range 17).findSome? fun n : Nat => i.onGrid (9 - (n : Int)) with
  | none =>
      rw [List.findSome?_eq_none_iff] at hfind
      rw [hfind n (List.mem_range.mpr hn)] at h
      cases h
  | some d =>
      obtain ⟨as, j, bs, hsplit, hj, has⟩ := List.findSome?_eq_some_iff.mp hfind
      obtain ⟨hd, hlow, hhigh⟩ := onGrid_spec hexp hj
      rw [Option.getD_some]
      refine ⟨hlow, hhigh, ?_⟩
      rw [hd]
      by_contra hlt
      -- the grid that is known to give one would stand in front
      have hlen : as.length = j := by
        have hget := congrArg (·[as.length]?) hsplit
        simp only [List.getElem?_append_right (Nat.le_refl _), Nat.sub_self, List.getElem?_cons_zero] at hget
        obtain ⟨hlt, hget⟩ := List.getElem?_eq_some_iff.mp hget
        rw [List.getElem_range] at hget
        exact hget
      have hmem : n ∈ as := by
        have hget := congrArg (·[n]?) hsplit
        have hnlt : n < as.length := by omega
        simp only [List.getElem?_append_left hnlt] at hget
        rw [List.getElem?_range hn] at hget
        exact List.mem_of_getElem? hget.symm
      rw [has n hmem] at h
      cases h

end Interval

/-! ## Numbers up to `2 ^ 31` -/

variable {m : Nat} {e p : Int}

open StyleTree.Number.Interval

theorem lowerEnd_bounds (hm : 0 < m) (e : Int) : 4 * m ≤ lowerEnd m e + 2 ∧ lowerEnd m e + 1 ≤ 4 * m := by
  unfold lowerEnd
  split <;> omega

theorem around_eq (hm : 2 ^ 23 ≤ m) (hm' : m < 2 ^ 24) (e : Int) :
    Interval.around m e = ⟨lowerEnd m e * 64, 4 * m * 64, upperEnd m * 64, e - 8⟩ := by
  have hlog : (upperEnd m).log2 = 25 := by
    rw [Nat.log2_eq_iff (by unfold upperEnd; omega)]
    unfold upperEnd
    omega
  unfold Interval.around
  rw [hlog]
  refine congrArg (Interval.mk _ _ _) ?_
  show e - 2 - 6 = e - 8
  ring

/-- The ends of the interval of a number, in quarters of its last place. -/
theorem around_ends (hm : 2 ^ 23 ≤ m) (hm' : m < 2 ^ 24) (e : Int) :
    (m : ℚ) * (2 : ℚ) ^ e - 2 * (2 : ℚ) ^ (e - 2) ≤ (Interval.around m e).low ∧
      (Interval.around m e).low ≤ m * (2 : ℚ) ^ e - (2 : ℚ) ^ (e - 2) ∧
      (Interval.around m e).high = m * (2 : ℚ) ^ e + 2 * (2 : ℚ) ^ (e - 2) := by
  have htwo : (2 : ℚ) ≠ 0 := by norm_num
  have hquarter : (2 : ℚ) ^ e = 4 * (2 : ℚ) ^ (e - 2) := by
    have hsplit : e = (e - 2) + 2 := by ring
    conv_lhs => rw [hsplit, zpow_add₀ htwo]
    ring
  have hword : (2 : ℚ) ^ (e - 2) = 64 * (2 : ℚ) ^ (e - 8) := by
    have hsplit : e - 2 = (e - 8) + 6 := by ring
    rw [hsplit, zpow_add₀ htwo]
    ring
  obtain ⟨hl1, hl2⟩ := lowerEnd_bounds (by omega : 0 < m) e
  have hl1' : (4 : ℚ) * m ≤ lowerEnd m e + 2 := by exact_mod_cast hl1
  have hl2' : (lowerEnd m e : ℚ) + 1 ≤ 4 * m := by exact_mod_cast hl2
  rw [around_eq hm hm', low, high]
  unfold upperEnd
  push_cast
  rw [hquarter, hword]
  generalize (lowerEnd m e : ℚ) = l at *
  have hv : (0 : ℚ) < (2 : ℚ) ^ (e - 8) := by positivity
  generalize (2 : ℚ) ^ (e - 8) = v at *
  refine ⟨?_, ?_, ?_⟩
  · have := mul_le_mul_of_nonneg_right hl1' hv.le
    linarith
  · have := mul_le_mul_of_nonneg_right hl2' hv.le
    linarith
  · ring

/-- A decimal that is found with a power of ten which leaves the interval wide enough. -/
theorem decimal_around (hm : 2 ^ 23 ≤ m) (hm' : m < 2 ^ 24) {n : Nat} (hn : n < 17) (hp : 9 - (n : Int) = p)
    (hexp : ((Interval.around m e).lift p).exponent ≤ 0)
    (hwide : 4 * (2 : ℚ) ^ ((Interval.around m e).lift p).exponent ≤ (2 : ℚ) ^ (e - 2) * (10 : ℚ) ^ p)
    (hfine : (10 : ℚ) ^ (-7 : Int) ≤ (2 : ℚ) ^ (e - 2) * (10 : ℚ) ^ p) :
    |((Interval.around m e).lift p).decimal.rational - m * (2 : ℚ) ^ e * (10 : ℚ) ^ p| ≤
        2 * (2 : ℚ) ^ (e - 2) * (10 : ℚ) ^ p ∧
      ∀ k : Nat, (m : ℚ) * (2 : ℚ) ^ e = k → p ≤ ((Interval.around m e).lift p).decimal.exponent := by
  have hmax : upperEnd m * 64 ≤ 2 ^ 32 := by
    unfold upperEnd
    omega
  have hlower := (lowerEnd_bounds (by omega : 0 < m) e).2
  have heq := around_eq hm hm' e
  obtain ⟨hlow1, hlow2, hhigh⟩ := around_ends hm hm' e
  obtain ⟨⟨hl1, hl2⟩, hu1, hu2⟩ := (Interval.around m e).lift_spec (by rw [heq]; simp only; omega)
    (by rw [heq]; exact hmax) p
  have ht : (0 : ℚ) < (10 : ℚ) ^ p := by positivity
  have hlow1' := mul_le_mul_of_nonneg_right hlow1 ht.le
  have hlow2' := mul_le_mul_of_nonneg_right hlow2 ht.le
  rw [hhigh] at hu1 hu2
  have hnonneg : 0 ≤ ((Interval.around m e).lift p).low := by
    unfold low
    positivity
  generalize (Interval.around m e).lift p = i at *
  have hu : (0 : ℚ) < (2 : ℚ) ^ i.exponent := by positivity
  have hw : (0 : ℚ) < (2 : ℚ) ^ (e - 2) * (10 : ℚ) ^ p := by positivity
  refine ⟨?_, fun k hk => ?_⟩
  · -- the finest grid has a multiple in the interval in any case
    have hfloor := Nat.lt_floor_add_one (i.low * 10 ^ 7)
    have hfloor' := Nat.floor_le (by positivity : 0 ≤ i.low * 10 ^ 7)
    have hgrid : (10 : ℚ) ^ (-7 : Int) = 1 / 10 ^ 7 := by norm_num
    have hfound : (i.onGrid (9 - ((16 : Nat) : Int))).isSome = true := by
      refine isSome_onGrid (D := ⌊i.low * 10 ^ 7⌋₊ + 1) hexp ?_ ?_
      · show i.low < _ * (10 : ℚ) ^ (-7 : Int)
        rw [hgrid, mul_one_div, lt_div_iff₀ (by positivity)]
        exact_mod_cast hfloor
      · show _ * (10 : ℚ) ^ (-7 : Int) ≤ i.high
        have hstep : ((⌊i.low * 10 ^ 7⌋₊ + 1 : Nat) : ℚ) * (10 : ℚ) ^ (-7 : Int) ≤ i.low + (10 : ℚ) ^ (-7 : Int) := by
          rw [hgrid, mul_one_div, div_le_iff₀ (by positivity), add_mul, one_div_mul_cancel (by positivity)]
          push_cast
          linarith
        linarith
    obtain ⟨hd1, hd2, -⟩ := decimal_spec hexp (by decide) hfound
    rw [abs_le]
    constructor <;> linarith
  · have hfound : (i.onGrid (9 - (n : Int))).isSome = true := by
      rw [hp]
      rw [hk] at hu1 hu2 hlow1' hlow2'
      refine isSome_onGrid (D := k) hexp ?_ ?_
      · linarith
      · linarith
    obtain ⟨-, -, hd⟩ := decimal_spec hexp hn hfound
    rwa [hp] at hd

/-- The numbers from a half up to `2 ^ 31` are lifted by one of two powers of ten. -/
theorem liftingPower_eq (l v u : Nat) (he : -24 ≤ e) (he' : e ≤ 7) :
    (e ≤ -8 ∧ (Interval.mk l v u (e - 8)).liftingPower = 4) ∨
      (-7 ≤ e ∧ (Interval.mk l v u (e - 8)).liftingPower = -4) := by
  interval_cases e <;> first | exact Or.inl ⟨by decide, rfl⟩ | exact Or.inr ⟨by decide, rfl⟩

/-- For these numbers there is a power of ten which leaves the interval wide enough. -/
theorem exists_liftingPower (hm : 2 ^ 23 ≤ m) (hm' : m < 2 ^ 24) (he : -24 ≤ e) (he' : e ≤ 7) :
    ∃ n : Nat, n < 17 ∧ 9 - (n : Int) = (Interval.around m e).liftingPower ∧
      ((Interval.around m e).lift (Interval.around m e).liftingPower).exponent ≤ 0 ∧
      4 * (2 : ℚ) ^ ((Interval.around m e).lift (Interval.around m e).liftingPower).exponent ≤
        (2 : ℚ) ^ (e - 2) * (10 : ℚ) ^ (Interval.around m e).liftingPower ∧
      (10 : ℚ) ^ (-7 : Int) ≤ (2 : ℚ) ^ (e - 2) * (10 : ℚ) ^ (Interval.around m e).liftingPower := by
  have htwo : (2 : ℚ) ≠ 0 := by norm_num
  have hv : (0 : ℚ) < (2 : ℚ) ^ (e - 2) := by positivity
  have hone : (1 : ℚ) ≤ 2 := by norm_num
  rw [around_eq hm hm']
  rcases liftingPower_eq (lowerEnd m e * 64) (4 * m * 64) (upperEnd m * 64) he he' with ⟨hle, hp⟩ | ⟨hle, hp⟩
  · have hunit : word.unitExponent (Nat.pow 10 (4 : Int).toNat) (Nat.pow 10 (-4 : Int).toNat) = -18 := by decide
    have hexp : (Interval.lift ⟨lowerEnd m e * 64, 4 * m * 64, upperEnd m * 64, e - 8⟩ 4).exponent = e + 6 := by
      show e - 8 + word.unitExponent (Nat.pow 10 (4 : Int).toNat) (Nat.pow 10 (-4 : Int).toNat) + 32 = e + 6
      rw [hunit]
      ring
    have hsplit : (2 : ℚ) ^ (e + 6) = (2 : ℚ) ^ (e - 2) * 2 ^ (8 : Int) := by
      rw [← zpow_add₀ htwo]
      congr 1
      ring
    have hmin : (2 : ℚ) ^ (-26 : Int) ≤ (2 : ℚ) ^ (e - 2) := zpow_le_zpow_right₀ hone (by omega)
    rw [hp, hexp, hsplit]
    refine ⟨5, by decide, rfl, by omega, ?_, ?_⟩
    · norm_num
      linarith
    · norm_num at hmin ⊢
      linarith
  · have hunit : word.unitExponent (Nat.pow 10 (-4 : Int).toNat) (Nat.pow 10 (- -4 : Int).toNat) = -45 := by decide
    have hexp : (Interval.lift ⟨lowerEnd m e * 64, 4 * m * 64, upperEnd m * 64, e - 8⟩ (-4)).exponent = e - 21 := by
      show e - 8 + word.unitExponent (Nat.pow 10 (-4 : Int).toNat) (Nat.pow 10 (- -4 : Int).toNat) + 32 = e - 21
      rw [hunit]
      ring
    have hsplit : (2 : ℚ) ^ (e - 21) = (2 : ℚ) ^ (e - 2) * 2 ^ (-19 : Int) := by
      rw [← zpow_add₀ htwo]
      congr 1
      ring
    have hmin : (2 : ℚ) ^ (-9 : Int) ≤ (2 : ℚ) ^ (e - 2) := zpow_le_zpow_right₀ hone (by omega)
    rw [hp, hexp, hsplit]
    refine ⟨13, by decide, rfl, by omega, ?_, ?_⟩
    · norm_num
      linarith
    · norm_num at hmin ⊢
      linarith

/-- A decimal is brought down by a power of ten. -/
theorem rational_sub (d : Decimal) (p : Int) :
    (Decimal.mk d.digits (d.exponent - p)).rational * (10 : ℚ) ^ p = d.rational := by
  rw [Decimal.rational, Decimal.rational, mul_assoc, ← zpow_add₀ (by norm_num), sub_add_cancel]

/-- The decimal is off by at most half a unit of the last place, and that of a whole number has no digits behind
the point. -/
theorem fixedPoint_spec (hm : 2 ^ 23 ≤ m) (hm' : m < 2 ^ 24) (he : -24 ≤ e) (he' : e ≤ 7) :
    |(fixedPoint m e).rational - m * (2 : ℚ) ^ e| ≤ (2 : ℚ) ^ (e - 1) ∧
      ∀ k : Nat, (m : ℚ) * (2 : ℚ) ^ e = k → 0 ≤ (fixedPoint m e).exponent := by
  obtain ⟨n, hn, hp, hexp, hwide, hfine⟩ := exists_liftingPower hm hm' he he'
  obtain ⟨hnear, hwhole⟩ := decimal_around hm hm' hn hp hexp hwide hfine
  have heq : fixedPoint m e = ⟨((Interval.around m e).lift (Interval.around m e).liftingPower).decimal.digits,
      ((Interval.around m e).lift (Interval.around m e).liftingPower).decimal.exponent -
        (Interval.around m e).liftingPower⟩ := rfl
  rw [heq]
  generalize ((Interval.around m e).lift (Interval.around m e).liftingPower).decimal = d at *
  generalize (Interval.around m e).liftingPower = p at *
  have ht : (0 : ℚ) < (10 : ℚ) ^ p := by positivity
  have hhalf : (2 : ℚ) ^ (e - 1) = 2 * (2 : ℚ) ^ (e - 2) := by
    have hsplit : e - 1 = (e - 2) + 1 := by ring
    rw [hsplit, zpow_add_one₀ (by norm_num), mul_comm]
  have hdown := rational_sub d p
  constructor
  · rw [← hdown, ← sub_mul, abs_mul, abs_of_pos ht] at hnear
    rw [hhalf]
    exact le_of_mul_le_mul_right hnear ht
  · intro k hk
    have := hwhole k hk
    show 0 ≤ d.exponent - p
    omega

end StyleTree.Number
