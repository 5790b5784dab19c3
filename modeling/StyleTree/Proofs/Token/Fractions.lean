/-
# `Proofs.Token.Fractions` — how near a number with a fraction is read

The digits behind a point are added up in double precision, each with a
weight that is a tenth of the last one.  Every digit adds an error of a few
units in the last place of one, so a number of a few digits is read to
eleven places behind the point (`magnitude_within`).
-/
import StyleTree.Proofs.Number.Errors
import StyleTree.Proofs.Token.Rendering

namespace StyleTree.Scan.Written

open Number Precision

variable {w : Written} {ds : List Nat} {d : Nat} {v weight : Magnitude} {r a ε : ℚ}

/-- What digits behind a point stand for. -/
def fractionOf (ds : List Nat) : ℚ := natOf ds / 10 ^ ds.length

theorem fractionOf_nil : fractionOf [] = 0 := by
  unfold fractionOf natOf
  norm_num

theorem fractionOf_concat (ds : List Nat) (d : Nat) :
    fractionOf (ds ++ [d]) = fractionOf ds + d * (1 / 10 ^ (ds.length + 1)) := by
  unfold fractionOf
  rw [natOf_concat, List.length_append, List.length_singleton, pow_succ]
  push_cast
  field_simp

theorem fractionOf_bounds : ∀ {ds : List Nat}, (∀ d ∈ ds, d ≤ 9) → 0 ≤ fractionOf ds ∧ fractionOf ds < 1 := by
  intro ds hds
  have hlt : natOf ds < 10 ^ ds.length := by
    induction ds using List.reverseRecOn with
    | nil => exact Nat.one_pos
    | append_singleton ds d ih =>
        have hd := hds d (List.mem_append_right _ List.mem_cons_self)
        have hlt := ih fun x hx => hds x (List.mem_append_left _ hx)
        rw [natOf_concat, List.length_append, List.length_singleton, Nat.pow_succ]
        omega
  have hlt' : (natOf ds : ℚ) < 10 ^ ds.length := by exact_mod_cast hlt
  unfold fractionOf
  refine ⟨by positivity, ?_⟩
  rwa [div_lt_one (by positivity)]

/-- The digits on both sides of a point, taken together. -/
theorem rational_decimalOf (whole fraction : List Nat) :
    (decimalOf whole fraction).rational = natOf whole + fractionOf fraction := by
  rw [decimalOf, Decimal.rational, natOf_append, fractionOf, zpow_neg, zpow_natCast]
  push_cast
  field_simp

theorem le_nine_of_mem_digits {cs : List Char} (hcs : ∀ c ∈ cs, c.isDigit = true) (hd : d ∈ digits cs) : d ≤ 9 := by
  rw [digits_eq_map hcs, List.mem_map] at hd
  obtain ⟨c, hc, rfl⟩ := hd
  have hdigit := hcs c hc
  unfold Char.isDigit at hdigit
  rw [Bool.and_eq_true, decide_eq_true_eq, decide_eq_true_eq] at hdigit
  have hle : c.val.toNat ≤ 57 := UInt32.le_iff_toNat_le.mp hdigit.2
  show c.val.toNat - 48 ≤ 9
  omega

/-! ## One digit -/

theorem within_tenth : tenth.Within (1 / 10) (1 / 2 ^ 56) := by
  have htenth : ((1 : Nat) : ℚ) / (10 : Nat) = 1 / 10 := by norm_num
  refine (isWide_double.round (by decide) htenth (by norm_num)).mono ?_
  rw [slack_double]
  norm_num

/-- The next weight is as near as the last one. -/
theorem within_weight (hweight : weight.Within a (1 / 2 ^ 50)) (ha : 0 ≤ a) (hmax : a ≤ 1 / 10) :
    (double.mul weight tenth).Within (a * (1 / 10)) (1 / 2 ^ 50) := by
  refine (isWide_double.mul hweight within_tenth ha (by norm_num) ?_).mono ?_
  · linarith
  · rw [slack_double]
    linarith

/-- A digit adds a few units in the last place of one. -/
theorem within_digit (hv : v.Within r ε) (hweight : weight.Within a (1 / 2 ^ 50)) (hd : d ≤ 9) (ha : 0 ≤ a)
    (hε : ε ≤ 1) (hr : 0 ≤ r) (hmax : r + d * a ≤ 1) :
    (double.add v (double.mul (.finite d 0) weight)).Within (r + d * a) (ε + 11 / 2 ^ 50) := by
  have hd' : (d : ℚ) ≤ 9 := by exact_mod_cast hd
  have hd0 : (0 : ℚ) ≤ d := by positivity
  have hproduct : (double.mul (.finite d 0) weight).Within (d * a) (10 / 2 ^ 50) := by
    refine (isWide_double.mul (Magnitude.within_whole d) hweight hd0 ha ?_).mono ?_
    · linarith
    · rw [slack_double]
      linarith
  refine (isWide_double.add hv hproduct ?_).mono ?_
  · linarith
  · rw [slack_double]
    linarith

/-! ## All digits -/

/-- The sum of some digits with their weights, and the weight of the next one. -/
def weighed (ds : List Nat) : Magnitude × Magnitude :=
  ds.foldl (fun (v, weight) d => (double.add v (double.mul (.finite d 0) weight), double.mul weight tenth))
    (Magnitude.zero, tenth)

theorem weighed_concat (ds : List Nat) (d : Nat) : weighed (ds ++ [d]) =
    (double.add (weighed ds).1 (double.mul (.finite d 0) (weighed ds).2), double.mul (weighed ds).2 tenth) := by
  rw [weighed, List.foldl_append]
  rfl

theorem within_weighed (hds : ∀ d ∈ ds, d ≤ 9) (hlength : ds.length ≤ 100) :
    (weighed ds).1.Within (fractionOf ds) (ds.length * (11 / 2 ^ 50)) ∧
      (weighed ds).2.Within (1 / 10 ^ (ds.length + 1)) (1 / 2 ^ 50) := by
  induction ds using List.reverseRecOn with
  | nil =>
      refine ⟨⟨0, 0, rfl, ?_⟩, ?_⟩
      · rw [fractionOf_nil]
        norm_num
      · rw [List.length_nil, zero_add, pow_one]
        exact within_tenth.mono (by norm_num)
  | append_singleton ds d ih =>
      rw [List.length_append, List.length_singleton] at hlength
      have hsome : ∀ x ∈ ds, x ≤ 9 := fun x hx => hds x (List.mem_append_left _ hx)
      obtain ⟨hsum, hweight⟩ := ih hsome (by omega)
      have hd := hds d (List.mem_append_right _ List.mem_cons_self)
      have hfirst := (fractionOf_bounds hsome).1
      have hall := (fractionOf_bounds hds).2
      have hlength' : (ds.length : ℚ) ≤ 100 := by exact_mod_cast (by omega : ds.length ≤ 100)
      have hpos : (0 : ℚ) ≤ 1 / 10 ^ (ds.length + 1) := by positivity
      have htenth : (1 : ℚ) / 10 ^ (ds.length + 1) ≤ 1 / 10 := by
        rw [pow_succ', ← div_div]
        exact div_le_self (by norm_num) (one_le_pow₀ (by norm_num))
      rw [fractionOf_concat] at hall ⊢
      rw [weighed_concat, List.length_append, List.length_singleton]
      constructor
      · refine (within_digit hsum hweight hd hpos (by linarith) hfirst hall.le).mono ?_
        push_cast
        linarith
      · have hnext : (1 : ℚ) / 10 ^ (ds.length + 1 + 1) = 1 / 10 ^ (ds.length + 1) * (1 / 10) := by
          rw [pow_succ _ (ds.length + 1)]
          field_simp
        rw [hnext]
        exact within_weight hweight hpos htenth

/-- A number with few digits and no exponent is read to eleven places behind the point. -/
theorem magnitude_within (hw : w.exponent = none) (hmax : natOf w.whole ≤ 1000)
    (hds : ∀ d ∈ w.fraction.getD [], d ≤ 9) (hlength : (w.fraction.getD []).length ≤ 100) :
    w.magnitude.Within (natOf w.whole + fractionOf (w.fraction.getD [])) (1 / 2 ^ 38) := by
  have hwhole : (wholePart w.whole).Within (natOf w.whole) 0 := by
    have hlt : natOf w.whole < 2 ^ 53 := by omega
    obtain ⟨m, e, hm, hvalue⟩ := ofNat_finite hlt
    refine ⟨m, e, (wholePart_eq hlt).trans hm, ?_⟩
    rw [hvalue, sub_self, abs_zero]
  obtain ⟨hfraction, -⟩ := within_weighed hds hlength
  obtain ⟨hnonneg, hone⟩ := fractionOf_bounds hds
  have hmax' : (natOf w.whole : ℚ) ≤ 1000 := by exact_mod_cast hmax
  have hlength' : ((w.fraction.getD []).length : ℚ) ≤ 100 := by exact_mod_cast hlength
  have hvalue : w.magnitude = double.add (wholePart w.whole) (fractionPart (w.fraction.getD [])) := by
    unfold magnitude
    rw [hw]
  rw [hvalue]
  refine (isWide_double.add hwhole hfraction ?_).mono ?_
  · linarith
  · rw [slack_double]
    linarith

end StyleTree.Scan.Written
