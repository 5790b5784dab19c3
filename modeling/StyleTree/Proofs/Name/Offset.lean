/-
# `Proofs.Name.Offset` — an offset is read back from its text

An offset is a number of ten-thousandths of a percent, in single precision
(`steps`), and at most a hundred percent (`IsOffset`).  It is written as the
shortest decimal and read again with a whole number or with a fraction.  On
the way there are eight roundings at most, each of which is off by one part
in `2 ^ 24`.  A hundred percent are a million steps, so all of them make
less than half a step, and the number of steps is found again
(`offset?_numeral`).  What is lost is the sign, which only zero can have:
`-0%` is read as `0%`.
-/
import StyleTree.Name.Key
import StyleTree.Proofs.Number.Shortest
import StyleTree.Proofs.Token.Fractions

namespace StyleTree

/-- A number without its sign. -/
def Number.Single.unsigned (x : Number.Single) : Number.Single := ⟨false, x.magnitude⟩

namespace KeyframeKey

open Number Precision ComponentValue Scan
open Magnitude (scaledUp scaledDown)

variable {x : Single} {y : Magnitude} {k n m : Nat} {e i : Int} {r : ℚ} {s : Spelling}

/-! ## Steps -/

/-- A number of ten-thousandths of a percent. -/
def steps (k : Nat) : Magnitude := single.divNat (single.ofNat k) 10000

theorem steps_zero : steps 0 = .zero := by decide

/-- The whole numbers of percent. -/
theorem ofNat_eq_steps : ∀ n < 101, single.ofNat n = steps (10000 * n) := by decide +kernel

theorem ofNat_cases (hn : 0 < n) :
    single.ofNat n = .infinite ∨ ∃ m e, single.ofNat n = .finite m e ∧ single.Rounds n m e := by
  have hn' : (1 : ℚ) ≤ n := by exact_mod_cast hn
  have hnormal : (2 : ℚ) ^ (single.leastExponent + single.bits - 1) ≤ n / (1 : Nat) := by
    rw [div_one_cast]
    refine le_trans (zpow_le_one_of_nonpos₀ (by norm_num) (by decide)) hn'
  obtain ⟨m, e, hround, hrounds⟩ := single.rounds_or_infinite (by decide) hn Nat.one_pos hnormal
  rw [div_one_cast] at hrounds
  rw [ofNat, hround]
  split
  · exact .inl rfl
  · exact .inr ⟨m, e, rfl, hrounds⟩

/-- A number of steps has a mantissa with all bits, and is off by what two roundings amount to. -/
theorem steps_cases (hk : 0 < k) : steps k = .infinite ∨ ∃ m e, steps k = .finite m e ∧ 2 ^ 23 ≤ m ∧
    |(m : ℚ) * (2 : ℚ) ^ e - k / 10000| ≤ k / 10000 / 2 ^ 22 := by
  have hk' : (1 : ℚ) ≤ k := by exact_mod_cast hk
  rcases ofNat_cases hk with h | ⟨m, e, h, hrounds⟩
  · rw [steps, h]
    exact .inl rfl
  · have hnear : |(m : ℚ) * (2 : ℚ) ^ e - k| ≤ k / 2 ^ 24 := hrounds.near
    rw [abs_le] at hnear
    obtain ⟨hpos, hquotient⟩ := divNat_quotient m e (show 0 < 10000 by decide)
    rw [Nat.cast_ofNat] at hquotient
    have hm : 0 < scaledUp m e := Nat.mul_pos (lt_of_lt_of_le (by decide) hrounds.normal) (Nat.pow_pos (by decide))
    have hnormal : (2 : ℚ) ^ (single.leastExponent + single.bits - 1) ≤
        scaledUp m e / (scaledDown e * 10000 : Nat) := by
      rw [hquotient]
      refine le_trans (zpow_le_zpow_right₀ (by norm_num) (show _ ≤ (-20 : Int) by decide)) ?_
      norm_num
      linarith
    obtain ⟨m', e', hround, hrounds'⟩ := single.rounds_or_infinite (by decide) hm hpos hnormal
    have hnear' : |(m' : ℚ) * (2 : ℚ) ^ e' - m * (2 : ℚ) ^ e / 10000| ≤ m * (2 : ℚ) ^ e / 10000 / 2 ^ 24 := by
      have hnear' := hrounds'.near
      rwa [hquotient] at hnear'
    have hsteps : steps k = if single.greatestExponent < e' then .infinite else .finite m' e' := by
      rw [steps, h]
      exact hround
    rw [hsteps]
    split
    · exact .inl rfl
    · refine .inr ⟨m', e', rfl, hrounds'.normal, ?_⟩
      rw [abs_le] at hnear' ⊢
      constructor <;> linarith

/-! ## Offsets -/

theorem le_hundred (h : (Magnitude.finite m e).le (.finite 100 0) = true) : (m : ℚ) * (2 : ℚ) ^ e ≤ 100 := by
  have hvalue := Magnitude.scaled_div m e
  have hle : scaledUp m e * 1 ≤ 100 * scaledDown e := of_decide_eq_true h
  have hpos' : (0 : ℚ) < scaledDown e := by exact_mod_cast Magnitude.scaledDown_pos e
  rw [← hvalue, div_le_iff₀ hpos']
  rw [Nat.mul_one] at hle
  exact_mod_cast hle

/-- A number of steps in the range. -/
structure IsOffset (x : Single) : Prop where
  between : x.isBetween 0 100 = true
  exists_steps : ∃ k, x.magnitude = steps k

/-- An offset is zero with a sign or without one, or up to a million steps. -/
theorem IsOffset.cases (h : IsOffset x) : x.magnitude = .zero ∨
    x.negative = false ∧ ∃ k, 0 < k ∧ k ≤ 10 ^ 6 ∧ x.magnitude = steps k ∧ steps k ≠ .infinite := by
  obtain ⟨hbetween, k, hk⟩ := h
  rcases Nat.eq_zero_or_pos k with rfl | hpos
  · exact .inl (hk.trans steps_zero)
  unfold Single.isBetween at hbetween
  rw [hk] at hbetween
  rcases steps_cases hpos with hinf | ⟨m, e, hm, hnormal, hnear⟩
  · rw [hinf] at hbetween
    split at hbetween <;> cases hbetween
  · rw [hm] at hbetween
    split at hbetween
    · obtain ⟨j, rfl⟩ : ∃ j, m = j + 1 := ⟨m - 1, by omega⟩
      cases hbetween
    · next hnegative =>
        refine .inr ⟨Bool.eq_false_iff.mpr hnegative, k, hpos, ?_, hk, by rw [hm]; rintro ⟨⟩⟩
        rw [Bool.and_eq_true] at hbetween
        have hle := le_hundred hbetween.2
        rw [abs_le] at hnear
        by_contra hlt
        have hk' : (10 : ℚ) ^ 6 + 1 ≤ k := by exact_mod_cast Nat.lt_of_not_le hlt
        linarith

/-- A whole number of percent in the range. -/
theorem exists_of_isBetween (h : (ofInt i).isBetween 0 100 = true) : ∃ n : Nat, n < 101 ∧ i = n := by
  unfold Single.isBetween ofInt at h
  simp only at h
  rcases Nat.eq_zero_or_pos i.natAbs with h0 | hpos
  · exact ⟨0, by decide, Int.natAbs_eq_zero.mp h0⟩
  rcases ofNat_cases hpos with hinf | ⟨m, e, hm, hrounds⟩
  · rw [hinf] at h
    split at h <;> cases h
  · rw [hm] at h
    split at h
    · have hnormal : 2 ^ 23 ≤ m := hrounds.normal
      obtain ⟨j, rfl⟩ : ∃ j, m = j + 1 := ⟨m - 1, by omega⟩
      cases h
    · next hnegative =>
        rw [decide_eq_true_eq] at hnegative
        rw [Bool.and_eq_true] at h
        have hle := le_hundred h.2
        have hnear : |(m : ℚ) * (2 : ℚ) ^ e - i.natAbs| ≤ i.natAbs / 2 ^ 24 := hrounds.near
        rw [abs_le] at hnear
        refine ⟨i.natAbs, ?_, by omega⟩
        by_contra hlt
        have hi : (101 : ℚ) ≤ i.natAbs := by exact_mod_cast Nat.le_of_not_lt hlt
        linarith

theorem isOffset_ofInt (h : (ofInt i).isBetween 0 100 = true) : IsOffset (ofInt i) := by
  obtain ⟨n, hn, rfl⟩ := exists_of_isBetween h
  exact ⟨h, 10000 * n, ofNat_eq_steps n hn⟩

theorem isOffset_ofFraction (h : (ofFraction x).isBetween 0 100 = true) : IsOffset (ofFraction x) := by
  refine ⟨h, ?_⟩
  unfold ofFraction at h ⊢
  simp only at h ⊢
  generalize single.mul (single.mul x.magnitude (.finite 100 0)) (.finite 10000 0) = y at h ⊢
  cases y with
  | finite m e => exact ⟨_, rfl⟩
  | infinite =>
      unfold Single.isBetween at h
      split at h <;> cases h
  | undefined =>
      unfold Single.isBetween at h
      split at h <;> cases h

/-- What is read as a part of a key is an offset. -/
theorem isOffset_of_ofPart? {part : List ComponentValue} (h : ofPart? part = some x) : IsOffset x := by
  unfold ofPart? at h
  split at h
  · obtain ⟨h, hbetween⟩ := Option.filter_eq_some_iff.mp h
    unfold offset? at h
    split at h
    · split at h
      · cases h
        exact isOffset_ofInt hbetween
      · split at h
        · cases h
          exact isOffset_ofInt hbetween
        · cases h
    · split at h
      · cases h
        exact isOffset_ofInt hbetween
      · cases h
        exact isOffset_ofFraction hbetween
    · cases h
  · cases h

/-! ## Read with a fraction -/

/-- The nearest natural to a magnitude that is less than a half away. -/
theorem roundHalfUp_eq {ε : ℚ} (h : y.Within r ε) (hnear : |r - n| + ε < 1 / 2) : roundHalfUp y = single.ofNat n := by
  obtain ⟨m, e, rfl, hm⟩ := h
  have htwice : ((2 * scaledUp m e : Nat) : ℚ) / (2 * scaledDown e : Nat) = m * (2 : ℚ) ^ e := by
    push_cast
    rw [mul_div_mul_left _ _ (by norm_num), Magnitude.scaled_div]
  have hoff : |((2 * scaledUp m e : Nat) : ℚ) / (2 * scaledDown e : Nat) - n| < 1 / 2 := by
    rw [htwice]
    refine lt_of_le_of_lt (abs_sub_le _ r _) ?_
    linarith
  have hround := halfUp_eq (Nat.mul_pos Nat.two_pos (Magnitude.scaledDown_pos e)) (Dvd.intro _ rfl) hoff
  rw [Nat.mul_div_cancel_left _ Nat.two_pos] at hround
  exact congrArg single.ofNat hround

/-- A percentage that is next to a number of steps is taken for it. -/
theorem ofFraction_eq (hy : y.Within r (1 / 2 ^ 38)) (hr : 0 ≤ r) (hk : k ≤ 10 ^ 6)
    (hnear : |r * 10000 - k| ≤ k * (5.01 / 2 ^ 24)) :
    ofFraction ⟨false, single.convert (double.divNat y 100)⟩ = ⟨false, steps k⟩ := by
  have hk' : (k : ℚ) ≤ 10 ^ 6 := by exact_mod_cast hk
  have hmax : r * 10000 ≤ 10 ^ 6 + 1 := by
    have hle := (abs_le.mp hnear).2
    linarith
  have hhundredth : (double.divNat y 100).Within (r / 100) (1 / 2 ^ 44) := by
    have hdiv := isWide_double.divNat hy (show 0 < 100 by decide) (by push_cast; linarith)
    refine hdiv.mono ?_
    rw [slack_double]
    push_cast
    linarith
  have hkept : (single.convert (double.divNat y 100)).Within (r / 100) (r / 100 / 2 ^ 24 + 1 / 2 ^ 43) := by
    refine (isWide_single.convert hhundredth ?_).mono ?_
    · linarith
    · rw [slack_single]
      linarith
  have hpercent : (single.mul (single.convert (double.divNat y 100)) (.finite 100 0)).Within r
      (2 * r / 2 ^ 24 + 1 / 2 ^ 35) := by
    have hmul := isWide_single.mul hkept (Magnitude.within_whole 100) (by positivity) (by positivity)
      (by push_cast; linarith)
    have hsame : r / 100 * (100 : Nat) = r := by
      push_cast
      field_simp
    rw [hsame] at hmul
    refine hmul.mono ?_
    rw [slack_single]
    push_cast
    linarith
  have hscaled : (single.mul (single.mul (single.convert (double.divNat y 100)) (.finite 100 0))
      (.finite 10000 0)).Within (r * 10000) (3 * (r * 10000) / 2 ^ 24 + 1 / 2 ^ 20) := by
    have hmul := isWide_single.mul hpercent (Magnitude.within_whole 10000) hr (by positivity) (by push_cast; linarith)
    rw [Nat.cast_ofNat] at hmul
    refine hmul.mono ?_
    rw [slack_single]
    linarith
  unfold ofFraction
  simp only
  rw [roundHalfUp_eq hscaled (n := k), steps]
  have hle := abs_le.mp hnear
  linarith

/-! ## Written and read again -/

/-- The parts that an offset is written in. -/
structure IsSpelling (s : Spelling) (x : Single) : Prop where
  text : (offsetText x).toList = s.text ++ ['%']
  negative : s.written.negative = x.negative
  exponent : s.exponent = none
  whole : 0 ≤ x.magnitude.decimal.exponent ↔ s.fraction = none
  rational : (decimalOf s.written.whole (s.written.fraction.getD [])).rational = x.magnitude.decimal.rational
  places : (decimalOf s.written.whole (s.written.fraction.getD [])).exponent = min x.magnitude.decimal.exponent 0

theorem exists_isSpelling (x : Single) : ∃ s, IsSpelling s x := by
  obtain ⟨whole, fraction, htext, hwhole, hrational, hplaces⟩ := exists_positional x.magnitude.decimal
  refine ⟨⟨if x.negative then some true else none, whole, fraction, none⟩, ?_, ?_, rfl, hwhole, hrational, hplaces⟩
  · rw [offsetText, htext, String.toList_ofList]
    unfold Spelling.text
    simp only [Spelling.exponentText, List.append_nil]
    cases x.negative <;> rfl
  · show ((if x.negative then some true else none) == some true) = _
    cases x.negative <;> rfl

/-- The number of the percentage that such parts are read as. -/
def numeralOf (s : Spelling) : Numeral := s.written.numeral (double.divNat s.written.magnitude 100)

theorem int_of_whole (hs : IsSpelling s x) (hwhole : s.fraction = none) :
    s.written.int = if x.negative then some (max (-(Written.natOf s.written.whole : Int)) (-2147483648))
      else some (min (Written.natOf s.written.whole : Int) 2147483647) := by
  rw [Written.int, hs.negative, if_neg]
  show ¬((s.fraction.map _).isSome || (s.exponent.map _).isSome) = true
  rw [hwhole, hs.exponent]
  rintro ⟨⟩

theorem natOf_of_whole (hs : IsSpelling s x) (hwhole : s.fraction = none) :
    (Written.natOf s.written.whole : ℚ) = x.magnitude.decimal.rational := by
  have hnone : s.written.fraction.getD [] = [] := by
    show (s.fraction.map _).getD [] = []
    rw [hwhole]
    rfl
  have hrational := hs.rational
  rwa [hnone, Written.rational_decimalOf, Written.fractionOf_nil, add_zero] at hrational

/-- The decimal of some steps is next to them, with few digits behind the point. -/
theorem decimal_steps (hpos : 0 < k) (h : steps k ≠ .infinite) :
    |(steps k).decimal.rational * 10000 - k| ≤ k * (5.01 / 2 ^ 24) ∧ -14 < (steps k).decimal.exponent := by
  have hk : (1 : ℚ) ≤ k := by exact_mod_cast hpos
  obtain ⟨m, e, hm, hnormal, hnear⟩ := (steps_cases hpos).resolve_left h
  have hdecimal : (Magnitude.finite m e).decimal = shortest m e := by
    obtain ⟨j, rfl⟩ : ∃ j, m = j + 1 := ⟨m - 1, by omega⟩
    rfl
  obtain ⟨hshort, hplaces⟩ := shortest_spec hnormal e
  rw [hm, hdecimal]
  rw [abs_le] at hnear hshort ⊢
  refine ⟨⟨by linarith, by linarith⟩, ?_⟩
  have hlt : (10 : ℚ) ^ (-5 : Int) < (10 : ℚ) ^ ((shortest m e).exponent + 9) := by
    refine lt_trans ?_ hplaces
    norm_num
    linarith
  rw [zpow_lt_zpow_iff_right₀ (by norm_num)] at hlt
  omega

theorem offset?_percentage (s : Spelling) : offset? (.token (.percentage (numeralOf s))) =
    match s.written.int with
    | some i => some (ofInt i)
    | none => some (ofFraction (numeralOf s).value) := rfl

theorem offset?_of_zero (hs : IsSpelling s x) (hzero : x.magnitude = .zero) :
    offset? (.token (.percentage (numeralOf s))) = some x.unsigned := by
  have hdecimal : x.magnitude.decimal = ⟨0, 0⟩ := by
    rw [hzero]
    rfl
  have hwhole : s.fraction = none := hs.whole.mp (by rw [hdecimal])
  have hnat : Written.natOf s.written.whole = 0 := by
    have hnat := natOf_of_whole hs hwhole
    rw [hdecimal, Decimal.rational, Nat.cast_zero, zero_mul] at hnat
    exact_mod_cast hnat
  have hint : s.written.int = some 0 := by
    rw [int_of_whole hs hwhole, hnat]
    cases x.negative <;> rfl
  have hofInt : ofInt 0 = ⟨false, .zero⟩ := by decide
  rw [offset?_percentage, hint, Single.unsigned, hzero]
  exact congrArg some hofInt

/-- A whole number of percent is exact. -/
theorem offset?_of_whole (hs : IsSpelling s x) (hwhole : s.fraction = none) (hnegative : x.negative = false)
    (hsteps : x.magnitude = steps k) (hmax : k ≤ 10 ^ 6)
    (hnear : |x.magnitude.decimal.rational * 10000 - k| ≤ k * (5.01 / 2 ^ 24)) :
    offset? (.token (.percentage (numeralOf s))) = some x.unsigned := by
  have hmax' : (k : ℚ) ≤ 10 ^ 6 := by exact_mod_cast hmax
  have hnat := natOf_of_whole hs hwhole
  rw [← hnat] at hnear
  have hint := int_of_whole hs hwhole
  rw [hnegative] at hint
  generalize Written.natOf s.written.whole = n at hnear hint
  have hk : n * 10000 = k := by
    refine eq_of_near ?_
    push_cast
    linarith
  replace hint : s.written.int = some (n : Int) := by
    rw [hint]
    show some (min _ _) = _
    rw [min_eq_left (by omega)]
  have hofNat := ofNat_eq_steps n (by omega)
  rw [mul_comm, hk] at hofNat
  rw [offset?_percentage, hint]
  show some (Single.mk (decide ((n : Int) < 0)) (single.ofNat _)) = some ⟨false, _⟩
  rw [hsteps, ← hofNat, decide_eq_false (by omega), Int.natAbs_natCast]

theorem offset?_of_fraction (hs : IsSpelling s x) {ds : Digits} (hfraction : s.fraction = some ds)
    (hnegative : x.negative = false) (hsteps : x.magnitude = steps k) (hmax : k ≤ 10 ^ 6)
    (hnear : |x.magnitude.decimal.rational * 10000 - k| ≤ k * (5.01 / 2 ^ 24))
    (hplaces : -14 < x.magnitude.decimal.exponent) :
    offset? (.token (.percentage (numeralOf s))) = some x.unsigned := by
  have hsome : s.written.fraction.getD [] = digits ds.chars := by
    show (s.fraction.map _).getD [] = _
    rw [hfraction]
    rfl
  have hint : s.written.int = none := by
    rw [Written.int, if_pos]
    show ((s.fraction.map _).isSome || (s.exponent.map _).isSome) = true
    rw [hfraction]
    rfl
  have hexponent : s.written.exponent = none := by
    show s.exponent.map _ = none
    rw [hs.exponent]
    rfl
  have hvalue : (numeralOf s).value = ⟨false, single.convert (double.divNat s.written.magnitude 100)⟩ := by
    show Single.mk s.written.negative _ = _
    rw [hs.negative, hnegative]
  have hdigits : ∀ d ∈ s.written.fraction.getD [], d ≤ 9 := by
    rw [hsome]
    exact fun d hd => Written.le_nine_of_mem_digits ds.digits hd
  have hlength : (s.written.fraction.getD []).length ≤ 100 := by
    have hlength := hs.places
    rw [decimalOf] at hlength
    simp only at hlength
    omega
  have hrational := hs.rational
  rw [Written.rational_decimalOf] at hrational
  have hsmall : Written.natOf s.written.whole ≤ 1000 := by
    have hmax' : (k : ℚ) ≤ 10 ^ 6 := by exact_mod_cast hmax
    have hnear' := (abs_le.mp hnear).2
    have hnonneg := (Written.fractionOf_bounds hdigits).1
    have hsmall : (Written.natOf s.written.whole : ℚ) ≤ 1000 := by linarith
    exact_mod_cast hsmall
  have hwithin := Written.magnitude_within hexponent hsmall hdigits hlength
  rw [hrational] at hwithin
  have hpositive : 0 ≤ x.magnitude.decimal.rational := by
    unfold Decimal.rational
    positivity
  rw [offset?_percentage, hint, hvalue]
  simp only
  rw [ofFraction_eq hwithin hpositive hmax hnear, Single.unsigned, hsteps]

/-- An offset is read back, but for its sign. -/
theorem offset?_numeralOf (hx : IsOffset x) (hs : IsSpelling s x) :
    offset? (.token (.percentage (numeralOf s))) = some x.unsigned := by
  rcases hx.cases with hzero | ⟨hnegative, k, hpos, hmax, hsteps, hfinite⟩
  · exact offset?_of_zero hs hzero
  · obtain ⟨hnear, hplaces⟩ := decimal_steps hpos hfinite
    rw [← hsteps] at hnear hplaces
    cases hfraction : s.fraction with
    | none => exact offset?_of_whole hs hfraction hnegative hsteps hmax hnear
    | some ds => exact offset?_of_fraction hs hfraction hnegative hsteps hmax hnear hplaces

theorem ofPart?_numeralOf (hx : IsOffset x) (hs : IsSpelling s x) :
    ofPart? [.token (.percentage (numeralOf s))] = some x.unsigned := by
  have hbetween : x.unsigned.isBetween 0 100 = true := by
    rcases hx.cases with hzero | ⟨hnegative, -⟩
    · rw [Single.unsigned, hzero]
      decide
    · have hsame : x.unsigned = x := by
        rw [Single.unsigned, ← hnegative]
      rw [hsame]
      exact hx.between
  show (offset? _).filter _ = _
  rw [offset?_numeralOf hx hs, Option.filter_some, if_pos hbetween]

end KeyframeKey

end StyleTree
