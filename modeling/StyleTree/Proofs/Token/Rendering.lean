/-
# `Proofs.Token.Rendering` — numbers as they are written

A number is written in the parts in which numbers are read
(`exists_spelling`).  An integer of at most six significant digits is
written as it is, with the sign it was read with, and so is the number of a
percentage (`write_integer`); so these are read back exactly.  Of another
number the digits may differ, but if its text has a fraction or an exponent
it is read back as a number with the same sign that is no integer
(`Numeral.blurred`).
-/
import StyleTree.ComponentValue.Text
import StyleTree.Proofs.Number.Whole
import StyleTree.Proofs.Token.Numbers

namespace StyleTree

open Number Scan

variable {n : Numeral} {v : Single} {w : Written} {i : Int} {k : Nat}

/-! ## The parts of a written number -/

namespace Scan

theorem digits_both {cs ds : List Char} (hcs : ∀ c ∈ cs, c.isDigit = true) (hds : ∀ c ∈ ds, c.isDigit = true) :
    digits (cs ++ ds) = digits cs ++ digits ds := by
  rw [digits_eq_map fun c hc => (List.mem_append.mp hc).elim (hcs c) (hds c), digits_eq_map hcs, digits_eq_map hds,
    List.map_append]

theorem digits_zeros (k : Nat) : digits (List.replicate k '0') = List.replicate k 0 := by
  have hzeros : ∀ c ∈ List.replicate k '0', c.isDigit = true := fun c hc => by
    rw [List.eq_of_mem_replicate hc]
    rfl
  rw [digits_eq_map hzeros, List.map_replicate]
  rfl

/-- The decimal that digits before a point and behind it stand for. -/
def decimalOf (whole fraction : List Nat) : Decimal := ⟨Written.natOf (whole ++ fraction), -(fraction.length : Int)⟩

/-- A decimal with every digit at its place is in parts that stand for it, with a fraction if there are digits
behind the point. -/
theorem exists_positional (d : Decimal) :
    ∃ (whole : Digits) (fraction : Option Digits), positional d = whole.chars ++ Spelling.fractionText fraction ∧
      (0 ≤ d.exponent ↔ fraction = none) ∧
      (decimalOf (digits whole.chars) ((fraction.map fun ds => digits ds.chars).getD [])).rational = d.rational ∧
      (decimalOf (digits whole.chars) ((fraction.map fun ds => digits ds.chars).getD [])).exponent =
        min d.exponent 0 := by
  have hnumeral : ∀ c ∈ numeral d.digits, c.isDigit = true := fun _ => isDigit_of_mem_numeral
  have hzeros : ∀ {k : Nat}, ∀ c ∈ List.replicate k '0', c.isDigit = true := fun c hc => by
    rw [List.eq_of_mem_replicate hc]
    rfl
  have hne : numeral d.digits ≠ [] := Nat.toDigits_ne_nil
  have htail : ∀ {x : Nat}, x < (numeral d.digits).length → (numeral d.digits).drop x ≠ [] := fun hx h => by
    rw [List.drop_eq_nil_iff] at h
    omega
  unfold positional
  simp only
  by_cases h0 : 0 ≤ d.exponent
  · refine ⟨⟨numeral d.digits ++ List.replicate d.exponent.toNat '0', List.append_ne_nil_of_left_ne_nil hne _,
      fun c hc => (List.mem_append.mp hc).elim (hnumeral c) (hzeros c)⟩, none, ?_, iff_of_true h0 rfl, ?_, ?_⟩
    · rw [if_pos h0]
      exact (List.append_nil _).symm
    · obtain ⟨k, hk⟩ := Int.eq_ofNat_of_zero_le h0
      show (decimalOf (digits (numeral d.digits ++ List.replicate d.exponent.toNat '0')) []).rational = _
      rw [decimalOf, List.append_nil, digits_both hnumeral hzeros, digits_zeros, natOf_append, natOf_digits_numeral,
        natOf_zeros, List.length_replicate, Decimal.rational, Decimal.rational, hk, Int.toNat_natCast]
      simp
    · rw [min_eq_right h0]
      rfl
  rw [if_neg h0]
  generalize hplaces : (-d.exponent).toNat = places
  have hpos : 0 < places := by omega
  have hexp : -(places : Int) = d.exponent := by omega
  have hmin : min d.exponent 0 = d.exponent := min_eq_left (by omega)
  -- with all digits in place, the parts stand for just this decimal
  have hsame : ∀ {whole fraction : List Nat}, Written.natOf (whole ++ fraction) = d.digits →
      fraction.length = places → (decimalOf whole fraction).rational = d.rational ∧
        (decimalOf whole fraction).exponent = min d.exponent 0 := by
    intro whole fraction hdigits hlength
    have heq : decimalOf whole fraction = d := by rw [decimalOf, hdigits, hlength, hexp]
    rw [heq, hmin]
    exact ⟨rfl, rfl⟩
  by_cases hlt : places < (numeral d.digits).length
  · have hwhole : ∀ c ∈ (numeral d.digits).take ((numeral d.digits).length - places), c.isDigit = true :=
      fun c hc => hnumeral c (List.mem_of_mem_take hc)
    have hfraction : ∀ c ∈ (numeral d.digits).drop ((numeral d.digits).length - places), c.isDigit = true :=
      fun c hc => hnumeral c (List.mem_of_mem_drop hc)
    refine ⟨⟨(numeral d.digits).take ((numeral d.digits).length - places), ?_, hwhole⟩,
      some ⟨(numeral d.digits).drop ((numeral d.digits).length - places), htail (by omega), hfraction⟩, if_pos hlt,
      iff_of_false h0 (by rintro ⟨⟩), hsame ?_ ?_⟩
    · intro h
      have hlength := congrArg List.length h
      rw [List.length_take, List.length_nil] at hlength
      omega
    · show Written.natOf (digits _ ++ digits _) = _
      rw [← digits_both hwhole hfraction, List.take_append_drop, natOf_digits_numeral]
    · show (digits _).length = _
      rw [digits_eq_map hfraction, List.length_map, List.length_drop]
      omega
  · have hfraction : ∀ c ∈ List.replicate (places - (numeral d.digits).length) '0' ++ numeral d.digits,
        c.isDigit = true := fun c hc => (List.mem_append.mp hc).elim (hzeros c) (hnumeral c)
    refine ⟨⟨['0'], List.cons_ne_nil _ _, fun c hc => ?_⟩,
      some ⟨List.replicate (places - (numeral d.digits).length) '0' ++ numeral d.digits,
        List.append_ne_nil_of_right_ne_nil _ hne, hfraction⟩, if_neg hlt, iff_of_false h0 (by rintro ⟨⟩), hsame ?_ ?_⟩
    · rw [List.mem_singleton.mp hc]
      rfl
    · have hzero : Written.natOf (digits ['0']) = 0 := natOf_zeros 1
      show Written.natOf (digits ['0'] ++ digits _) = _
      rw [digits_both hzeros hnumeral, digits_zeros, natOf_append, natOf_append, natOf_zeros, natOf_digits_numeral,
        hzero, Nat.zero_mul, Nat.zero_add, Nat.zero_mul, Nat.zero_add]
    · show (digits _).length = _
      rw [digits_eq_map hfraction, List.length_map, List.length_append, List.length_replicate]
      omega

theorem exists_layout (l : Layout) (d : Decimal) :
    ∃ (whole : Digits) (fraction : Option Digits) (exponent : Option (Bool × Digits)),
      l.write d = whole.chars ++ (Spelling.fractionText fraction ++ Spelling.exponentText exponent) := by
  unfold Layout.write
  split
  · obtain ⟨whole, fraction, h, -⟩ := exists_positional (d.cut l.places)
    refine ⟨whole, fraction, none, ?_⟩
    rw [h]
    exact congrArg (whole.chars ++ ·) (List.append_nil _).symm
  · obtain ⟨whole, fraction, h, -⟩ :=
      exists_positional ⟨(d.cut l.places).digits, (d.cut l.places).exponent - d.leadingExponent⟩
    refine ⟨whole, fraction, some (decide (d.leadingExponent < 0), .ofNat d.leadingExponent.natAbs), ?_⟩
    simp only
    rw [h, List.append_assoc]
    refine congrArg (fun cs => whole.chars ++ (Spelling.fractionText fraction ++ 'e' :: cs)) ?_
    unfold Number.integer
    by_cases hneg : d.leadingExponent < 0
    · rw [if_pos hneg, decide_eq_true hneg]
      rfl
    · rw [if_neg hneg, decide_eq_false hneg]
      rfl

/-- Digits contain no point and no letter. -/
theorem Digits.not_mem (ds : Digits) {c : Char} (hc : c.isDigit = false) : c ∉ ds.chars := by
  intro h
  have := ds.digits c h
  rw [hc] at this
  cases this

/-- Where there is a point or an `e`, there is a fraction or an exponent. -/
theorem Spelling.isSome_of_mem {s : Spelling} (h : '.' ∈ s.text ∨ 'e' ∈ s.text) :
    (s.fraction.isSome || s.exponent.isSome) = true := by
  cases hf : s.fraction with
  | some f => rfl
  | none =>
      cases he : s.exponent with
      | some e => rfl
      | none =>
          have hnot : ∀ {c : Char}, c.isDigit = false → c ∉ signText s.sign → c ∉ s.text := by
            intro c hc hsign
            unfold text
            rw [hf, he]
            simp only [fractionText, exponentText, List.append_nil, List.mem_append, not_or]
            exact ⟨hsign, s.whole.not_mem hc⟩
          have hsign : '.' ∉ signText s.sign ∧ 'e' ∉ signText s.sign := by
            cases s.sign with
            | none => decide
            | some b => cases b <;> decide
          rcases h with h | h
          · exact absurd h (hnot rfl hsign.1)
          · exact absurd h (hnot rfl hsign.2)

end Scan

namespace Numeral

/-- The sign with which a number is written, if it has one. -/
def writtenSign (n : Numeral) (v : Single) : Option Bool :=
  if v.magnitude = .undefined then none
  else if v.negative then some true
  else if n.signed then some false
  else none

theorem writeSign_eq (n : Numeral) (v : Single) : n.writeSign v = Spelling.signText (n.writtenSign v) := by
  unfold writeSign writtenSign
  simp only [beq_iff_eq]
  repeat' split
  all_goals rfl

/-- A number is written in its parts. -/
theorem exists_spelling (n : Numeral) (v : Single) :
    ∃ s : Spelling, n.write v = s.text ∧ s.sign = n.writtenSign v := by
  obtain ⟨whole, fraction, exponent, h⟩ := exists_layout layout v.magnitude.fixedDecimal
  unfold write
  simp only
  rw [writeSign_eq]
  split
  · -- a point was added, so there was neither a fraction nor an exponent
    next hpoint =>
      unfold needsPoint at hpoint
      simp only [h, Bool.and_eq_true, Bool.not_eq_true', List.contains_eq_mem, decide_eq_false_iff_not,
        List.mem_append, not_or] at hpoint
      obtain ⟨⟨-, hdot⟩, he⟩ := hpoint
      obtain rfl : fraction = none := by
        cases fraction with
        | none => rfl
        | some f => exact absurd List.mem_cons_self hdot.2.1
      obtain rfl : exponent = none := by
        cases exponent with
        | none => rfl
        | some x => exact absurd List.mem_cons_self he.2.2
      refine ⟨⟨n.writtenSign v, whole, some ⟨['0'], List.cons_ne_nil _ _, fun c hc => ?_⟩, none⟩, ?_, rfl⟩
      · rw [List.mem_singleton.mp hc]
        rfl
      · rw [h, List.append_assoc]
        simp only [Spelling.text, Spelling.fractionText, Spelling.exponentText, List.append_nil]
  · refine ⟨⟨n.writtenSign v, whole, fraction, exponent⟩, ?_, rfl⟩
    rw [h, List.append_nil]
    rfl

end Numeral

/-! ## Integers -/

namespace Scan.Written

theorem le_foldl (ds : List Nat) : ∀ k : Nat, k ≤ ds.foldl (fun n d => 10 * n + d) k := by
  induction ds with
  | nil => exact fun k => le_rfl
  | cons d ds ih =>
      intro k
      refine le_trans ?_ (ih (10 * k + d))
      omega

/-- Digits are added up exactly. -/
theorem foldl_ofNat (ds : List Nat) : ∀ k : Nat, ds.foldl (fun n d => 10 * n + d) k < 2 ^ 53 →
    ds.foldl (fun v d => double.add (double.mul v (.finite 10 0)) (.finite d 0)) (double.ofNat k) =
      double.ofNat (ds.foldl (fun n d => 10 * n + d) k) := by
  induction ds with
  | nil => exact fun k _ => rfl
  | cons d ds ih =>
      intro k h
      have hle := le_foldl ds (10 * k + d)
      rw [List.foldl_cons] at h ⊢
      rw [mul_ofNat (by omega) (by omega), add_ofNat (by omega), mul_comm k, ih _ h]
      rfl

theorem wholePart_eq {ds : List Nat} (h : natOf ds < 2 ^ 53) : wholePart ds = double.ofNat (natOf ds) := by
  have hfold := foldl_ofNat ds 0 h
  rwa [Precision.ofNat, round_zero] at hfold

/-- The magnitude of a whole number in the range of exact ones. -/
theorem magnitude_of_int (hf : w.fraction = none) (he : w.exponent = none) (h : natOf w.whole < 2 ^ 53) :
    w.magnitude = double.ofNat (natOf w.whole) := by
  unfold magnitude
  rw [hf, he, wholePart_eq h]
  exact add_ofNat h

/-- A short integer is the one that was written, not the end of the range. -/
theorem natOf_of_isShort (hi : w.int = some i) (hs : IsShort i.natAbs = true) :
    w.fraction = none ∧ w.exponent = none ∧ natOf w.whole = i.natAbs ∧ i.natAbs < 2 ^ 31 := by
  unfold int at hi
  split at hi
  · cases hi
  next h =>
    rw [Bool.or_eq_true, not_or, Option.not_isSome_iff_eq_none, Option.not_isSome_iff_eq_none] at h
    have hmax : i ≠ 2147483647 := by
      rintro rfl
      exact absurd hs (by decide)
    have hmin : i ≠ -2147483648 := by
      rintro rfl
      exact absurd hs (by decide)
    refine ⟨h.1, h.2, ?_⟩
    split at hi
    all_goals
      cases hi
      omega

theorem magnitude_of_isShort (hi : w.int = some i) (hs : IsShort i.natAbs = true) :
    w.magnitude = double.ofNat i.natAbs := by
  obtain ⟨hf, he, hnat, hlt⟩ := natOf_of_isShort hi hs
  rw [magnitude_of_int hf he (by omega), hnat]

/-- An integer in its parts is the number that was read. -/
theorem numeral_integer (m : Magnitude) (hi : w.int = some i) (hs : IsShort i.natAbs = true) :
    (Spelling.integer w.sign i.natAbs).written.numeral m = w.numeral m := by
  obtain ⟨hf, he, hnat, -⟩ := natOf_of_isShort hi hs
  have hint : (Written.integer w.sign i.natAbs).int = w.int := by
    rw [int, int, hf, he, ← hnat]
    show (if w.negative = true then some _ else some _) = if w.negative = true then some _ else some _
    rw [Written.integer, natOf_digits_numeral]
  show (⟨⟨w.negative, single.convert m⟩, (Written.integer w.sign i.natAbs).int, w.sign.isSome⟩ : Numeral) = _
  rw [hint]
  rfl

end Scan.Written

/-- What an integer of `k` is written from: a magnitude next to it, or zero itself. -/
def Number.Stands (k : Nat) (x : Magnitude) : Prop := k = 0 ∧ x = .zero ∨ 0 < k ∧ IsNear k x

theorem Number.stands_convert (h : k < 2 ^ 31) : Stands k (single.convert (double.ofNat k)) := by
  rcases Nat.eq_zero_or_pos k with rfl | hk
  · exact Or.inl ⟨rfl, by decide⟩
  · exact Or.inr ⟨hk, isNear_convert hk h⟩

theorem Number.stands_percent (h : k < 2 ^ 31) :
    Stands k (single.mul (single.convert (double.divNat (double.ofNat k) 100)) (.finite 100 0)) := by
  rcases Nat.eq_zero_or_pos k with rfl | hk
  · exact Or.inl ⟨rfl, by decide⟩
  · exact Or.inr ⟨hk, isNear_percent hk h⟩

namespace Numeral

theorem write_stands (h : Stands k v.magnitude) (hs : IsShort k = true) (hmax : k < 2 ^ 31) :
    layout.write v.magnitude.fixedDecimal = numeral k ∧ v.magnitude ≠ .undefined := by
  rcases h with ⟨rfl, hx⟩ | ⟨hk, hx⟩
  · rw [hx]
    exact ⟨by decide, by rintro ⟨⟩⟩
  · refine ⟨write_whole rfl (by decide) (by decide) hx hs hk hmax, ?_⟩
    obtain ⟨m, e, hx, -⟩ := hx
    rw [hx]
    rintro ⟨⟩

/-- An integer of at most six significant digits is written as it is. -/
theorem write_integer {m : Magnitude} (hi : w.int = some i) (hs : IsShort i.natAbs = true)
    (hv : v.negative = w.negative) (hx : Stands i.natAbs v.magnitude) :
    (w.numeral m).write v = (Spelling.integer w.sign i.natAbs).text := by
  obtain ⟨-, -, -, hmax⟩ := Scan.Written.natOf_of_isShort hi hs
  obtain ⟨htext, hdefined⟩ := write_stands hx hs hmax
  have hint : (w.numeral m).int.isNone = false := by
    show w.int.isNone = false
    rw [hi]
    rfl
  have hsign : (w.numeral m).writtenSign v = w.sign := by
    unfold writtenSign
    rw [if_neg hdefined, hv]
    show (if (w.sign == some true) = true then some true else if w.sign.isSome = true then some false else none) = _
    cases w.sign with
    | none => rfl
    | some b => cases b <;> rfl
  unfold write
  simp only
  rw [htext, writeSign_eq, hsign, if_neg, List.append_nil]
  · show _ = Spelling.signText w.sign ++ (numeral i.natAbs ++ [])
    rw [List.append_nil]
  · unfold needsPoint
    rw [hint]
    rintro ⟨⟩

/-! ## Numbers that are read back -/

/-- A number up to the digits of what is no integer. -/
def blurred (n : Numeral) : Numeral :=
  if n.int.isSome then n else { n with value := ⟨n.value.negative, .zero⟩ }

/-- The text of a number shows what it is: an integer has at most six significant digits, another number still has
a fraction or an exponent when it is written with value `v`, and it has its sign. -/
def keeps (n : Numeral) (v : Single) : Bool :=
  match n.int with
  | some i => IsShort i.natAbs
  | none => ((n.write v).contains '.' || (n.write v).contains 'e') && !(n.signed && v.magnitude == .undefined)

/-- A number that is no integer is read back with its sign. -/
theorem exists_spelling_of_none {m : Magnitude} (hi : w.int = none) (hv : v.negative = w.negative)
    (h : (w.numeral m).keeps v = true) :
    ∃ s : Spelling, (w.numeral m).write v = s.text ∧ ∀ m', (s.written.numeral m').blurred = (w.numeral m).blurred := by
  obtain ⟨s, htext, hsign⟩ := exists_spelling (w.numeral m) v
  have hnone : (w.numeral m).int = none := hi
  unfold keeps at h
  simp only [hnone, Bool.and_eq_true, Bool.or_eq_true, Bool.not_eq_true', Bool.and_eq_false_iff, List.contains_eq_mem,
    decide_eq_true_eq, beq_eq_false_iff_ne, htext] at h
  obtain ⟨hmem, hdefined⟩ := h
  have hsome := Spelling.isSome_of_mem hmem
  have hint : s.written.int = none := by
    unfold Scan.Written.int
    rw [if_pos]
    show ((s.fraction.map _).isSome || (s.exponent.map _).isSome) = true
    rw [Option.isSome_map, Option.isSome_map]
    exact hsome
  have hsame : s.sign = w.sign := by
    rw [hsign, writtenSign, hv]
    have hsigned : (w.numeral m).signed = w.sign.isSome := rfl
    rw [hsigned] at hdefined ⊢
    unfold Scan.Written.negative
    cases hw : w.sign with
    | none =>
        split
        · rfl
        · rfl
    | some b =>
        rw [hw] at hdefined
        rw [if_neg (hdefined.resolve_left (by rintro ⟨⟩))]
        cases b <;> rfl
  refine ⟨s, htext, fun m' => ?_⟩
  unfold blurred
  have hnone' : (s.written.numeral m').int = none := hint
  rw [hnone, hnone']
  show (⟨⟨s.sign == some true, .zero⟩, none, s.sign.isSome⟩ : Numeral) =
    ⟨⟨w.sign == some true, .zero⟩, none, w.sign.isSome⟩
  rw [hsame]

/-- A number whose text shows what it is can be read back, if what is kept of it, by `f`, is written with a value
that stands for the number itself. -/
theorem exists_spelling_of_keeps (f : Magnitude → Magnitude) (hv : v.negative = w.negative)
    (hx : ∀ k < 2 ^ 31, w.magnitude = double.ofNat k → Stands k v.magnitude)
    (h : (w.numeral (f w.magnitude)).keeps v = true) :
    ∃ s : Spelling, (w.numeral (f w.magnitude)).write v = s.text ∧
      (s.written.numeral (f s.written.magnitude)).blurred = (w.numeral (f w.magnitude)).blurred := by
  cases hi : w.int with
  | none =>
      obtain ⟨s, htext, hread⟩ := exists_spelling_of_none hi hv h
      exact ⟨s, htext, hread _⟩
  | some i =>
      have hint : (w.numeral (f w.magnitude)).int = some i := hi
      unfold keeps at h
      simp only [hint] at h
      obtain ⟨-, -, -, hmax⟩ := Scan.Written.natOf_of_isShort hi h
      have hmagnitude := Scan.Written.magnitude_of_isShort hi h
      have hint' : (Spelling.integer w.sign i.natAbs).written.int = some i :=
        (congrArg Numeral.int (Scan.Written.numeral_integer .zero hi h)).trans hi
      have hown : (Spelling.integer w.sign i.natAbs).written.magnitude = w.magnitude :=
        (Scan.Written.magnitude_of_isShort hint' h).trans hmagnitude.symm
      refine ⟨Spelling.integer w.sign i.natAbs, write_integer hi h hv (hx _ hmax hmagnitude), ?_⟩
      rw [hown, Scan.Written.numeral_integer _ hi h]

/-- A number, or that of a dimension. -/
theorem exists_number (h : (w.numeral w.magnitude).keeps (w.numeral w.magnitude).value = true) :
    ∃ s : Spelling, (w.numeral w.magnitude).write (w.numeral w.magnitude).value = s.text ∧
      (s.written.numeral s.written.magnitude).blurred = (w.numeral w.magnitude).blurred := by
  refine exists_spelling_of_keeps id rfl (fun k hk hm => ?_) h
  show Stands k (single.convert w.magnitude)
  rw [hm]
  exact stands_convert hk

/-- The number of a percentage, of which a hundredth is kept. -/
theorem exists_percentage (h : (w.numeral (double.divNat w.magnitude 100)).keeps
      (w.numeral (double.divNat w.magnitude 100)).percent = true) :
    ∃ s : Spelling, (w.numeral (double.divNat w.magnitude 100)).write
        (w.numeral (double.divNat w.magnitude 100)).percent = s.text ∧
      (s.written.numeral (double.divNat s.written.magnitude 100)).blurred =
        (w.numeral (double.divNat w.magnitude 100)).blurred := by
  refine exists_spelling_of_keeps (fun m => double.divNat m 100) rfl (fun k hk hm => ?_) h
  show Stands k (single.mul (single.convert (double.divNat w.magnitude 100)) (.finite 100 0))
  rw [hm]
  exact stands_percent hk

end Numeral

end StyleTree
