/-
# `Proofs.Token.Spelling` — numbers are read in their parts

A number as text is a sign, digits, and perhaps a fraction and an exponent
(`Spelling`).  It is read as just these parts, up to where no number goes
on (`Spelling.number_text`).  It is a number then, a percentage or a
dimension, by what follows it.
-/
import StyleTree.Proofs.Token.First

namespace StyleTree.Scan

open Number

variable {c : Char} {cs rest : List Char}

/-! ## Runs of digits -/

/-- Digits, at least one. -/
structure Digits where
  chars : List Char
  nonempty : chars ≠ []
  digits : ∀ c ∈ chars, c.isDigit = true

theorem Digits.exists_cons (ds : Digits) : ∃ c cs, ds.chars = c :: cs ∧ c.isDigit = true := by
  obtain ⟨c, cs, h⟩ := List.exists_cons_of_ne_nil ds.nonempty
  exact ⟨c, cs, h, ds.digits c (by rw [h]; exact List.mem_cons_self)⟩

theorem Digits.startsWithDigit (ds : Digits) (rest : List Char) : startsWithDigit (ds.chars ++ rest) = true := by
  obtain ⟨c, cs, h, hc⟩ := ds.exists_cons
  rw [h]
  exact hc

theorem digits_eq_map (h : ∀ c ∈ cs, c.isDigit = true) : digits cs = cs.map fun c => c.toNat - 48 := by
  have hall : (cs ++ []).takeWhile Char.isDigit = cs ++ [].takeWhile Char.isDigit :=
    List.takeWhile_append_of_pos h
  rw [List.append_nil, List.takeWhile_nil, List.append_nil] at hall
  rw [digits, hall]

theorem digits_chars (ds : Digits) (h : startsWithDigit rest = false) :
    digits (ds.chars ++ rest) = digits ds.chars ∧ afterDigits (ds.chars ++ rest) = rest := by
  have hrest : rest.takeWhile Char.isDigit = [] ∧ rest.dropWhile Char.isDigit = rest := by
    cases rest with
    | nil => exact ⟨rfl, rfl⟩
    | cons c cs =>
        have hc : ¬ c.isDigit = true := Bool.eq_false_iff.mp h
        exact ⟨List.takeWhile_cons_of_neg hc, List.dropWhile_cons_of_neg hc⟩
  constructor
  · rw [digits_eq_map ds.digits, digits, List.takeWhile_append_of_pos ds.digits, hrest.1, List.append_nil]
  · rw [afterDigits, List.dropWhile_append_of_pos ds.digits, hrest.2]

/-! ## The parts of a number -/

/-- A number as text, in its parts; a sign or an exponent is negative if it is `true`. -/
structure Spelling where
  sign : Option Bool
  whole : Digits
  fraction : Option Digits
  exponent : Option (Bool × Digits)

namespace Spelling

def signText : Option Bool → List Char
  | none => []
  | some false => ['+']
  | some true => ['-']

def fractionText : Option Digits → List Char
  | none => []
  | some ds => '.' :: ds.chars

def exponentText : Option (Bool × Digits) → List Char
  | none => []
  | some (negative, ds) => 'e' :: ((if negative then ['-'] else []) ++ ds.chars)

def text (s : Spelling) : List Char :=
  signText s.sign ++ (s.whole.chars ++ (fractionText s.fraction ++ exponentText s.exponent))

/-- The parts as they are read. -/
def written (s : Spelling) : Written :=
  ⟨s.sign, digits s.whole.chars, s.fraction.map fun ds => digits ds.chars,
    s.exponent.map fun x => (x.1, digits x.2.chars)⟩

end Spelling

/-- No number goes on here: neither with a digit nor with a fraction or an exponent. -/
structure EndsSpelling (rest : List Char) : Prop where
  digit : startsWithDigit rest = false
  fraction : fraction rest = (none, rest)
  exponent : exponent rest = (none, rest)

namespace Spelling

theorem sign_text (sign : Option Bool) (ds : Digits) (rest : List Char) :
    Scan.sign (signText sign ++ (ds.chars ++ rest)) = (sign, ds.chars ++ rest) := by
  cases sign with
  | none =>
      obtain ⟨c, cs, hcs, hc⟩ := ds.exists_cons
      show Scan.sign (ds.chars ++ rest) = _
      rw [hcs, List.cons_append]
      unfold Scan.sign
      split
      · next h =>
          cases h
          cases hc
      · next h =>
          cases h
          cases hc
      · rfl
  | some b => cases b <;> rfl

theorem exponent_text (e : Option (Bool × Digits)) (h : EndsSpelling rest) :
    Scan.exponent (exponentText e ++ rest) = (e.map fun x => (x.1, digits x.2.chars), rest) ∧
      startsWithDigit (exponentText e ++ rest) = false ∧
      Scan.fraction (exponentText e ++ rest) = (none, exponentText e ++ rest) := by
  cases e with
  | none => exact ⟨h.exponent, h.digit, h.fraction⟩
  | some x =>
      obtain ⟨negative, ds⟩ := x
      refine ⟨?_, rfl, rfl⟩
      obtain ⟨hdigits, hafter⟩ := digits_chars ds h.digit
      have hsign : Scan.sign ((if negative then ['-'] else []) ++ (ds.chars ++ rest)) =
          (if negative then some true else none, ds.chars ++ rest) := by
        cases negative with
        | true => exact sign_text (some true) ds rest
        | false => exact sign_text none ds rest
      show Scan.exponent ('e' :: (((if negative then ['-'] else []) ++ ds.chars) ++ rest)) = _
      rw [List.append_assoc]
      simp only [Scan.exponent, hsign, ds.startsWithDigit, hdigits, hafter]
      cases negative <;> rfl

theorem fraction_text (f : Option Digits) {tail : List Char} (hdigit : startsWithDigit tail = false)
    (hfraction : Scan.fraction tail = (none, tail)) :
    Scan.fraction (fractionText f ++ tail) = (f.map fun ds => digits ds.chars, tail) ∧
      startsWithDigit (fractionText f ++ tail) = false := by
  cases f with
  | none => exact ⟨hfraction, hdigit⟩
  | some ds =>
      refine ⟨?_, rfl⟩
      obtain ⟨hdigits, hafter⟩ := digits_chars ds hdigit
      show Scan.fraction ('.' :: (ds.chars ++ tail)) = _
      rw [Scan.fraction, if_pos (ds.startsWithDigit tail), hdigits, hafter]
      rfl

/-- A number is read in its parts, up to where it ends. -/
theorem number_text (s : Spelling) (h : EndsSpelling rest) : number (s.text ++ rest) = (s.written, rest) := by
  obtain ⟨hexponent, hdigit, hfraction⟩ := exponent_text s.exponent h
  obtain ⟨hfraction', hdigit'⟩ := fraction_text s.fraction hdigit hfraction
  obtain ⟨hwhole, hafter⟩ := digits_chars s.whole hdigit'
  simp only [text, List.append_assoc, number, sign_text, hwhole, hafter, hfraction', hexponent, written]

theorem first_of_text (s : Spelling) (rest : List Char) : ∃ c cs, s.text ++ rest = c :: cs ∧
    (c.isDigit = true ∨ c = '+' ∨ c = '-') ∧ startsNumber (c :: cs) = true := by
  obtain ⟨d, ds, hds, hd⟩ := s.whole.exists_cons
  have hpoint : d ≠ '.' := by
    rintro rfl
    cases hd
  unfold text
  rw [hds]
  cases s.sign with
  | none =>
      refine ⟨d, _, rfl, Or.inl hd, ?_⟩
      rw [startsNumber_cons hpoint, hd]
      · rintro rfl
        cases hd
      · rintro rfl
        cases hd
  | some b =>
      cases b with
      | false =>
          refine ⟨'+', _, rfl, Or.inr (Or.inl rfl), ?_⟩
          exact (startsNumber_plus hpoint).trans hd
      | true =>
          refine ⟨'-', _, rfl, Or.inr (Or.inr rfl), ?_⟩
          exact (startsNumber_minus hpoint).trans hd

end Spelling

/-! ## Numbers with what follows them -/

/-- A number that is no percentage. -/
theorem numeric_of_ne (h : ∀ ds, (number cs).2 ≠ '%' :: ds) :
    numeric cs =
      if startsIdentifier (number cs).2 then
        (.dimension ((number cs).1.numeral (number cs).1.magnitude)
          (String.ofList (name (number cs).2).1), (name (number cs).2).2)
      else (.number ((number cs).1.numeral (number cs).1.magnitude), (number cs).2) := by
  unfold numeric
  split
  · next hds => exact absurd hds (h _)
  · rfl

/-- Where a number starts with a digit or a sign, no other token does. -/
theorem next_number (hc : c.isDigit = true ∨ c = '+' ∨ c = '-') (h : startsNumber (c :: cs) = true) :
    next c cs = (some (.token (numeric (c :: cs)).1), (numeric (c :: cs)).2) := by
  have hblank : isBlank c = false ∧ (c == '"' || c == '\'') = false := by
    rcases hc with hc | rfl | rfl
    · exact ascii_forall (P := fun c => c.isDigit = true → isBlank c = false ∧ (c == '"' || c == '\'') = false)
        (by decide +kernel) (digit_bounds hc).2 hc
    · decide
    · decide
  have hfixed : fixed (c :: cs) = none := by
    unfold fixed
    split
    case h_1 hcs =>
      cases hcs
      cases h
    case h_17 => rfl
    all_goals next hcs =>
      cases hcs
      rcases hc with hc | hc | hc
      all_goals exact absurd hc (by decide)
  unfold next
  rw [hblank.1, hblank.2, hfixed, h]
  rfl

namespace Spelling

/-- A number in its parts begins a number. -/
theorem scan_text (s : Spelling) (rest : List Char) :
    Lexeme.scan (s.text ++ rest) =
      .token (numeric (s.text ++ rest)).1 :: Lexeme.scan (numeric (s.text ++ rest)).2 := by
  obtain ⟨c, cs, hcs, hc, hstarts⟩ := s.first_of_text rest
  rw [hcs]
  exact scan_of_next (next_number hc hstarts)

theorem scan_number (s : Spelling) (h : EndsSpelling rest) (hunit : startsIdentifier rest = false)
    (hpercent : ∀ cs, rest ≠ '%' :: cs) :
    Lexeme.scan (s.text ++ rest) = .token (.number (s.written.numeral s.written.magnitude)) :: Lexeme.scan rest := by
  have hnumber := s.number_text h
  rw [scan_text, numeric_of_ne (by rwa [hnumber]), hnumber]
  simp only [hunit, Bool.false_eq_true, if_false]

theorem scan_dimension (s : Spelling) {unit n : List Char} (h : EndsSpelling (unit ++ rest))
    (hunit : startsIdentifier (unit ++ rest) = true) (hname : name (unit ++ rest) = (n, rest)) :
    Lexeme.scan (s.text ++ (unit ++ rest)) =
      .token (.dimension (s.written.numeral s.written.magnitude) (String.ofList n)) :: Lexeme.scan rest := by
  have hnumber := s.number_text h
  have hpercent : ∀ cs, unit ++ rest ≠ '%' :: cs := by
    intro cs hcs
    rw [hcs] at hunit
    cases hunit
  rw [scan_text, numeric_of_ne (by rwa [hnumber]), hnumber]
  simp only [hunit, if_true, hname]

theorem scan_percentage (s : Spelling) (rest : List Char) :
    Lexeme.scan (s.text ++ '%' :: rest) =
      .token (.percentage (s.written.numeral (double.divNat s.written.magnitude 100))) :: Lexeme.scan rest := by
  have hends : EndsSpelling ('%' :: rest) := ⟨rfl, rfl, rfl⟩
  have hnumber := s.number_text hends
  rw [scan_text]
  unfold numeric
  simp only [hnumber]

end Spelling

end StyleTree.Scan
