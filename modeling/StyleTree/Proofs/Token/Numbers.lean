/-
# `Proofs.Token.Numbers` — integers are read as they were written

A numeral with or without a sign is read back, up to where no number goes
on (`EndsNumber`).  It becomes a number, or a dimension if a unit follows
it at once.  The integer that a number carries is kept within 32 bits, so
what is read is the integer that was written only if that is in the range.

The other way round, the integer of every number that is read is in that
range, and without a sign it is not negative (`Numeral.Fits`).
-/
import Mathlib.Algebra.Group.Nat.Defs
import Mathlib.Data.List.Induction
import StyleTree.Number.Decimal
import StyleTree.Proofs.Token.Legible
import StyleTree.Proofs.Token.Spelling

namespace StyleTree

open Scan

/-! ## The range of integers -/

/-- An integer of 32 bits. -/
def Numeral.InRange (i : Int) : Prop := -2147483648 ≤ i ∧ i ≤ 2147483647

/-- The integer of a number is in the range, and negative only with a sign. -/
def Numeral.Fits (n : Numeral) : Prop :=
  ∀ i, n.int = some i → InRange i ∧ (n.signed = false → 0 ≤ i)

/-- An integer without a sign can be negated. -/
theorem Numeral.Fits.neg {n : Numeral} {i : Int} (h : n.Fits) (hi : n.int = some i) (hs : n.signed = false) :
    InRange (-i) := by
  obtain ⟨⟨-, hmax⟩, hpos⟩ := h i hi
  have := hpos hs
  unfold InRange
  omega

theorem Scan.Written.fits_numeral (w : Written) (m : Number.Magnitude) : (w.numeral m).Fits := by
  intro i hi
  have hint : w.int = some i := hi
  have hsign : w.sign.isSome = false → w.negative = false := by
    intro h
    rw [Option.isSome_eq_false_iff, Option.isNone_iff_eq_none] at h
    rw [negative, h]
    rfl
  unfold int at hint
  show Numeral.InRange i ∧ (w.sign.isSome = false → 0 ≤ i)
  unfold Numeral.InRange
  split at hint
  · cases hint
  · split at hint
    · next hneg =>
        cases hint
        refine ⟨by omega, fun h => ?_⟩
        rw [hsign h] at hneg
        cases hneg
    · cases hint
      omega

namespace Scan

variable {cs rest : List Char}

/-- No number goes on here: neither with a digit nor with a fraction or an exponent. -/
def EndsNumber : List Char → Prop
  | [] => True
  | c :: _ => c.isDigit = false ∧ c ≠ '.' ∧ c ≠ 'e' ∧ c ≠ 'E'

theorem EndsNumber.endsSpelling (h : EndsNumber rest) : EndsSpelling rest := by
  refine ⟨?_, ?_, ?_⟩
  · cases rest with
    | nil => rfl
    | cons c cs => exact h.1
  · unfold Scan.fraction
    split
    · exact absurd rfl h.2.1
    · rfl
  · cases rest with
    | nil => rfl
    | cons c cs =>
        have hc : (c == 'e' || c == 'E') = false := by
          rw [Bool.or_eq_false_iff, beq_eq_false_iff_ne, beq_eq_false_iff_ne]
          exact h.2.2
        simp only [Scan.exponent, hc, Bool.false_and, Bool.false_eq_true, if_false]

/-! ## Digits -/

theorem isDigit_of_mem_numeral {n : Nat} {c : Char} (h : c ∈ Number.numeral n) : c.isDigit = true :=
  Nat.isDigit_of_mem_toDigits (by decide) (by decide) h

theorem numeral_cons (n : Nat) : ∃ c cs, Number.numeral n = c :: cs ∧ c.isDigit = true := by
  obtain ⟨c, cs, h⟩ := List.exists_cons_of_ne_nil (Nat.toDigits_ne_nil (n := n) (b := 10))
  exact ⟨c, cs, h, isDigit_of_mem_numeral (by rw [Number.numeral, h]; exact List.mem_cons_self)⟩

/-- A numeral as digits. -/
def Digits.ofNat (n : Nat) : Digits :=
  ⟨Number.numeral n, Nat.toDigits_ne_nil, fun _ => isDigit_of_mem_numeral⟩

/-- The digits of a numeral are those of its number. -/
theorem natOf_digits_numeral (n : Nat) : Written.natOf (digits (Number.numeral n)) = n := by
  rw [digits_eq_map fun _ => isDigit_of_mem_numeral, Written.natOf, List.foldl_map]
  exact Nat.ofDigitChars_toDigits (by decide) (by decide)

theorem natOf_concat (ds : List Nat) (d : Nat) : Written.natOf (ds ++ [d]) = 10 * Written.natOf ds + d := by
  rw [Written.natOf, List.foldl_append]
  rfl

/-- Digits in front of others count as many powers of ten as those others are. -/
theorem natOf_append (ds es : List Nat) :
    Written.natOf (ds ++ es) = Written.natOf ds * 10 ^ es.length + Written.natOf es := by
  induction es using List.reverseRecOn with
  | nil => rw [List.append_nil, List.length_nil, Nat.pow_zero, Nat.mul_one]; rfl
  | append_singleton es d ih =>
      rw [← List.append_assoc, natOf_concat, natOf_concat, ih, List.length_append, List.length_singleton, Nat.pow_succ,
        Nat.mul_add, ← Nat.mul_assoc (Written.natOf ds), Nat.mul_comm 10 (Written.natOf ds * _), Nat.add_assoc]

theorem natOf_zeros (k : Nat) : Written.natOf (List.replicate k 0) = 0 := by
  induction k with
  | zero => rfl
  | succ k ih => rw [List.replicate_succ', natOf_concat, ih]

/-! ## Integers -/

/-- A numeral with a sign or without one; the sign is a minus if it is `true`. -/
def spelled (sign : Option Bool) (n : Nat) : List Char :=
  match sign with
  | none => Number.numeral n
  | some false => '+' :: Number.numeral n
  | some true => '-' :: Number.numeral n

/-- The number that is read from a spelled numeral. -/
def Written.integer (sign : Option Bool) (n : Nat) : Written :=
  ⟨sign, digits (Number.numeral n), none, none⟩

def integer (sign : Option Bool) (n : Nat) : Numeral :=
  (Written.integer sign n).numeral (Written.integer sign n).magnitude

theorem signed_integer (sign : Option Bool) (n : Nat) : (integer sign n).signed = sign.isSome := rfl

theorem int_integer (sign : Option Bool) (n : Nat) :
    (integer sign n).int =
      some (if sign = some true then max (-(n : Int)) (-2147483648) else min (n : Int) 2147483647) := by
  show (Written.integer sign n).int = _
  rw [Written.int, if_neg (by rintro ⟨⟩), Written.negative, Written.integer, natOf_digits_numeral]
  by_cases h : sign = some true
  · rw [if_pos h, if_pos (by rw [h]; rfl)]
  · rw [if_neg h, if_neg (by simpa using h)]

/-- A spelled numeral in its parts. -/
def Spelling.integer (sign : Option Bool) (n : Nat) : Spelling := ⟨sign, .ofNat n, none, none⟩

theorem Spelling.text_integer (sign : Option Bool) (n : Nat) : (Spelling.integer sign n).text = spelled sign n := by
  have htext : (Spelling.integer sign n).text = signText sign ++ (Number.numeral n ++ []) := rfl
  rw [htext, List.append_nil]
  cases sign with
  | none => rfl
  | some b => cases b <;> rfl

/-- A spelled numeral is read as a number, unless a unit or a percent sign follows it. -/
theorem scan_number (sign : Option Bool) (n : Nat) (h : EndsNumber rest)
    (hunit : startsIdentifier rest = false) (hpercent : ∀ cs, rest ≠ '%' :: cs) :
    Lexeme.scan (spelled sign n ++ rest) = .token (.number (integer sign n)) :: Lexeme.scan rest := by
  rw [← Spelling.text_integer]
  exact (Spelling.integer sign n).scan_number h.endsSpelling hunit hpercent

/-- A spelled numeral with a unit at once behind it is read as a dimension. -/
theorem scan_dimension (sign : Option Bool) (n : Nat) {unit : List Char}
    (h : EndsNumber (unit ++ rest)) (hunit : startsIdentifier (unit ++ rest) = true)
    (hname : name (unit ++ rest) = (unit, rest)) :
    Lexeme.scan (spelled sign n ++ (unit ++ rest)) =
      .token (.dimension (integer sign n) (String.ofList unit)) :: Lexeme.scan rest := by
  rw [← Spelling.text_integer]
  exact (Spelling.integer sign n).scan_dimension h.endsSpelling hunit hname

end Scan

/-! ## All numbers of a text -/

/-- If the lexeme is a number, its integer is in the range. -/
def Lexeme.Fits : Lexeme → Prop
  | .token (.number n) | .token (.percentage n) | .token (.dimension n _) => n.Fits
  | _ => True

namespace Scan

/-- Numbers are the only lexemes with an integer. -/
theorem fits_next (c : Char) (cs : List Char) (l : Lexeme) (h : (next c cs).1 = some l) : l.Fits := by
  have hl := legible_next c cs l h
  cases l with
  | opening o => trivial
  | token t =>
      cases t with
      | number n =>
          obtain ⟨w, rfl⟩ := hl
          exact w.fits_numeral _
      | percentage n =>
          obtain ⟨w, rfl⟩ := hl
          exact w.fits_numeral _
      | dimension n unit =>
          obtain ⟨⟨w, rfl⟩, -⟩ := hl
          exact w.fits_numeral _
      | _ => trivial

end Scan

end StyleTree
