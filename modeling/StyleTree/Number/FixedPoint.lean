/-
# `Number.FixedPoint` — a decimal of a number, found in words of 32 bits

`Magnitude.fixedDecimal` looks for a short decimal in the interval of a
number, as `shortest` does, but in fixed point.  A power of ten brings the
interval to where its numbers have a whole part of one to ten digits; the
power, and then each product with it, is rounded to 32 bits.  The two
roundings move an end by less than a unit, so both ends are drawn in by
one, and whatever is found reads back.

The price is at the ends.  A decimal next to one of them is missed, and a
longer one takes its place; and which of two is nearer to the number is
told from rounded distances.
-/
import StyleTree.Number.Decimal

namespace StyleTree.Number

/-- The precision of a word of 32 bits, with exponents for every power of ten in use. -/
def word : Precision := ⟨32, -200, 200⟩

/-- A value between two ends, in units of `2 ^ exponent`. -/
structure Interval where
  lower : Nat
  value : Nat
  upper : Nat
  exponent : Int
  deriving DecidableEq, Inhabited

namespace Interval

/-- The reals that are nearer to `m · 2 ^ e` than to any other number, in the unit that gives the
upper end 32 bits. -/
def around (m : Nat) (e : Int) : Interval :=
  let spare := 31 - Nat.log2 (upperEnd m)
  ⟨lowerEnd m e * Nat.pow 2 spare, 4 * m * Nat.pow 2 spare, upperEnd m * Nat.pow 2 spare, e - 2 - spare⟩

/-! ## Lifting by a power of ten -/

/-- The powers of ten to choose from: every eighth from `-36` to `52`. -/
def powers : List Int := (List.range 12).map fun n : Nat => 8 * (n : Int) - 36

/-- Whether `10 ^ p` brings `2 ^ 29` units to one or more.  A value around which an interval was
formed has at least four times as many units, so its whole part is then not zero. -/
def isLiftedBy (i : Interval) (p : Int) : Bool :=
  let e := i.exponent + 29
  Nat.pow 10 (-p).toNat * Nat.pow 2 (-e).toNat ≤ Nat.pow 10 p.toNat * Nat.pow 2 e.toNat

/-- The least power that lifts the interval. -/
def liftingPower (i : Interval) : Int := (powers.find? i.isLiftedBy).getD 52

/-- The upper word of a product of two words, the lower word rounded off, a half going up. -/
def upperWord (x y : Nat) : Nat := (x * y + Nat.pow 2 31) / Nat.pow 2 32

/-- The interval times `10 ^ p`, the ends drawn in by as much as they may be off. -/
def lift (i : Interval) (p : Int) : Interval :=
  let num := Nat.pow 10 p.toNat
  let den := Nat.pow 10 (-p).toNat
  let q := word.unitExponent num den
  let c := Precision.inUnits num den q
  ⟨upperWord i.lower c + 1, upperWord i.value c, upperWord i.upper c - 1, i.exponent + q + 32⟩

/-! ## Decimals of a lifted interval

The unit of a lifted interval is a fraction, so the point stands `-exponent` binary places from the
right. -/

/-- The multiple of `10 ^ k` in the interval that is nearest to the value, of two the upper one.
Fractions may not meet the lower end. -/
def onGrid (i : Interval) (k : Int) : Option Decimal :=
  let fine := Nat.pow 10 (-k).toNat
  let step := Nat.pow 10 k.toNat * Nat.pow 2 (-i.exponent).toNat
  let first := (i.lower * fine + step - 1) / step
  let last := i.upper * fine / step
  let nearest := (2 * (i.value * fine) + step) / (2 * step)
  if first ≤ last && (0 ≤ k || i.lower * fine < last * step) then
    some ⟨max first (min nearest last), k⟩
  else none

/-- The decimal of the coarsest grid that has one, from the billions to the seventh place behind the
point.  A step of that last grid is less than 27 units, and a lifted interval is three times as
wide. -/
def decimal (i : Interval) : Decimal :=
  ((List.range 17).findSome? fun n : Nat => i.onGrid (9 - (n : Int))).getD
    ⟨i.value / Nat.pow 2 (-i.exponent).toNat, 0⟩

end Interval

/-- A short decimal that reads back as `m · 2 ^ e`: found in the lifted interval and brought back
down. -/
def fixedPoint (m : Nat) (e : Int) : Decimal :=
  let i := Interval.around m e
  let p := i.liftingPower
  let d := (i.lift p).decimal
  ⟨d.digits, d.exponent - p⟩

/-- The decimal found in fixed point. -/
def Magnitude.fixedDecimal : Magnitude → Decimal := decimalBy fixedPoint

end StyleTree.Number
