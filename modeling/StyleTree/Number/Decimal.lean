/-
# `Number.Decimal` — the fewest digits that identify a number

A positive number of single precision stands for the open interval of the
reals that are nearer to it than to any other.  `shortest` finds a decimal
with the fewest digits in that interval, the nearest one to the number if
several have that length.
The second half lays digits out as text: `positional` writes every digit
at its place, and `Layout.write` cuts to a number of significant digits
and goes over to an exponent when the leading digit is far from the point.
-/
import StyleTree.Number.Binary

namespace StyleTree.Number

/-- The decimal `digits · 10 ^ exponent`. -/
structure Decimal where
  digits : Nat
  exponent : Int
  deriving DecidableEq, Inhabited

namespace Decimal

/-- The exact value as a quotient of naturals. -/
def quotient (d : Decimal) : Nat × Nat :=
  (d.digits * Nat.pow 10 d.exponent.toNat, Nat.pow 10 (-d.exponent).toNat)

/-- How many digits a natural has; zero has one. -/
def lengthOf (n : Nat) : Nat := (Nat.toDigits 10 n).length

/-- The power of ten of the leading digit. -/
def leadingExponent (d : Decimal) : Int := d.exponent + lengthOf d.digits - 1

/-- Trailing zeros of `digits`, at most `fuel` of them, moved into the exponent. -/
def strip : (fuel : Nat) → (digits : Nat) → (exponent : Int) → Decimal
  | 0, m, e => ⟨m, e⟩
  | fuel + 1, m, e => if m % 10 == 0 && m != 0 then strip fuel (m / 10) (e + 1) else ⟨m, e⟩

end Decimal

/-! ## The interval of a number, in quarters of its last place -/

/-- The lower end of the interval that rounds to `m · 2 ^ e`, in units of `2 ^ (e - 2)`: half way
to the number below, which is nearer at a power of two. -/
def lowerEnd (m : Nat) (e : Int) : Nat :=
  if m == Nat.pow 2 23 && single.leastExponent < e then 4 * m - 1 else 4 * m - 2

/-- The upper end, in the same units. -/
def upperEnd (m : Nat) : Nat := 4 * m + 2

/-- Whether a decimal lies inside the interval of `m · 2 ^ e`, so that it reads back as that number.
The ends are left out: they lie half way to another number. -/
def readsBack (m : Nat) (e : Int) (d : Decimal) : Bool :=
  let (n, k) := d.quotient
  let value := n * Nat.pow 2 (2 - e).toNat
  let unit := Nat.pow 2 (e - 2).toNat * k
  lowerEnd m e * unit < value && value < upperEnd m * unit

/-- The two neighbours of `num / den` on the grid of multiples of `10 ^ e`. -/
def neighbours (num den : Nat) (e : Int) : Decimal × Decimal :=
  let below := num * Nat.pow 10 (-e).toNat / (den * Nat.pow 10 e.toNat)
  (⟨below, e⟩, ⟨below + 1, e⟩)

/-- Whether the first of two neighbouring decimals is at least as near to `num / den`. -/
def firstIsNearer (num den : Nat) (a b : Decimal) : Bool :=
  let (n, k) := a.quotient
  let (n', k') := b.quotient
  2 * num * (k * k') ≤ (n * k' + n' * k) * den

/-- A decimal on the grid of multiples of `10 ^ grid` that reads back, the nearer of two. -/
def onGrid (m : Nat) (e : Int) (grid : Int) : Option Decimal :=
  let num := Magnitude.scaledUp m e
  let den := Magnitude.scaledDown e
  let (a, b) := neighbours num den grid
  match readsBack m e a, readsBack m e b with
  | true, true => if firstIsNearer num den a b then some a else some b
  | true, false => some a
  | false, true => some b
  | false, false => none

/-- The power of ten just above `num / den`, from the lengths of the two numerals. -/
def powerAbove (num den : Nat) : Int :=
  let k : Int := (Decimal.lengthOf num : Int) - (Decimal.lengthOf den : Int)
  if num * Nat.pow 10 (-k).toNat < den * Nat.pow 10 k.toNat then k else k + 1

/-- The decimal with the fewest digits that reads back as `m · 2 ^ e`. -/
def shortest (m : Nat) (e : Int) : Decimal :=
  let num := Magnitude.scaledUp m e
  let den := Magnitude.scaledDown e
  let top := powerAbove num den
  match (List.range 9).findSome? (fun n => onGrid m e (top - (n + 1 : Nat))) with
  | some d => Decimal.strip 9 d.digits d.exponent
  | none => ⟨num * Nat.pow 10 (-(top - 9)).toNat / (den * Nat.pow 10 (top - 9).toNat), top - 9⟩

/-- The decimal that a magnitude is written with, if `short` gives that of `m · 2 ^ e`.  Infinity
is taken for the first magnitude past the finite ones, the undefined for half as much again. -/
def Magnitude.decimalBy (short : Nat → Int → Decimal) : Magnitude → Decimal
  | .finite 0 _ => ⟨0, 0⟩
  | .finite m e => short m e
  | .infinite => short (Nat.pow 2 23) 105
  | .undefined => short (Nat.pow 2 23 + Nat.pow 2 22) 105

/-- The decimal with the fewest digits. -/
def Magnitude.decimal : Magnitude → Decimal := decimalBy shortest

/-! ## Digits as text -/

/-- The decimal numeral of a natural. -/
def numeral (n : Nat) : List Char := Nat.toDigits 10 n

/-- The decimal numeral of an integer, with a minus sign if it is negative. -/
def integer (i : Int) : List Char := if i < 0 then '-' :: numeral i.natAbs else numeral i.natAbs

/-- A decimal with every digit at its place, and a point if it is no whole number. -/
def positional (d : Decimal) : List Char :=
  let cs := numeral d.digits
  if 0 ≤ d.exponent then cs ++ List.replicate d.exponent.toNat '0'
  else
    let places := (-d.exponent).toNat
    if places < cs.length then
      cs.take (cs.length - places) ++ '.' :: cs.drop (cs.length - places)
    else '0' :: '.' :: List.replicate (places - cs.length) '0' ++ cs

/-- The decimal cut to `places` significant digits, a half going up. -/
def Decimal.cut (places : Nat) (d : Decimal) : Decimal :=
  let n := lengthOf d.digits
  if n ≤ places then d
  else
    let unit := Nat.pow 10 (n - places)
    strip (places + 1) ((d.digits + unit / 2) / unit) (d.exponent + (n - places : Nat))

/-- How digits become text: the leading exponents that are written positionally, and how many
significant digits are kept. -/
structure Layout where
  least : Int
  greatest : Int
  places : Nat

namespace Layout

def isPositional (l : Layout) (d : Decimal) : Bool :=
  l.least ≤ d.leadingExponent && d.leadingExponent ≤ l.greatest

/-- The text of a decimal.  The exponent is that of the digits before they are cut, so that a cut
which carries past the leading digit leaves two digits before the point. -/
def write (l : Layout) (d : Decimal) : List Char :=
  if l.isPositional d then positional (d.cut l.places)
  else
    let x := d.leadingExponent
    let c := d.cut l.places
    positional ⟨c.digits, c.exponent - x⟩ ++ 'e' :: integer x

end Layout

end StyleTree.Number
