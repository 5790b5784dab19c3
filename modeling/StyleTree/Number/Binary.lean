/-
# `Number.Binary` — quotients rounded to a binary precision

A magnitude is `mantissa · 2 ^ exponent`, infinite, or undefined: the
product of zero and infinity.  `Precision.round` takes an exact quotient of
naturals to the nearest magnitude that the precision holds, a tie going to
the even mantissa, a quotient too large becoming infinite.  All arithmetic
on magnitudes is exact on quotients and rounds once, at the end of each
operation; what is undefined stays so.

Two precisions are used: numbers are read in `double` and kept in
`single`.  Powers are written `Nat.pow`, which means the same whatever
instances of `^` are in scope.
-/
namespace StyleTree.Number

/-- A number without its sign. -/
inductive Magnitude where
  | finite (mantissa : Nat) (exponent : Int)
  | infinite
  /-- Zero times infinity, and whatever is computed from it. -/
  | undefined
  deriving DecidableEq, Inhabited

namespace Magnitude

def zero : Magnitude := .finite 0 0

/-- Numerator of `mantissa · 2 ^ exponent` in the form used by `denominator`. -/
def scaledUp (mantissa : Nat) (exponent : Int) : Nat := mantissa * Nat.pow 2 exponent.toNat

/-- The power of two below the fraction bar. -/
def scaledDown (exponent : Int) : Nat := Nat.pow 2 (-exponent).toNat

/-- The exact value of a finite magnitude as a quotient of naturals. -/
def quotient? : Magnitude → Option (Nat × Nat)
  | .finite m e => some (scaledUp m e, scaledDown e)
  | .infinite | .undefined => none

def isZero : Magnitude → Bool
  | .finite 0 _ => true
  | _ => false

/-- The magnitude one mantissa further at the same exponent. -/
def next : Magnitude → Magnitude
  | .finite m e => .finite (m + 1) e
  | x => x

/-- Whether the value is a whole number; one that is not finite is none. -/
def isWhole (x : Magnitude) : Bool :=
  match x.quotient? with
  | some (n, d) => n % d == 0
  | none => false

/-- Comparison by value; the undefined compares with nothing. -/
def le : Magnitude → Magnitude → Bool
  | .undefined, _ | _, .undefined => false
  | _, .infinite => true
  | .infinite, .finite _ _ => false
  | .finite m e, .finite m' e' => scaledUp m e * scaledDown e' ≤ scaledUp m' e' * scaledDown e

end Magnitude

/-- A binary precision: how many bits a mantissa has, and the range of exponents. -/
structure Precision where
  bits : Nat
  leastExponent : Int
  greatestExponent : Int

def double : Precision := ⟨53, -1074, 971⟩

def single : Precision := ⟨24, -149, 104⟩

/-- The quotient rounded to the nearest natural, a tie to the even one. -/
def nearest (num den : Nat) : Nat :=
  let q := num / den
  let twice := 2 * (num % den)
  if den < twice || (twice == den && q % 2 == 1) then q + 1 else q

namespace Precision

open Magnitude (scaledUp scaledDown)

/-- The quotient in units of `2 ^ e`, rounded. -/
def inUnits (num den : Nat) (e : Int) : Nat :=
  nearest (num * Nat.pow 2 (-e).toNat) (den * Nat.pow 2 e.toNat)

/-- An exponent at which the quotient has as many bits before the point as the precision keeps,
or one more. -/
def guessExponent (p : Precision) (num den : Nat) : Int :=
  (Nat.log2 num : Int) - (Nat.log2 den : Int) - p.bits

/-- The exponent of the unit in the last place of the rounded quotient. -/
def unitExponent (p : Precision) (num den : Nat) : Int :=
  let e := p.guessExponent num den
  let exact := if num * Nat.pow 2 (-e).toNat < Nat.pow 2 p.bits * (den * Nat.pow 2 e.toNat) then e else e + 1
  max exact p.leastExponent

/-- The magnitude with these parts, one mantissa bit too many being carried to the exponent. -/
def pack (p : Precision) (m : Nat) (e : Int) : Magnitude :=
  let (m, e) := if m == Nat.pow 2 p.bits then (m / 2, e + 1) else (m, e)
  if m == 0 then .zero
  else if p.greatestExponent < e then .infinite
  else .finite m e

/-- The magnitude nearest to `num / den`. -/
def round (p : Precision) (num den : Nat) : Magnitude :=
  if num == 0 then .zero
  else
    let e := p.unitExponent num den
    p.pack (inUnits num den e) e

/-- A magnitude rounded to another precision. -/
def convert (p : Precision) (x : Magnitude) : Magnitude :=
  match x.quotient? with
  | some (n, d) => p.round n d
  | none => x

def add (p : Precision) : Magnitude → Magnitude → Magnitude
  | .undefined, _ | _, .undefined => .undefined
  | .infinite, _ | _, .infinite => .infinite
  | .finite m e, .finite m' e' =>
    p.round (scaledUp m e * scaledDown e' + scaledUp m' e' * scaledDown e)
      (scaledDown e * scaledDown e')

/-- The product; zero times infinity is undefined. -/
def mul (p : Precision) : Magnitude → Magnitude → Magnitude
  | .undefined, _ | _, .undefined => .undefined
  | .infinite, y => if y.isZero then .undefined else .infinite
  | x, .infinite => if x.isZero then .undefined else .infinite
  | .finite m e, .finite m' e' =>
    p.round (scaledUp m e * scaledUp m' e') (scaledDown e * scaledDown e')

/-- The quotient by a positive natural. -/
def divNat (p : Precision) (x : Magnitude) (k : Nat) : Magnitude :=
  match x.quotient? with
  | some (n, d) => p.round n (d * k)
  | none => x

def ofNat (p : Precision) (k : Nat) : Magnitude := p.round k 1

end Precision

/-- A signed number of single precision; zero has two signs. -/
structure Single where
  negative : Bool
  magnitude : Magnitude
  deriving DecidableEq, Inhabited

namespace Single

/-- The 32 bits of the interchange format: sign, biased exponent, fraction.  The undefined has the
sign bit in any case, and the first bit of the fraction. -/
def bits (x : Single) : Nat :=
  let sign := if x.negative then Nat.pow 2 31 else 0
  match x.magnitude with
  | .infinite => sign + 255 * Nat.pow 2 23
  | .undefined => Nat.pow 2 31 + 255 * Nat.pow 2 23 + Nat.pow 2 22
  | .finite m e =>
    if m < Nat.pow 2 23 then sign + m
    else sign + (e - single.leastExponent + 1).toNat * Nat.pow 2 23 + (m - Nat.pow 2 23)

/-- Positive, or zero of either sign. -/
def isNonnegative (x : Single) : Bool :=
  x.magnitude != .undefined && (!x.negative || x.magnitude.isZero)

/-- `lo ≤ x ≤ hi` for naturals `lo` and `hi`. -/
def isBetween (x : Single) (lo hi : Nat) : Bool :=
  if x.negative then x.magnitude.isZero && lo == 0
  else (Magnitude.finite lo 0).le x.magnitude && x.magnitude.le (.finite hi 0)

end Single

end StyleTree.Number
