/-
# `Name.Key` — keys of keyframes

A key is a list of offsets between 0% and 100%.  `from` is the first and
`to` the last of them.  A whole percentage is taken as it stands; another
is rounded to four places, in single precision.  Keys are written with
every digit that the offset needs, never with an exponent.
-/
import StyleTree.Text.Keyword
import StyleTree.ComponentValue.Text

namespace StyleTree

open ComponentValue Number

/-- The offsets of a keyframe, in percent. -/
structure KeyframeKey where
  offsets : List Single
  deriving DecidableEq, Inhabited

namespace KeyframeKey

/-- A whole number of percent. -/
def ofInt (i : Int) : Single := ⟨i < 0, single.ofNat i.natAbs⟩

/-- The natural nearest to a magnitude, a half going up; one that is not finite stays. -/
def roundHalfUp (x : Magnitude) : Magnitude :=
  match x.quotient? with
  | some (n, d) => single.ofNat ((2 * n + d) / (2 * d))
  | none => x

/-- A hundredth of what was written, taken to percent and rounded to four places. -/
def ofFraction (x : Single) : Single :=
  let scaled := single.mul (single.mul x.magnitude (.finite 100 0)) (.finite 10000 0)
  ⟨x.negative, single.divNat (roundHalfUp scaled) 10000⟩

/-- The offset a value stands for, before its range is checked. -/
def offset? : ComponentValue → Option Single
  | .token (.ident n) =>
    if Text.sameWord n "from" then some (ofInt 0)
    else if Text.sameWord n "to" then some (ofInt 100)
    else none
  | .token (.percentage ⟨value, int, _⟩) =>
    match int with
    | some i => some (ofInt i)
    | none => some (ofFraction value)
  | _ => none

/-- One offset of a key. -/
def ofPart? (part : List ComponentValue) : Option Single :=
  match part with
  | [v] => (offset? v).filter (·.isBetween 0 100)
  | _ => none

/-- A key from a run of values. -/
def ofValues? (vs : List ComponentValue) : Option KeyframeKey :=
  ((commaParts vs).mapM ofPart?).map (⟨·⟩)

def ofText? (text : String) : Option KeyframeKey := ofValues? (ComponentValue.ofText text)

/-- One offset as text. -/
def offsetText (x : Single) : String :=
  String.ofList ((if x.negative then ['-'] else []) ++ positional x.magnitude.decimal ++ ['%'])

def text (k : KeyframeKey) : String := Text.joined ", " (k.offsets.map offsetText)

end KeyframeKey

end StyleTree
