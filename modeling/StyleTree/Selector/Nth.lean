/-
# `Selector.Nth` — the arithmetic of counted children

`⟨a, b⟩` selects the children numbered `a · n + b` for `n = 0, 1, …`.
`Nth.text` is the one written form of such a pair and `Nth.read` reads the
many forms that are understood: `odd`, `even`, a number, and `An+B` with
blanks around the sign, whose pieces reach the reader as identifiers,
dimensions and signed numbers.
-/
import StyleTree.ComponentValue.Text

namespace StyleTree

open ComponentValue

/-- The step and the offset of a counted child; both are 32-bit integers when read. -/
structure Nth where
  step : Int
  offset : Int
  deriving DecidableEq, Inhabited

namespace Nth

def odd : Nth := ⟨2, 1⟩

def even : Nth := ⟨2, 0⟩

/-! ## Writing -/

/-- The step with its `n`; a step of one is only a sign. -/
def writeStep (a : Int) : List Char :=
  if a = 1 then ['n'] else if a = -1 then ['-', 'n'] else Number.integer a ++ ['n']

/-- An offset behind a step, with its sign; zero is left out. -/
def writeOffset (b : Int) : List Char :=
  if b = 0 then [] else if 0 < b then '+' :: Number.integer b else Number.integer b

def write (n : Nth) : List Char :=
  if n = odd then "odd".toList
  else if n = even then "even".toList
  else if n.step = 0 then Number.integer n.offset
  else writeStep n.step ++ writeOffset n.offset

def text (n : Nth) : String := String.ofList n.write

/-! ## Reading -/

/-- The offset behind `An`: a signed number, or a sign and an unsigned one; zero if neither
follows. -/
def readOffset (vs : List ComponentValue) : Int × List ComponentValue :=
  match vs.dropWhile isBlank with
  | .token (.number ⟨_, some b, true⟩) :: rest => (b, rest)
  | .token (.delim sign) :: more =>
    match more.dropWhile isBlank with
    | .token (.number ⟨_, some b, false⟩) :: rest =>
      if sign == '+' then (b, rest) else if sign == '-' then (-b, rest) else (0, vs)
    | _ => (0, vs)
  | _ => (0, vs)

/-- The unsigned number behind `An-`. -/
def readNegated (a : Int) (vs : List ComponentValue) : Option (Nth × List ComponentValue) :=
  match vs.dropWhile isBlank with
  | .token (.number ⟨_, some b, false⟩) :: rest => some (⟨a, -b⟩, rest)
  | _ => none

/-- The rest behind a step `a`: `unit` is what was written together with it, from the `n` on, in
lower case. -/
def readUnit (a : Int) (unit : List Char) (vs : List ComponentValue) :
    Option (Nth × List ComponentValue) :=
  match unit with
  | ['n'] =>
    let r := readOffset vs
    some (⟨a, r.1⟩, r.2)
  | ['n', '-'] => readNegated a vs
  | 'n' :: '-' :: ds =>
    if ds.all Char.isDigit then
      let b := Scan.Written.natOf (Scan.digits ds)
      if b ≤ 2147483647 then some (⟨a, -(b : Int)⟩, vs) else none
    else none
  | _ => none

/-- An identifier in lower case; a leading minus sign belongs to the step. -/
def readIdent (k : List Char) (vs : List ComponentValue) : Option (Nth × List ComponentValue) :=
  match k with
  | '-' :: unit => readUnit (-1) unit vs
  | unit => readUnit 1 unit vs

/-- The front of a run of values as a counted child. -/
def read (vs : List ComponentValue) : Option (Nth × List ComponentValue) :=
  match vs.dropWhile isBlank with
  | .token (.ident k) :: rest =>
    if Text.sameWord k "odd" then some (odd, rest)
    else if Text.sameWord k "even" then some (even, rest)
    else readIdent (k.toList.map Char.toLower) rest
  | .token (.number n) :: rest => n.int.map (fun b => (⟨0, b⟩, rest))
  | .token (.dimension n unit) :: rest =>
    match n.int with
    | some a => readUnit a (unit.toList.map Char.toLower) rest
    | none => none
  | .token (.delim '+') :: .token (.ident k) :: rest =>
    if Text.beginsWith "-" k then none else readUnit 1 (k.toList.map Char.toLower) rest
  | _ => none

end Nth

end StyleTree
