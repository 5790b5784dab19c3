/-
# `ComponentValue.Text` — component values written as text

`ComponentValue.text` writes one value and `ComponentValue.textOf` a run of
them.  In a run the blanks are normalised: none at either end, none before
a comma, one behind a comma that is not last, and one where blanks stood
between two other values.  The contents of blocks are runs of their own.
-/
import StyleTree.ComponentValue.Basic
import StyleTree.Text.Quoted
import StyleTree.Number.FixedPoint

namespace StyleTree

namespace Numeral

open Number

/-- Numbers keep six significant digits and are written positionally from a millionth up to the
hundreds of quintillions. -/
def layout : Layout := ⟨-6, 20, 6⟩

/-- Whether a number that was read with a fraction or an exponent needs `.0` to be read so again:
its text would else be that of an integer. -/
def needsPoint (n : Numeral) (magnitude : List Char) : Bool :=
  n.int.isNone && n.value.magnitude.isWhole && !magnitude.contains '.' && !magnitude.contains 'e'

/-- The sign in front of a number with this value; the undefined has none. -/
def writeSign (n : Numeral) (value : Single) : List Char :=
  if value.magnitude == .undefined then []
  else if value.negative then ['-']
  else if n.signed then ['+']
  else []

/-- The number in front of a percent sign or unit, with `value` for its own value. -/
def write (n : Numeral) (value : Single) : List Char :=
  let magnitude := layout.write value.magnitude.fixedDecimal
  let point := if needsPoint { n with value } magnitude then ['.', '0'] else []
  n.writeSign value ++ magnitude ++ point

/-- The value of a percentage in percent. -/
def percent (n : Numeral) : Single :=
  ⟨n.value.negative, single.mul n.value.magnitude (.finite 100 0)⟩

end Numeral

/-- A unit; one that would be read as an exponent has its first letter escaped. -/
def writeUnit (unit : List Char) : List Char :=
  let asName := '\\' :: '6' :: '5' :: ' ' :: Text.writeName (unit.drop 1)
  match unit with
  | ['e'] | ['E'] => asName
  | 'e' :: '-' :: _ | 'E' :: '-' :: _ => asName
  | _ => Text.writeIdentifier unit

/-- A token as text. -/
def Token.write : Token → List Char
  | .ident n => Text.writeIdentifier n.toList
  | .atKeyword n => '@' :: Text.writeIdentifier n.toList
  | .hash n => '#' :: Text.writeName n.toList
  | .idHash n => '#' :: Text.writeIdentifier n.toList
  | .string s => Text.writeQuoted s.toList
  | .url u => (Text.url u).toList
  | .delim c => [c]
  | .number n => n.write n.value
  | .percentage n => n.write n.percent ++ ['%']
  | .dimension n unit => n.write n.value ++ writeUnit unit.toList
  | .blank => [' ']
  | .colon => [':']
  | .semicolon => [';']
  | .comma => [',']
  | .includes => ['~', '=']
  | .dashMatch => ['|', '=']
  | .startsWith => ['^', '=']
  | .endsWith => ['$', '=']
  | .contains => ['*', '=']
  | .commentOpen => ['<', '!', '-', '-']
  | .commentClose => ['-', '-', '>']
  | .badUrl raw => 'u' :: 'r' :: 'l' :: '(' :: raw.toList ++ [')']
  | .badString s => '"' :: s.toList
  | .close .round => [')']
  | .close .square => [']']
  | .close .curly => ['\x7d']

def Token.text (t : Token) : String := String.ofList t.write

/-- The opening of a block as text. -/
def Opener.text : Opener → String
  | .function n => Text.identifier n ++ "("
  | .bracket .round => "("
  | .bracket .square => "["
  | .bracket .curly => "\x7b"

/-- The closing bracket as text. -/
def Bracket.closingText : Bracket → String
  | .round => ")"
  | .square => "]"
  | .curly => "\x7d"

namespace ComponentValue

/-! ## The spacing of a run -/

/-- What the spacing of a run depends on. -/
inductive Piece where
  | blank
  | comma
  | text (s : String)
  deriving DecidableEq

/-- Whether a blank met next is dropped, kept for later, or has been kept. -/
inductive Gap where
  | shut
  | possible
  | due
  deriving DecidableEq

/-- A run of pieces with normalised blanks. -/
def spaced : Gap → List Piece → String
  | _, [] => ""
  | .shut, .blank :: ps => spaced .shut ps
  | _, .blank :: ps => spaced .due ps
  | _, .comma :: ps => (if ps.any (· != .blank) then ", " else ",") ++ spaced .shut ps
  | g, .text s :: ps => (if g = .due then " " else "") ++ s ++ spaced .possible ps

/-- A value as a piece of a run, given its text. -/
def Piece.of (text : String) : ComponentValue → Piece
  | .token .blank => .blank
  | .token .comma => .comma
  | _ => .text text

mutual

/-- One value as text. -/
def text : ComponentValue → String
  | .token t => t.text
  | .block o vs => o.text ++ spaced .shut (pieces vs) ++ o.closer.closingText

/-- A run of values as pieces. -/
def pieces : List ComponentValue → List Piece
  | [] => []
  | v :: vs => Piece.of (text v) v :: pieces vs

end

/-- A run of values as text, with normalised blanks. -/
def textOf (vs : List ComponentValue) : String := spaced .shut (pieces vs)

end ComponentValue

end StyleTree
