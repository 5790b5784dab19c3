/-
# `Token.Basic` — the units a style sheet's text is made of

`Token` lists the units that stand alone.  What opens a block is an
`Opener`: a bracket, or a function name together with its parenthesis.
The scanner produces a flat run of both, `Lexeme`; `ComponentValue` nests
them.
-/
import StyleTree.Number.Binary

namespace StyleTree

/-- The three kinds of brackets. -/
inductive Bracket where
  | round
  | square
  | curly
  deriving DecidableEq, Repr, Inhabited

/-- A number as it was read: its value, its value as a 32-bit integer if it was written without
fraction and exponent, and whether it was written with a sign. -/
structure Numeral where
  value : Number.Single
  int : Option Int
  signed : Bool
  deriving DecidableEq, Inhabited

/-- A unit of text that opens no block. -/
inductive Token where
  | ident (name : String)
  | atKeyword (name : String)
  /-- A `#name` whose name is no identifier. -/
  | hash (name : String)
  /-- A `#name` whose name is an identifier. -/
  | idHash (name : String)
  | string (text : String)
  /-- A URL that was written without quotes. -/
  | url (text : String)
  | delim (c : Char)
  | number (n : Numeral)
  /-- A percentage; the value is a hundredth of what was written. -/
  | percentage (n : Numeral)
  | dimension (n : Numeral) (unit : String)
  /-- A run of blanks. -/
  | blank
  | colon
  | semicolon
  | comma
  /-- The token `~=`. -/
  | includes
  /-- The token `|=`. -/
  | dashMatch
  /-- The token `^=`. -/
  | startsWith
  /-- The token `$=`. -/
  | endsWith
  /-- The token `*=`. -/
  | contains
  /-- The token `<!--`. -/
  | commentOpen
  /-- The token `-->`. -/
  | commentClose
  | badUrl (raw : String)
  | badString (text : String)
  /-- A closing bracket that closes nothing. -/
  | close (b : Bracket)
  deriving DecidableEq, Inhabited

/-- What opens a block. -/
inductive Opener where
  | function (name : String)
  | bracket (b : Bracket)
  deriving DecidableEq, Inhabited

/-- The bracket that closes a block. -/
def Opener.closer : Opener → Bracket
  | .function _ => .round
  | .bracket b => b

/-- A scanned unit: a token, or the opening of a block. -/
inductive Lexeme where
  | token (t : Token)
  | opening (o : Opener)
  deriving DecidableEq, Inhabited

end StyleTree
