/-
# `Text.Identifier` — how names and identifiers are written

A *name* is a run of name characters.  Letters, digits, `_`, `-` and every
character beyond ASCII are written as they are; any other ASCII character
is escaped: control characters by their code in hexadecimal with a blank
behind it, the rest by a backslash.  U+0000 has no escape and is written
as the replacement character.

An *identifier* is a name that may not start like a number.  A digit in
front (or behind one leading `-`) is therefore written by its code, and a
lone `-` with a backslash.
-/
namespace StyleTree.Text

/-- The character that stands for one which cannot be represented. -/
def replacement : Char := '\uFFFD'

/-- Characters beyond the ASCII range. -/
def isBeyondAscii (c : Char) : Bool := c.val ≥ 128

/-- The control characters other than U+0000. -/
def isControl (c : Char) : Bool := (1 ≤ c.val && c.val ≤ 31) || c.val == 127

/-- A number below sixteen as a lower-case hexadecimal digit. -/
def hexDigit (n : Nat) : Char := if n < 10 then Char.ofNat (48 + n) else Char.ofNat (87 + n)

/-- The escape of an ASCII character by its code: no leading zero, one blank behind. -/
def hexEscape (c : Char) : List Char :=
  let n := c.toNat
  if n < 16 then ['\\', hexDigit n, ' '] else ['\\', hexDigit (n / 16), hexDigit (n % 16), ' ']

/-- Characters that stand for themselves in a name. -/
def isPlainInName (c : Char) : Bool := c.isAlphanum || c == '_' || c == '-' || isBeyondAscii c

/-- One character of a name. -/
def writeNameChar (c : Char) : List Char :=
  if isPlainInName c then [c]
  else if c == '\x00' then [replacement]
  else if isControl c then hexEscape c
  else ['\\', c]

/-- A name, character by character. -/
def writeName (cs : List Char) : List Char := cs.flatMap writeNameChar

/-- A name whose first character, if it is a digit, is written by its code. -/
def writeNameStart : List Char → List Char
  | [] => []
  | c :: cs => (if c.isDigit then hexEscape c else writeNameChar c) ++ writeName cs

/-- An identifier. -/
def writeIdentifier : List Char → List Char
  | ['-'] => ['\\', '-']
  | '-' :: '-' :: cs => '-' :: '-' :: writeName cs
  | '-' :: cs => '-' :: writeNameStart cs
  | cs => writeNameStart cs

/-- A name as text. -/
def name (s : String) : String := String.ofList (writeName s.toList)

/-- An identifier as text. -/
def identifier (s : String) : String := String.ofList (writeIdentifier s.toList)

end StyleTree.Text
