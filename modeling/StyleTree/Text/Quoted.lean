/-
# `Text.Quoted` — strings between double quotes

A string is written between double quotes whatever quotes it was read
with.  Inside, the quote and the backslash take a backslash, control
characters are written by their code, and U+0000 by the replacement
character.  A URL is written as a quoted string inside `url(…)`.
-/
import StyleTree.Text.Identifier

namespace StyleTree.Text

/-- One character of a quoted string. -/
def writeQuotedChar (c : Char) : List Char :=
  if c == '"' || c == '\\' then ['\\', c]
  else if c == '\x00' then [replacement]
  else if isControl c then hexEscape c
  else [c]

/-- A string between double quotes. -/
def writeQuoted (cs : List Char) : List Char := '"' :: cs.flatMap writeQuotedChar ++ ['"']

/-- A string between double quotes, as text. -/
def quoted (s : String) : String := String.ofList (writeQuoted s.toList)

/-- A URL as text. -/
def url (s : String) : String := "url(" ++ quoted s ++ ")"

end StyleTree.Text
