/-
# `Text.Keyword` — words compared without regard to ASCII case

Keywords, function names and property names of style sheets are matched
letter by letter with the twenty-six ASCII letters folded to lower case;
every other character stands for itself.  `foldCase` is that folding and
`sameWord` the comparison it induces.
-/
namespace StyleTree.Text

/-- The text with its ASCII letters in lower case. -/
def foldCase (s : String) : String := String.ofList (s.toList.map Char.toLower)

/-- Two texts are one word if they differ in the case of ASCII letters only. -/
def sameWord (a b : String) : Bool := a.toList.map Char.toLower == b.toList.map Char.toLower

/-- Whether `s` spells one of the words. -/
def isAmong (words : List String) (s : String) : Bool := words.any (sameWord · s)

/-- The first of the words that `s` spells. -/
def findWord (words : List String) (s : String) : Option String := words.find? (sameWord · s)

theorem sameWord_iff (a b : String) : sameWord a b = true ↔ foldCase a = foldCase b := by
  simp [sameWord, foldCase, String.ofList_inj]

/-- Whether a text begins with `start`. -/
def beginsWith (start s : String) : Bool := start.toList.isPrefixOf s.toList

/-- The texts in order with `separator` between neighbours. -/
def joined (separator : String) : List String → String
  | [] => ""
  | [s] => s
  | s :: rest => s ++ separator ++ joined separator rest

end StyleTree.Text
