/-
# `Condition.Basic` — conditions over terms in parentheses

A condition is `not` before a term, or terms joined by `and` alone or by
`or` alone.  What a term is depends on the rule: a `Vocabulary` says what
parentheses may hold besides another condition, and which functions are
terms.  A term that no rule knows is kept as written if it is in
parentheses or a function.

The terms are read from the innermost outwards: each value of a run is
paired with its text as a term, and `conditionText` reads the condition
off the pairs.
-/
import StyleTree.ComponentValue.Text
import StyleTree.Text.Keyword

namespace StyleTree.Condition

open ComponentValue

/-- What a kind of condition understands besides nested conditions. -/
structure Vocabulary where
  /-- The text of a term in parentheses whose contents are no condition. -/
  enclosed : List ComponentValue → Option String
  /-- The text of a term that is a function. -/
  function : String → List ComponentValue → Option String

/-- A value with its text as a term, if it is one. -/
structure Operand where
  value : ComponentValue
  term : Option String

/-- The keyword that joins two terms. -/
def joiner? (allowOr : Bool) (p : Operand) : Option String :=
  if p.value.isWord "and" then some "and"
  else if allowOr && p.value.isWord "or" then some "or"
  else none

/-- The terms behind the first one, each behind a keyword; all the keywords are the same. -/
def joinedTerms (allowOr : Bool) (keyword : Option String) : List Operand → Option String
  | [] => some ""
  | [_] => none
  | p :: q :: rest => do
    let k ← joiner? allowOr p
    let t ← q.term
    if keyword.isNone || keyword = some k then
      let more ← joinedTerms allowOr (some k) rest
      some (" " ++ k ++ " " ++ t ++ more)
    else none

/-- The text of a whole run, blanks left out, as a condition. -/
def conditionText (allowOr : Bool) (ps : List Operand) : Option String :=
  match ps with
  | [] => none
  | p :: rest =>
    if p.value.isWord "not" then
      match rest with
      | [q] => q.term.map ("not " ++ ·)
      | _ => none
    else do
      let t ← p.term
      let more ← joinedTerms allowOr none rest
      some (t ++ more)

/-- The text of a term that is kept as written. -/
def asWritten (v : ComponentValue) : Option String := some v.text

/-- The operands that are not blank. -/
def dense (ps : List Operand) : List Operand := ps.filter (fun p => !p.value.isBlank)

mutual

/-- The text of a value as a term. -/
def term (g : Vocabulary) : ComponentValue → Option String
  | .block (.bracket .round) vs =>
    match conditionText true (dense (operands g vs)) with
    | some c => some ("(" ++ c ++ ")")
    | none =>
      match g.enclosed vs with
      | some t => some t
      | none => asWritten (.block (.bracket .round) vs)
  | .block (.function n) vs =>
    match g.function n vs with
    | some t => some t
    | none => asWritten (.block (.function n) vs)
  | _ => none

/-- The values of a run with their texts as terms. -/
def operands (g : Vocabulary) : List ComponentValue → List Operand
  | [] => []
  | v :: vs => ⟨v, term g v⟩ :: operands g vs

end

/-- The text of a run of values as a condition. -/
def ofValues? (g : Vocabulary) (allowOr : Bool) (vs : List ComponentValue) : Option String :=
  conditionText allowOr (dense (operands g vs))

end StyleTree.Condition
