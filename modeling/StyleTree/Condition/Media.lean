/-
# `Condition.Media` — media queries

A media query is a condition, or a media type with `not` or `only` in
front of it and a condition without `or` behind it.  A query that is
neither is kept as one that matches nothing and is written `not all`.
-/
import StyleTree.Condition.Basic
import StyleTree.Statement

namespace StyleTree

open ComponentValue

namespace Condition

/-- A name and a value with a colon between them, without importance. -/
def featureValue (d : WrittenDeclaration) : Option String :=
  if d.important || d.value.isEmpty then none
  else some ("(" ++ Text.foldCase d.name ++ ": " ++ textOf d.value ++ ")")

def isComparison : ComponentValue → Bool
  | .token (.delim c) => c == '<' || c == '>' || c == '='
  | _ => false

/-- A feature in parentheses: a name, a name with a value, or a comparison with a name in it. -/
def feature (vs : List ComponentValue) : Option String :=
  match trim vs with
  | [] => none
  | [.token (.ident n)] => some ("(" ++ Text.foldCase n ++ ")")
  | vs =>
    match WrittenDeclaration.ofValues? vs with
    | some d => featureValue d
    | none =>
      if vs.any isComparison && vs.any (·.ident?.isSome) then some ("(" ++ textOf vs ++ ")")
      else none

/-- What media conditions understand. -/
def media : Vocabulary := ⟨feature, fun _ _ => none⟩

end Condition

/-- A media query in its written form, or one that could not be read. -/
inductive MediaQuery where
  | valid (text : String)
  | invalid
  deriving DecidableEq, Inhabited

namespace MediaQuery

open Condition

def text : MediaQuery → String
  | .valid t => t
  | .invalid => "not all"

/-- Words that are no media type. -/
def reservedTypes : List String := ["only", "not", "and", "or", "layer"]

/-- A modifier in front of a media type, and the operands behind it. -/
def modifier (ps : List Operand) : Option String × List Operand :=
  match ps with
  | p :: rest =>
    if p.value.isWord "not" then (some "not", rest)
    else if p.value.isWord "only" then (some "only", rest)
    else (none, ps)
  | [] => (none, [])

/-- The condition behind a media type, with its `and`; nothing may follow the type. -/
def furtherCondition (ps : List Operand) : Option String :=
  match ps with
  | [] => some ""
  | p :: rest =>
    if p.value.isWord "and" then (conditionText false rest).map (" and " ++ ·) else none

/-- A media type with its modifier and the condition behind it. -/
def typed (ps : List Operand) : Option String := do
  let (m, ps) := modifier ps
  match ps with
  | p :: rest =>
    let t := Text.foldCase (← p.value.ident?)
    if t ∈ reservedTypes then none
    else
      let more ← furtherCondition rest
      some ((m.map (· ++ " ")).getD "" ++ t ++ more)
  | [] => none

/-- One media query. -/
def ofValues (vs : List ComponentValue) : MediaQuery :=
  let ps := dense (operands media vs)
  match conditionText true ps with
  | some t => .valid t
  | none =>
    match typed ps with
    | some t => .valid t
    | none => .invalid

def ofText (text : String) : MediaQuery := ofValues (ComponentValue.ofText text)

end MediaQuery

/-- Media queries in order; none at all match every medium. -/
structure MediaList where
  queries : List MediaQuery
  deriving DecidableEq, Inhabited

namespace MediaList

def empty : MediaList := ⟨[]⟩

/-- Media queries between commas. -/
def ofValues (vs : List ComponentValue) : MediaList :=
  if vs.all isBlank then empty else ⟨(commaParts vs).map MediaQuery.ofValues⟩

def ofText (text : String) : MediaList := ofValues (ComponentValue.ofText text)

def text (l : MediaList) : String := Text.joined ", " (l.queries.map MediaQuery.text)

def size (l : MediaList) : Nat := l.queries.length

def isEmpty (l : MediaList) : Bool := l.queries.isEmpty

/-- The text of the query at a place. -/
def item? (l : MediaList) (i : Nat) : Option String := l.queries[i]?.map MediaQuery.text

/-- The list with one more query, unless that is invalid or already there. -/
def append (l : MediaList) (text : String) : MediaList :=
  let q := MediaQuery.ofText text
  if q = .invalid || q ∈ l.queries then l else ⟨l.queries ++ [q]⟩

/-- The list without a query, and whether it was there. -/
def delete (l : MediaList) (text : String) : Bool × MediaList :=
  let q := MediaQuery.ofText text
  let kept := l.queries.filter (· ≠ q)
  (kept.length ≠ l.queries.length, ⟨kept⟩)

end MediaList

end StyleTree
