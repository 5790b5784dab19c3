/-
# `Declaration.Grammar` — which values a declaration may have

A value grammar decides whether a run of component values is a value of a
property or descriptor, and gives its canonical text.  The sheet relies on
nothing else of it, so a grammar is that function.  `ValueGrammar.basic`
goes by the kinds in the table.

Before a grammar is asked, `ValueGrammar.validate?` checks that the
context knows the name and admits the importance.
-/
import StyleTree.Declaration.Table
import StyleTree.Fault

namespace StyleTree

open ComponentValue

/-- A value as a rule holds it: its canonical text, and whether it is important. -/
structure DeclaredValue where
  text : String
  important : Bool
  deriving DecidableEq, Inhabited

/-- The canonical text of a run of values as the value of a name in a context, if it is one. -/
abbrev ValueGrammar := String → DeclarationContext → List ComponentValue → Option String

namespace ValueGrammar

/-! ## The basic grammar -/

/-- A keyword that every property understands. -/
def wideKeyword? (value : List ComponentValue) : Option String :=
  match value with
  | [.token (.ident n)] =>
    if Text.isAmong Name.wideKeywords n then some (Text.foldCase n) else none
  | _ => none

/-- A function that stands for a value given elsewhere. -/
def isSubstitution (v : ComponentValue) : Bool := Words.substitutions.any v.isFunction

/-- What every property admits: a wide keyword, or a value that is known only where it applies. -/
def forEveryProperty? (value : List ComponentValue) : Option String :=
  wideKeyword? value <|> if anyOf isSubstitution value then some (textOf value) else none

/-- A value by the kind in the table, after what every property admits; custom properties take
anything. -/
def basic : ValueGrammar := fun name c value =>
  let value := trim value
  if isCustomProperty name then some (textOf value)
  else if value.isEmpty then none
  else
    (if c.holdsProperties then forEveryProperty? value else none) <|>
      (Table.kind? c name).bind (·.accept? value)

/-- A grammar that takes any value without capitals and keeps it in capitals. -/
def capitals : ValueGrammar := fun _ _ value =>
  let t := (textOf value).toList
  if t.any Char.isUpper then none else some (String.ofList (t.map Char.toUpper))

/-! ## Validation -/

/-- Whether a canonical name may be declared in a context. -/
def knows (c : DeclarationContext) (name : String) : Bool :=
  if isCustomProperty name then c.admitsCustomProperties else Table.isRecognized c name

/-- A declaration under its canonical name, if the context and the grammar admit it. -/
def validate? (g : ValueGrammar) (c : DeclarationContext) (name : String)
    (value : List ComponentValue) (important : Bool) : Option (String × DeclaredValue) :=
  let n := canonicalName name
  if knows c n && (!important || c.admitsImportance) then
    (g n c value).map (fun t => (n, ⟨t, important⟩))
  else none

/-- A declaration whose value is given as text. -/
def read (g : ValueGrammar) (c : DeclarationContext) (name value : String) (important : Bool) :
    Except Fault (String × DeclaredValue) :=
  match g.validate? c name (ofText value) important with
  | some d => .ok d
  | none => .error (.invalidDeclaration name)

end ValueGrammar

end StyleTree
