/-
# `Selector.Read` — reading selectors

A selector is read in three steps.  First every function among the values
is given its meaning as a pseudo-class, from the innermost outwards, so
that the lists of selectors inside arguments are read before the list they
stand in.  Then the values of one selector are cut into segments at the
combinators.  Then each segment is read as a compound, from left to right.

Two things can go wrong.  A syntax error spoils the whole list; a prefix
that is not declared spoils only the selector that uses it, unless no
other selector is left.
-/
import StyleTree.Selector.Text
import StyleTree.Selector.Names
import StyleTree.Namespaces

namespace StyleTree

open ComponentValue

/-- What may stand in front of a selector. -/
inductive SelectorMode where
  /-- No leading combinator. -/
  | absolute
  /-- Relative to the nesting selector, which is put in front unless it is mentioned. -/
  | nested
  /-- A leading combinator is kept as written. -/
  | relative
  deriving DecidableEq, Inhabited

namespace Selector

/-- Why a selector was not read. -/
inductive Failure where
  | syntaxError
  | undeclaredPrefix
  deriving DecidableEq, Inhabited

/-- A component value with its meaning as a pseudo-class, if it is a function that has one. -/
structure Piece where
  value : ComponentValue
  meaning : Option PseudoClass

namespace Piece

/-- The name of an identifier. -/
def ident? (p : Piece) : Option String := p.value.ident?

/-- An identifier or a star. -/
def isTypeName (p : Piece) : Bool := p.value.ident?.isSome || p.value.isDelim '*'

def isBar (p : Piece) : Bool := p.value.isDelim '|'

def isColon (p : Piece) : Bool :=
  match p.value with
  | .token .colon => true
  | _ => false

/-- A combinator other than the descendant one. -/
def combinator? (p : Piece) : Option Combinator :=
  match p.value with
  | .token (.delim '>') => some .child
  | .token (.delim '+') => some .nextSibling
  | .token (.delim '~') => some .laterSibling
  | _ => none

end Piece

/-! ## Segments -/

/-- One more piece in front of the segments behind it.  A blank is a descendant combinator unless
another separator or the end follows; an explicit combinator takes the blank behind it. -/
def addPiece (p : Piece) (r : List Piece × List (Combinator × List Piece)) :
    List Piece × List (Combinator × List Piece) :=
  match p.combinator? with
  | some k =>
    match r with
    | ([], (.descendant, segment) :: more) => ([], (k, segment) :: more)
    | (segment, more) => ([], (k, segment) :: more)
  | none =>
    if p.value.isBlank then
      match r with
      | ([], more) => ([], more)
      | (segment, more) => ([], (.descendant, segment) :: more)
    else (p :: r.1, r.2)

/-- The segments between combinators: the first, then each with the combinator in front of it. -/
def segments (ps : List Piece) : List Piece × List (Combinator × List Piece) :=
  ps.foldr addPiece ([], [])

/-! ## Types and attributes -/

section

variable (ns : Namespaces)

/-- A prefix, if it is declared. -/
def declared (n : String) : Except Failure Qualifier :=
  if ns.isDeclared n then .ok (.named n) else .error .undeclaredPrefix

/-- What stands before the bar of a qualified name. -/
def qualifier (p : Piece) : Except Failure Qualifier :=
  match p.ident? with
  | some n => declared ns n
  | none => .ok .any

/-- The type selector at the front of a segment, if there is one, and the pieces behind it. -/
def typeSelector (ps : List Piece) : Except Failure (Option TypeSelector × List Piece) :=
  match ps with
  | p :: q :: r :: rest =>
    if p.isTypeName && q.isBar && r.isTypeName then do
      let k ← qualifier ns p
      pure (some ⟨some k, r.ident?⟩, rest)
    else if p.isBar then
      if q.isTypeName then .ok (some ⟨some .none, q.ident?⟩, r :: rest) else .error .syntaxError
    else if p.isTypeName then .ok (some ⟨none, p.ident?⟩, q :: r :: rest)
    else .ok (none, ps)
  | p :: rest =>
    if p.isBar then
      match rest with
      | [q] => if q.isTypeName then .ok (some ⟨some .none, q.ident?⟩, []) else .error .syntaxError
      | _ => .error .syntaxError
    else if p.isTypeName then .ok (some ⟨none, p.ident?⟩, rest)
    else .ok (none, ps)
  | [] => .ok (none, [])

def matcher? : ComponentValue → Option Matcher
  | .token (.delim '=') => some .equals
  | .token .includes => some .includes
  | .token .dashMatch => some .dashMatch
  | .token .startsWith => some .startsWith
  | .token .endsWith => some .endsWith
  | .token .contains => some .contains
  | _ => none

/-- The value of an attribute: an identifier or a string. -/
def attributeValue? : ComponentValue → Option String
  | .token (.ident s) => some s
  | .token (.string s) => some s
  | _ => none

def flag? (v : ComponentValue) : Option Char :=
  if v.isWord "i" then some 'i' else if v.isWord "s" then some 's' else none

/-- The comparison behind the name of an attribute, from the values that are not blank. -/
def attributeTest : List ComponentValue → Option (Option (Matcher × String) × Option Char)
  | [] => some (none, none)
  | [m, v] => do some (some (← matcher? m, ← attributeValue? v), none)
  | [m, v, f] => do some (some (← matcher? m, ← attributeValue? v), some (← flag? f))
  | _ => none

/-- The name of an attribute with its qualifier, and the values behind it. -/
def attributeName (vs : List ComponentValue) :
    Except Failure (Option Qualifier × String × List ComponentValue) :=
  match vs with
  | .token (.delim '|') :: .token (.ident n) :: rest => .ok (some .none, n, rest)
  | .token (.delim '*') :: .token (.delim '|') :: .token (.ident n) :: rest =>
    .ok (some .any, n, rest)
  | .token (.ident q) :: .token (.delim '|') :: rest => do
    let k ← declared ns q
    match rest with
    | .token (.ident n) :: rest => pure (some k, n, rest)
    | _ => .error .syntaxError
  | .token (.ident n) :: rest => .ok (none, n, rest)
  | _ => .error .syntaxError

/-- The contents of square brackets. -/
def attributeSelector (vs : List ComponentValue) : Except Failure AttributeSelector := do
  let (k, n, rest) ← attributeName ns (vs.dropWhile isBlank)
  match attributeTest (withoutBlanks rest) with
  | some (test, flag) => pure ⟨k, n, test, flag⟩
  | none => .error .syntaxError

/-! ## Compounds -/

/-- The pseudo-class behind a single colon; names that older sheets write with one colon are
pseudo-elements. -/
inductive Pseudo where
  | ofClass (p : PseudoClass)
  | ofElement (name : String) (argument : Option (List ComponentValue))

/-- A name behind a single colon. -/
def singleColonName (n : String) : Option Pseudo :=
  if n ∈ Names.singleColonElements then some (.ofElement n none)
  else if n ∈ Names.plainClasses || Names.isVendor n then some (.ofClass (.plain n))
  else none

/-- What stands behind a single colon. -/
def singleColon (p : Piece) : Option Pseudo :=
  match p.value with
  | .token (.ident n) => singleColonName (Text.foldCase n)
  | .block (.function _) _ => p.meaning.map .ofClass
  | _ => none

/-- What stands behind a double colon. -/
def doubleColon (p : Piece) : Option Pseudo :=
  match p.value with
  | .token (.ident n) =>
    let n := Text.foldCase n
    if n ∈ Names.plainElements || Names.isVendor n then some (.ofElement n none) else none
  | .block (.function n) vs =>
    let n := Text.foldCase n
    if (n ∈ Names.functionalElements && !vs.all isBlank) || Names.isVendor n then
      some (.ofElement n (some (trim vs)))
    else none
  | _ => none

def Pseudo.addTo (c : Compound) : Pseudo → Compound
  | .ofClass p => c.withClass p
  | .ofElement n a => c.withElement n a

/-- A compound grown by the pieces behind its type; all of them have to belong to it. -/
def grow (c : Compound) : List Piece → Except Failure Compound
  | [] => .ok c
  | p :: ps =>
    if p.isColon then
      match ps with
      | q :: ps =>
        if q.isColon then
          match ps with
          | r :: ps =>
            match doubleColon r with
            | some x => grow (x.addTo c) ps
            | none => .error .syntaxError
          | [] => .error .syntaxError
        else
          match singleColon q with
          | some x => grow (x.addTo c) ps
          | none => .error .syntaxError
      | [] => .error .syntaxError
    else if !c.elements.isEmpty then .error .syntaxError
    else
      match p.value with
      | .token (.delim '&') => grow (c.withSimple .nesting) ps
      | .token (.idHash n) => grow (c.withSimple (.byId n)) ps
      | .token (.delim '.') =>
        match ps with
        | q :: ps =>
          match q.ident? with
          | some n => grow (c.withSimple (.byClass n)) ps
          | none => .error .syntaxError
        | [] => .error .syntaxError
      | .block (.bracket .square) vs =>
        match attributeSelector ns vs with
        | .ok a => grow (c.withSimple (.byAttribute a)) ps
        | .error f => .error f
      | _ => .error .syntaxError

/-- The compound of a segment. -/
def compound (ps : List Piece) : Except Failure Compound := do
  let (t, rest) ← typeSelector ns ps
  let c ← grow ns (.mk t [] []) rest
  if c.isEmpty then .error .syntaxError else pure c

/-! ## Selectors and lists -/

/-- The chain of a segment and those behind it; nothing may follow a pseudo-element. -/
def chainOf (first : List Piece) : List (Combinator × List Piece) → Except Failure Chain
  | [] => do
    let c ← compound ns first
    pure (.last c)
  | (k, segment) :: more => do
    let c ← compound ns first
    if !c.elements.isEmpty then .error .syntaxError
    else
      let rest ← chainOf segment more
      pure (.link c k rest)

/-- A selector in nested rules is taken relative to the nesting selector unless it mentions it
and starts with no combinator. -/
def inMode (mode : SelectorMode) (s : Selector) : Selector :=
  if mode = .nested && (s.leading.isSome || !s.mentionsNesting) then s.underNesting else s

/-- One selector. -/
def selector (mode : SelectorMode) (ps : List Piece) : Except Failure Selector :=
  match segments ps with
  | ([], (.descendant, first) :: more) => do
    let c ← chainOf ns first more
    pure (inMode mode (.mk none c))
  | ([], (k, first) :: more) =>
    if mode = .absolute then .error .syntaxError
    else do
      let c ← chainOf ns first more
      pure (inMode mode (.mk (some k) c))
  | (first, more) => do
    let c ← chainOf ns first more
    pure (inMode mode (.mk none c))

/-- The selectors of a list, those with an undeclared prefix left out; none if one has a syntax
error or none is left. -/
def keepDeclared : List (Except Failure Selector) → Option (List Selector)
  | [] => some []
  | .ok s :: rest => (keepDeclared rest).map (s :: ·)
  | .error .undeclaredPrefix :: rest => keepDeclared rest
  | .error .syntaxError :: _ => none

/-- A list of selectors between commas. -/
def listOfPieces (mode : SelectorMode) (ps : List Piece) : Option (List Selector) :=
  match keepDeclared ((splitOn (fun p => p.value.isComma) ps).map (selector ns mode)) with
  | some (s :: ss) => some (s :: ss)
  | _ => none

/-! ## The meaning of functions -/

/-- The pseudo-class that counts children, with a list of selectors behind `of` where it takes
one. -/
def countingClass (name : String) (vs : List ComponentValue) (ps : List Piece) :
    Option PseudoClass :=
  match Nth.read vs with
  | none => none
  | some (n, rest) =>
    match rest.dropWhile isBlank with
    | [] => some (.counting name n)
    | v :: list =>
      if name ∈ Names.filteringClasses && v.isWord "of" then
        (listOfPieces ns .absolute (ps.drop (ps.length - list.length))).map (.countingOf name n)
      else none

/-- The pseudo-class that a function stands for: `vs` are its arguments and `ps` the same
arguments as pieces. -/
def functionalClass (name : String) (vs : List ComponentValue) (ps : List Piece) :
    Option PseudoClass :=
  if name ∈ Names.matchingClasses then (listOfPieces ns .absolute ps).map (.matching name)
  else if name = "has" then (listOfPieces ns .relative ps).map (.matching name)
  else if name ∈ Names.filteringClasses || name ∈ Names.countingClasses then
    countingClass ns name vs ps
  else if (name ∈ Names.rawClasses || Names.isVendor name) && !vs.all isBlank then
    some (.raw name (trim vs))
  else none

mutual

/-- A value as a piece. -/
def piece : ComponentValue → Piece
  | .token t => ⟨.token t, none⟩
  | .block o vs =>
    ⟨.block o vs,
      match o with
      | .function n => functionalClass ns (Text.foldCase n) vs (pieces vs)
      | .bracket _ => none⟩

def pieces : List ComponentValue → List Piece
  | [] => []
  | v :: vs => piece v :: pieces vs

end

/-- A list of selectors from component values. -/
def listOfValues (mode : SelectorMode) (vs : List ComponentValue) : Option (List Selector) :=
  listOfPieces ns mode (pieces ns vs)

/-- A list of selectors from text. -/
def listOfText (mode : SelectorMode) (text : String) : Option (List Selector) :=
  listOfValues ns mode (ComponentValue.ofText text)

end

theorem ne_nil_of_listOfValues {ns : Namespaces} {mode : SelectorMode} {vs : List ComponentValue}
    {l : List Selector} (h : listOfValues ns mode vs = some l) : l ≠ [] := by
  unfold listOfValues listOfPieces at h
  split at h
  · cases h
    exact List.cons_ne_nil _ _
  · cases h

end Selector

end StyleTree
