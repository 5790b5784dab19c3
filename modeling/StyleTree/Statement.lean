/-
# `Statement` — splitting component values into rules and declarations

`Statement.split` cuts a run of component values into items without
knowing which rules exist.  An at-rule ends at its block or at a
semicolon; a qualified rule ends at its block, and is given up at a
semicolon everywhere but at the top level of a sheet; a declaration runs
up to a semicolon.  `Statement.single` reads text that must hold one rule
and nothing else.
-/
import StyleTree.ComponentValue.Basic
import StyleTree.Fault

namespace StyleTree

/-- A rule before anything is known of it: an at-rule has a name, a qualified rule has none. -/
structure Statement where
  name : Option String
  /-- What stands before the block, trimmed. -/
  prelude : List ComponentValue
  /-- The contents of the block, if there is one. -/
  block : Option (List ComponentValue)
  deriving Inhabited

/-- A declaration before it is validated. -/
structure WrittenDeclaration where
  name : String
  value : List ComponentValue
  important : Bool
  deriving Inhabited

/-- What a run of component values is split into. -/
inductive Item where
  | declaration (d : WrittenDeclaration)
  | rule (s : Statement)
  deriving Inhabited

/-- How the contents of a block are to be read. -/
inductive ContentForm where
  | stylesheet
  | ruleList
  | declarations
  deriving DecidableEq, Inhabited

open ComponentValue

/-! ## Declarations -/

namespace WrittenDeclaration

/-- The value without a final `!important`, and whether there was one. -/
def splitImportance (value : List ComponentValue) : List ComponentValue × Bool :=
  match (trim value).reverse with
  | last :: before =>
    if last.isWord "important" then
      match before.dropWhile isBlank with
      | bang :: rest => if bang.isDelim '!' then (trim rest.reverse, true) else (trim value, false)
      | [] => (trim value, false)
    else (trim value, false)
  | [] => ([], false)

/-- A name, a colon and a value that may end in `!important`. -/
def ofValues? (vs : List ComponentValue) : Option WrittenDeclaration :=
  match vs.dropWhile isBlank with
  | .token (.ident n) :: rest =>
    match rest.dropWhile isBlank with
    | .token .colon :: value =>
      let v := splitImportance value
      some ⟨n, v.1, v.2⟩
    | _ => none
  | _ => none

end WrittenDeclaration

namespace Statement

def isQualified (s : Statement) : Bool := s.name.isNone

/-! ## Preludes -/

/-- What ends a prelude. -/
inductive Ending where
  | block (contents : List ComponentValue)
  | semicolon
  | nothing

def Ending.block? : Ending → Option (List ComponentValue)
  | .block vs => some vs
  | _ => none

/-- The values up to a block in braces, or up to a semicolon where that counts; what ended them; and
the values behind. -/
def preludeOf (semicolonEnds : Bool) :
    List ComponentValue → List ComponentValue × Ending × List ComponentValue
  | [] => ([], .nothing, [])
  | .block (.bracket .curly) contents :: vs => ([], .block contents, vs)
  | v :: vs =>
    if semicolonEnds && v.isSemicolon then ([], .semicolon, vs)
    else
      let r := preludeOf semicolonEnds vs
      (v :: r.1, r.2)

theorem preludeOf_length (b : Bool) (vs : List ComponentValue) :
    (preludeOf b vs).2.2.length ≤ vs.length := by
  fun_induction preludeOf b vs with
  | case1 => simp
  | case2 => simp
  | case3 => simp
  | case4 v vs _ _ _ ih => exact Nat.le_succ_of_le ih

theorem preludeOf_length_cons (b : Bool) (v : ComponentValue) (vs : List ComponentValue) :
    (preludeOf b (v :: vs)).2.2.length ≤ vs.length := by
  unfold preludeOf
  split
  · contradiction
  · rename_i h; cases h; exact Nat.le_refl _
  · rename_i h; cases h
    split
    · exact Nat.le_refl _
    · exact preludeOf_length b vs

/-- An at-rule behind its name. -/
def atRule (name : String) (vs : List ComponentValue) : Statement × List ComponentValue :=
  let r := preludeOf true vs
  (⟨some name, trim r.1, r.2.1.block?⟩, r.2.2)

/-- A qualified rule; none if it has no block. -/
def qualifiedRule (semicolonEnds : Bool) (vs : List ComponentValue) :
    Option Statement × List ComponentValue :=
  let r := preludeOf semicolonEnds vs
  (r.2.1.block?.map (fun b => ⟨none, trim r.1, some b⟩), r.2.2)

/-- The values up to a semicolon and those behind it. -/
def untilSemicolon : List ComponentValue → List ComponentValue × List ComponentValue
  | [] => ([], [])
  | v :: vs =>
    if v.isSemicolon then ([], vs)
    else
      let r := untilSemicolon vs
      (v :: r.1, r.2)

theorem untilSemicolon_length (vs : List ComponentValue) :
    (untilSemicolon vs).2.length ≤ vs.length := by
  fun_induction untilSemicolon vs with
  | case1 => simp
  | case2 => simp
  | case3 v vs _ _ ih => exact Nat.le_succ_of_le ih

/-! ## Splitting -/

/-- Values between statements: blanks; comment brackets in a list of rules; semicolons among
declarations. -/
def isSkipped (mode : ContentForm) : ComponentValue → Bool
  | .token .blank => true
  | .token .commentOpen => mode != .declarations
  | .token .commentClose => mode != .declarations
  | .token .semicolon => mode == .declarations
  | _ => false

/-- The item that starts with `v`, if there is one, and the values behind it. -/
def nextItem (mode : ContentForm) (v : ComponentValue) (vs : List ComponentValue) :
    Option Item × List ComponentValue :=
  if isSkipped mode v then (none, vs)
  else
    match v with
    | .token (.atKeyword name) =>
      let r := atRule name vs
      (some (.rule r.1), r.2)
    | v =>
      if mode == .declarations && v.ident?.isSome then
        let r := untilSemicolon vs
        ((WrittenDeclaration.ofValues? (v :: r.1)).map .declaration, r.2)
      else
        let r := qualifiedRule (mode != .stylesheet) (v :: vs)
        (r.1.map .rule, r.2)

theorem nextItem_length (mode : ContentForm) (v : ComponentValue) (vs : List ComponentValue) :
    (nextItem mode v vs).2.length ≤ vs.length := by
  simp only [nextItem]
  split
  · exact Nat.le_refl _
  · split
    · exact preludeOf_length true vs
    · split
      · exact untilSemicolon_length vs
      · exact preludeOf_length_cons _ _ vs

/-- The items of a run of values. -/
def split (mode : ContentForm) : List ComponentValue → List Item
  | [] => []
  | v :: vs =>
    let r := nextItem mode v vs
    r.1.toList ++ split mode r.2
termination_by vs => vs.length
decreasing_by exact Nat.lt_succ_of_le (nextItem_length mode v vs)

/-! ## One rule -/

/-- The statement when nothing but blanks follows it. -/
def alone (s : Statement) (rest : List ComponentValue) : Except Fault Statement :=
  if rest.all isBlank then .ok s else .error .extraRule

/-- The only rule of a run of values. -/
def single (vs : List ComponentValue) : Except Fault Statement :=
  match vs.dropWhile isBlank with
  | [] => .error .missingRule
  | .token (.atKeyword name) :: rest =>
    let r := atRule name rest
    alone r.1 r.2
  | vs =>
    match qualifiedRule false vs with
    | (some s, rest) => alone s rest
    | (none, _) => .error .invalidSyntax

end Statement

end StyleTree
