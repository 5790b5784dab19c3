/-
# `Sheet.Contents` — changing what a rule says

Selectors, the names of counter styles, declarations and feature values
are changed in place.  A selector that cannot be read is ignored; any
other text that cannot be used is an error.
-/
import StyleTree.Sheet.Action

namespace StyleTree.Sheet

open ComponentValue

/-! ## Selectors and names -/

/-- What the selectors of a rule become; none if the text cannot be read. -/
def selectorsOf (s : Sheet) (r : Rule) (text : String) : Except Fault (Option RuleHead) :=
  match r.kind with
  | .style =>
    .ok ((Selector.listOfText s.namespaces r.context.selectorMode text).map .style)
  | .page => .ok ((PageSelector.listOfValues? (ofText text)).map .page)
  | _ => .error .unknownRule

/-- Gives a style rule or a page other selectors. -/
def setSelectors (id : RuleId) (text : String) : Action Unit := do
  .look access
  let r ← .look (·.anyRule id)
  match ← .look (·.selectorsOf r text) with
  | some head => .change (·.setHead id r head)
  | none => pure ()

/-- The name of a counter style. -/
def counterStyleName (name : String) : Except Fault String :=
  ((Prelude.onlyIdent? (trim (ofText name))).filter Name.isCounterStyle).elim
    (.error (.invalidName name)) .ok

/-- Gives a counter style another name. -/
def renameCounterStyle (id : RuleId) (name : String) : Action Unit := do
  .look access
  let r ← .look (·.ruleOfKind id .counterStyle)
  let n ← .look fun _ => counterStyleName name
  .change (·.setHead id r (.counterStyle n))

/-! ## Declarations -/

/-- A rule of the sheet with its declarations. -/
def blockOf (s : Sheet) (id : RuleId) : Except Fault (Rule × DeclarationBlock) :=
  match s.rule? id with
  | some r =>
    match r.declarations with
    | some b => .ok (r, b)
    | none => .error .unknownRule
  | none => .error .unknownRule

/-- The sheet with other declarations in a rule. -/
def setBlock (s : Sheet) (id : RuleId) (r : Rule) (b : DeclarationBlock) : Sheet :=
  { s with arena := s.arena.setValue id { r with declarations := some b } }

/-- Removes a declaration and gives its value. -/
def removeProperty (id : RuleId) (name : String) : Action (Option String) := do
  .look access
  let (r, b) ← .look (·.blockOf id)
  .change (·.setBlock id r (b.erase name))
  pure (b.value? name)

/-- Declares a value; a blank one removes the declaration. -/
def setProperty (id : RuleId) (name value : String) (important : Bool) : Action Unit := do
  .look access
  if (ofText value).all isBlank then
    let _ ← removeProperty id name
    pure ()
  else
    let (r, b) ← .look (·.blockOf id)
    let (n, v) ← .look (·.settings.options.grammar.read b.context name value important)
    .change (·.setBlock id r (b.insert n v))

/-! ## Feature values -/

/-- The sheet with another map in a block of feature values. -/
def setFeatures (s : Sheet) (id : RuleId) (m : FeatureValues) : Sheet :=
  { s with arena := s.arena.setFeatures id m }

/-- The sheet with a new block of feature values under a rule. -/
def addFeatures (s : Sheet) (id : RuleId) (m : FeatureValues) : Sheet :=
  let (arena, b) := s.arena.insert ⟨.featureBlock m, none, .fontFeatureValues⟩
  { s with arena := arena.attachInOrder id b }

/-- The block of one kind of feature values under a rule, with its map. -/
def featuresUnder? (s : Sheet) (id : RuleId) (f : FeatureType) : Option (RuleId × FeatureValues) :=
  (s.arena.featureBlock? id f).map fun b => (b, (s.arena.features? b).getD (.empty f))

/-- Sets values under a name in a block of feature values, which is made if need be. -/
def setFeature (id : RuleId) (f : FeatureType) (name : String) (values : List Nat) :
    Action Unit := do
  .look access
  let _ ← .look (·.ruleOfKind id .fontFeatureValues)
  match ← .look (fun s => .ok (s.featuresUnder? id f)) with
  | some (b, m) =>
    let m ← .look fun _ => m.set name values
    .change (·.setFeatures b m)
  | none =>
    let m ← .look fun _ => (FeatureValues.empty f).set name values
    .change (·.addFeatures id m)

/-- Removes the values under a name and says whether there were any. -/
def removeFeature (id : RuleId) (f : FeatureType) (name : String) : Action Bool := do
  .look access
  let _ ← .look (·.ruleOfKind id .fontFeatureValues)
  match ← .look (fun s => .ok (s.featuresUnder? id f)) with
  | some (b, m) =>
    .change (·.setFeatures b (m.erase name))
    pure (m.get? name).isSome
  | none => pure false

end StyleTree.Sheet
