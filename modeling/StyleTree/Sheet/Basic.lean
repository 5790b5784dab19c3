/-
# `Sheet.Basic` — style sheets

A sheet holds its rules in an arena, with a list of those at the top
level, the namespaces they declare, and what the host says about the
sheet.  `Sheet.read` makes one from text.
-/
import StyleTree.Rule.Planting
import StyleTree.Rule.Text

namespace StyleTree

/-- What the host says about a sheet. -/
structure HostSettings where
  /-- Whether scripts may see and change the rules. -/
  originClean : Bool
  /-- Whether the sheet was made by a script; such a sheet imports nothing. -/
  constructed : Bool
  disabled : Bool
  location : Option String
  media : Option String
  title : Option String
  options : ReadOptions

structure Sheet where
  arena : Arena Rule
  /-- The rules at the top level. -/
  rules : List RuleId
  namespaces : Namespaces
  settings : HostSettings
  media : MediaList
  /-- Whether a replacement of the rules is under way. -/
  pending : Bool

namespace Sheet

/-- A sheet without rules. -/
def empty (c : HostSettings) : Sheet :=
  ⟨.empty, [], .empty, c, (c.media.map MediaList.ofText).getD .empty, false⟩

/-- The sheet with the rules of a text and the namespaces they declare, which take the place of its
own; the nodes of its rules stay in the arena. -/
def load (s : Sheet) (text : String) : Sheet :=
  let (drafts, namespaces) := Draft.ofText s.settings.options (!s.settings.constructed) text
  let (arena, rules) := s.arena.plantAll drafts
  { s with arena, rules, namespaces }

/-- The sheet of a text. -/
def read (c : HostSettings) (text : String) : Sheet := (empty c).load text

/-- The sheet switched off or on. -/
def setDisabled (s : Sheet) (disabled : Bool) : Sheet :=
  { s with settings := { s.settings with disabled } }

/-! ## Looking at a sheet -/

def rule? (s : Sheet) (id : RuleId) : Option Rule := s.arena.value? id

/-- A rule and all below it, without ids. -/
def tree? (s : Sheet) (id : RuleId) : Option (Tree Rule) :=
  (s.arena.tree? id).map (Tree.map (·.2))

/-- The rules as trees. -/
def forest (s : Sheet) : List (Tree (RuleId × Rule)) := s.rules.filterMap s.arena.tree?

/-- The sheet as text, one rule a line. -/
def text (s : Sheet) : String := Rule.listText (Tree.mapAll (·.2) s.forest)

/-- The kinds of the rules at the top level. -/
def kinds (s : Sheet) : List RuleKind := (s.rules.filterMap s.rule?).map Rule.kind

/-- The feature values of a kind that a rule has, in a block of its own or in its children. -/
def features? (s : Sheet) (id : RuleId) (f : FeatureType) : Option FeatureValues :=
  match (s.rule? id).map Rule.kind with
  | some .fontFeatureValues => (s.arena.featureBlock? id f).bind s.arena.features?
  | _ => (s.arena.features? id).filter (·.feature = f)

/-! ## Conditions of an edit -/

/-- The rules may be seen and changed. -/
def access (s : Sheet) : Except Fault Unit :=
  if s.settings.originClean then .ok () else .error .accessDenied

/-- No replacement is under way. -/
def unlocked (s : Sheet) : Except Fault Unit := if s.pending then .error .locked else .ok ()

/-- A rule of the sheet, whatever its kind. -/
def anyRule (s : Sheet) (id : RuleId) : Except Fault Rule :=
  match s.rule? id with
  | some r => .ok r
  | none => .error .unknownRule

/-- A rule of the sheet, which has to be of a kind. -/
def ruleOfKind (s : Sheet) (id : RuleId) (k : RuleKind) : Except Fault Rule :=
  match s.rule? id with
  | some r => if r.kind = k then .ok r else .error .unknownRule
  | none => .error .unknownRule

/-- The sheet with another head in a rule. -/
def setHead (s : Sheet) (id : RuleId) (r : Rule) (head : RuleHead) : Sheet :=
  { s with arena := s.arena.setValue id { r with head } }

end Sheet

end StyleTree
