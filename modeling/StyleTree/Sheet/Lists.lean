/-
# `Sheet.Lists` — inserting and deleting rules

Rules are inserted into a list and deleted from it by their index: the
list at the top level, or the children of a rule.  What is inserted has to
be allowed in the list, and at the top level has to keep the order of
imports, namespaces and other rules.  Once there are other rules, the
namespaces are fixed.

A deleted rule leaves the sheet together with all below it.
-/
import StyleTree.Sheet.Action

namespace StyleTree

/-- A list of rules that can be edited. -/
inductive RuleList where
  | top
  | under (parent : RuleId)
  deriving DecidableEq, Inhabited

/-- A rule that has left its sheet, with all below it. -/
structure RemovedRule where
  arena : Arena Rule
  root : RuleId

namespace RemovedRule

def tree? (d : RemovedRule) : Option (Tree Rule) := (d.arena.tree? d.root).map (Tree.map (·.2))

def text (d : RemovedRule) : String := (d.tree?.map Rule.text).getD ""

end RemovedRule

namespace Sheet

/-! ## Lists -/

/-- Kinds of rules whose children are edited as a list. -/
def hasList (k : RuleKind) : Bool := k.hasChildren && k != .fontFeatureValues

/-- The rules of a list and the context they stand in. -/
def list (s : Sheet) : RuleList → Except Fault (List RuleId × RuleContext)
  | .top => .ok (s.rules, .stylesheet)
  | .under p =>
    match s.rule? p with
    | some r =>
      if hasList r.kind then .ok (s.arena.children p, r.blockContext) else .error .unknownRule
    | none => .error .unknownRule

/-- Kinds that may stand before a namespace rule, and that kind itself. -/
def isPrologue : RuleKind → Bool
  | .importRule | .namespaceRule | .layerStatement => true
  | _ => false

/-- Whether the namespaces are fixed. -/
def hasBody (s : Sheet) : Bool := s.kinds.any (!isPrologue ·)

/-! ## Inserting -/

/-- A rule of this kind may be inserted at the top level. -/
def topLevelAdmits (s : Sheet) (k : RuleKind) (index : Nat) : Except Fault Unit :=
  if !Zone.accepts (s.kinds.insertIdx index k) then .error .invalidPosition
  else if k = .namespaceRule && s.hasBody then .error .namespacesFixed
  else .ok ()

/-- What is wrong with a statement that is no rule. -/
def faultOf : Rejection → Fault
  | .notAllowed | .invalidPosition => .invalidPosition
  | .ignored | .unknownRule | .invalidBlock | .invalidPrelude => .invalidSyntax

/-- The head of a statement as a rule of the sheet. -/
def headOf (s : Sheet) (t : Statement) (context : RuleContext) : Except Fault RuleHead :=
  match t.classify context with
  | .error e => .error (faultOf e)
  | .ok k =>
    match RuleHead.ofPrelude? k t context s.namespaces with
    | some head => .ok head
    | none => .error .invalidSyntax

/-- A rule of this kind may be inserted into a list with this context. -/
def admits (s : Sheet) (l : RuleList) (context : RuleContext) (k : RuleKind) (index : Nat) :
    Except Fault Unit :=
  if k = .importRule && s.settings.constructed then .error .importForbidden
  else if !context.allows k then .error .invalidPosition
  else if l = .top then s.topLevelAdmits k index
  else .ok ()

/-- The sheet with a planted rule in a list, and the place it took. -/
def place (s : Sheet) (l : RuleList) (index : Nat) (id : RuleId) : Nat × Sheet :=
  match l with
  | .top => (index, { s with rules := s.rules.insertIdx index id })
  | .under p =>
    let i := (s.arena.canonicalIndex? p id).getD index
    (i, { s with arena := s.arena.attach p i id })

/-- The sheet with a rule that is not in a list yet, and the id of that rule. -/
def plant (s : Sheet) (context : RuleContext) (head : RuleHead) (t : Statement) : RuleId × Sheet :=
  let (arena, id) := s.arena.plant
    (Draft.ofStatement s.settings.options s.namespaces context head t)
  (id, { s with arena, namespaces := head.declare s.namespaces })

/-- Inserts the rule of a text into a list and gives the place it took. -/
def insert (l : RuleList) (text : String) (index : Nat) : Action Nat := do
  .look access
  .look unlocked
  let (ids, context) ← .look (·.list l)
  .check (index ≤ ids.length) (.invalidIndex index ids.length)
  let t ← .look fun _ => Statement.single (ComponentValue.ofText text)
  let head ← .look (·.headOf t context)
  .look (·.admits l context head.kind index)
  let id ← .write (·.plant context head t)
  .write (·.place l index id)

/-! ## Deleting -/

/-- Takes a rule and all below it out of the arena; there may be no such rule. -/
def detach (s : Sheet) (id : RuleId) : Option RemovedRule × Sheet :=
  let (root, p) := s.arena.moveSubtree id .empty
  (root.map (⟨p.target, ·⟩), { s with arena := p.source })

/-- Takes a rule and all below it out of the arena. -/
def takeOut (id : RuleId) : Action RemovedRule := do
  let d ← .write (·.detach id)
  .look fun _ => d.elim (.error .unknownRule) .ok

/-- The namespaces that the rules at the top level declare. -/
def declaredNamespaces (s : Sheet) : Namespaces :=
  (s.rules.filterMap s.rule?).foldl (fun ns r => r.head.declare ns) .empty

/-- The sheet with the list at the top level less one rule. -/
def unlist (s : Sheet) (l : RuleList) (index : Nat) : Sheet :=
  match l with
  | .top => { s with rules := s.rules.eraseIdx index }
  | .under _ => s

/-- The sheet with the namespaces that its rules declare, if a rule of kind `k` has left it. -/
def settleNamespaces (s : Sheet) (k : RuleKind) : Sheet :=
  if k = .namespaceRule then { s with namespaces := s.declaredNamespaces } else s

/-- The rule at an index of a list and its kind, if it may be deleted. -/
def deletable (s : Sheet) (l : RuleList) (index : Nat) : Except Fault (RuleId × RuleKind) := do
  let (ids, _) ← s.list l
  match ids[index]? with
  | none => .error (.invalidIndex index ids.length)
  | some id =>
    let r ← s.anyRule id
    if r.kind = .namespaceRule && s.hasBody then .error .namespacesFixed else .ok (id, r.kind)

/-- Deletes a rule from a list.  The rule leaves its list before it is known that the arena gives it
up. -/
def delete (l : RuleList) (index : Nat) : Action RemovedRule := do
  .look access
  .look unlocked
  let (id, kind) ← .look (·.deletable l index)
  .change (·.unlist l index)
  let d ← takeOut id
  .change (·.settleNamespaces kind)
  pure d

end Sheet

end StyleTree
