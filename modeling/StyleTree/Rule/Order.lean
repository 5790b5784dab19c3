/-
# `Rule.Order` — the order of rules at the top level

Imports come first, then namespaces, then everything else.  Layer
statements may stand among the imports without ending them.
`Zone.advance` reads a list of kinds from the front.
-/
import StyleTree.Rule.Kind

namespace StyleTree

/-- How far the top level has come. -/
inductive Zone where
  /-- Nothing but layer statements so far. -/
  | start
  | imports
  | namespaces
  | body
  deriving DecidableEq, Inhabited

namespace Zone

/-- Whether imports may still follow. -/
def beforeNamespaces : Zone → Bool
  | start | imports => true
  | _ => false

/-- Whether namespaces may still follow. -/
def beforeBody : Zone → Bool
  | body => false
  | _ => true

/-- The zone behind a rule of this kind; none if it comes too late. -/
def advance (s : Zone) (k : RuleKind) : Option Zone :=
  match k with
  | .importRule => if s.beforeNamespaces then some imports else none
  | .namespaceRule => if s.beforeBody then some namespaces else none
  | .layerStatement => if s.beforeNamespaces then some s else some body
  | _ => some body

/-- The zone behind each rule of a list, none from the first refused rule on. -/
def trace : Option Zone → List RuleKind → List (Option Zone)
  | _, [] => []
  | s, k :: ks =>
    let next := s.bind (·.advance k)
    next :: trace next ks

/-- Whether a list of kinds keeps the order. -/
def accepts (ks : List RuleKind) : Bool :=
  (ks.foldl (fun s k => s.bind (·.advance k)) (some start)).isSome

end Zone

end StyleTree
