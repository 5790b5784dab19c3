/-
# `Rule.Basic` — a rule without its children

A rule has its head, a set of declarations if its kind owns one, and the
context it stands in.
-/
import StyleTree.Rule.Head
import StyleTree.Declaration.Block

namespace StyleTree

structure Rule where
  head : RuleHead
  declarations : Option DeclarationBlock
  context : RuleContext
  deriving Inhabited

namespace Rule

def kind (r : Rule) : RuleKind := r.head.kind

/-- The context of the rule's own block. -/
def blockContext (r : Rule) : RuleContext := r.kind.blockContext r.context

/-- The declarations that a rule of this kind has before any is read. -/
def declarationsOf (k : RuleKind) : Option DeclarationBlock :=
  if k.hasDeclarations then (DeclarationContext.ofKind? k).map DeclarationBlock.empty else none

/-- A rule with an empty block. -/
def fresh (head : RuleHead) (context : RuleContext) : Rule :=
  ⟨head, declarationsOf head.kind, context⟩

end Rule

end StyleTree
