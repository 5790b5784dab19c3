/-
# `Rule.Draft` — rules as they are read

A draft is a rule with the drafts of its children in the order in which
they were read; nothing in it depends on where the rule will stand in a
sheet.  `Draft.ofStatement` reads a statement whose prelude is known, and
the statements in its block, from the outside inwards.  What is no rule
in its context, and every declaration that is not valid, is left out.

Where declarations go depends on the context of the block.  In a scope
they go to a style rule of their own, which selects `:scope` and stands in
front of all others.  In a grouping rule under a style rule they are kept
only on request.
-/
import StyleTree.Rule.Basic
import StyleTree.Rule.AtRule
import StyleTree.Rule.Prelude
import StyleTree.Rule.Order
import StyleTree.Statement.Nesting

namespace StyleTree

/-- What reading depends on besides the text. -/
structure ReadOptions where
  grammar : ValueGrammar
  /-- Whether grouping rules under style rules keep their declarations. -/
  keepsGroupDeclarations : Bool

/-- The namespaces with the one that a rule declares. -/
def RuleHead.declare (head : RuleHead) (ns : Namespaces) : Namespaces :=
  match head with
  | .namespaceRule n u => ns.register n u
  | _ => ns

/-- The head of a statement as a rule of a context, or why it is none. -/
def Statement.read (s : Statement) (context : RuleContext) (ns : Namespaces) :
    Except Rejection RuleHead :=
  match s.classify context with
  | .error e => .error e
  | .ok k =>
    if context.allows k then
      match RuleHead.ofPrelude? k s context ns with
      | some head => .ok head
      | none => .error .invalidPrelude
    else .error .notAllowed

/-! ## Declarations of a block -/

namespace DeclarationBlock

/-- The block with those of the declarations that are valid. -/
def declareAll (g : ValueGrammar) (b : DeclarationBlock) (ds : List WrittenDeclaration) :
    DeclarationBlock :=
  ds.foldl (fun b d => (b.declare? g d).getD b) b

end DeclarationBlock

namespace FeatureValues

/-- The map with those of the declarations that are valid. -/
def declareAll (m : FeatureValues) (ds : List WrittenDeclaration) : FeatureValues :=
  ds.foldl (fun m d => (m.declare? d).getD m) m

end FeatureValues

namespace Rule

/-- A rule with the declarations of its block. -/
def withDeclarations (o : ReadOptions) (r : Rule) (ds : List WrittenDeclaration) : Rule :=
  match r.blockContext, r.head with
  | .scope, _ => r
  | .nestedGroup, _ =>
    if o.keepsGroupDeclarations && !ds.isEmpty then
      let b := r.declarations.getD (.empty .style)
      { r with declarations := some (b.declareAll o.grammar ds) }
    else r
  | _, .featureBlock m => { r with head := .featureBlock (m.declareAll ds) }
  | _, _ => { r with declarations := r.declarations.map (·.declareAll o.grammar ds) }

/-- The rule that holds the declarations of a scope. -/
def ofScope (o : ReadOptions) (ds : List WrittenDeclaration) : Rule :=
  ⟨.style [Selector.scope], some ((DeclarationBlock.empty .style).declareAll o.grammar ds), .scope⟩

end Rule

/-- A rule with its children in the order in which they were read. -/
inductive Draft where
  /-- `first` puts the rule in front of its siblings. -/
  | rule (first : Bool) (value : Rule) (children : List Draft)
  deriving Inhabited

/-- The declaration that an item is. -/
def Item.declaration? : Item → Option WrittenDeclaration
  | .declaration d => some d
  | .rule _ => none

namespace Draft

def value : Draft → Rule
  | rule _ r _ => r

/-- A part of a block: a declaration, or a rule that was read. -/
inductive Part where
  | declaration
  | child (d : Draft)

/-- The children of a block in the order in which they arise; the rule for declarations arises with
the first of them. -/
def childrenOf (forDeclarations : Option Draft) : List Part → List Draft
  | [] => []
  | .declaration :: ps => forDeclarations.toList ++ childrenOf none ps
  | .child d :: ps => d :: childrenOf forDeclarations ps

/-- The rule for the declarations of a block that is a scope. -/
def scopeDraft (o : ReadOptions) (context : RuleContext) (ds : List WrittenDeclaration) :
    Option Draft :=
  if context = .scope then some (rule true (Rule.ofScope o ds) []) else none

/-- The draft of a statement whose head is known, and of all rules in its block. -/
def ofStatement (o : ReadOptions) (ns : Namespaces) (context : RuleContext) (head : RuleHead)
    (s : Statement) : Draft :=
  let r := Rule.fresh head context
  match hs : s.block with
  | none => rule false r []
  | some vs =>
    let items := Statement.split r.blockContext.contentForm vs
    let ds := items.filterMap Item.declaration?
    let parts := items.attach.filterMap fun ⟨item, hi⟩ =>
      match item, hi with
      | .declaration _, _ => some Part.declaration
      | .rule t, hi =>
        have := Statement.sizeOf_block_lt hs hi
        match t.read r.blockContext ns with
        | .ok d => some (.child (ofStatement o ns r.blockContext d t))
        | .error _ => none
    rule false (r.withDeclarations o ds) (childrenOf (scopeDraft o r.blockContext ds) parts)
termination_by sizeOf s.block

end Draft

/-! ## The top level -/

/-- The head of a statement at the top level behind rules that end in a zone, and the zone behind
it. -/
def Statement.readTop? (s : Statement) (imports : Bool) (zone : Zone) (ns : Namespaces) :
    Option (RuleHead × Zone) :=
  match s.read .stylesheet ns with
  | .error _ => none
  | .ok head =>
    if head.kind = .importRule && !imports then none
    else (zone.advance head.kind).map (fun z => (head, z))

namespace Draft

/-- The rules of a sheet, and the namespaces that they declare. -/
def sheet (o : ReadOptions) (imports : Bool) : Zone → Namespaces → List Item →
    List Draft × Namespaces
  | _, ns, [] => ([], ns)
  | zone, ns, .declaration _ :: items => sheet o imports zone ns items
  | zone, ns, .rule s :: items =>
    match s.readTop? imports zone ns with
    | none => sheet o imports zone ns items
    | some (head, zone) =>
      let r := sheet o imports zone (head.declare ns) items
      (ofStatement o ns .stylesheet head s :: r.1, r.2)

/-- The rules of the text of a sheet, and the namespaces that they declare. -/
def ofText (o : ReadOptions) (imports : Bool) (text : String) : List Draft × Namespaces :=
  sheet o imports .start .empty (Statement.split .stylesheet (ComponentValue.ofText text))

end Draft

end StyleTree
