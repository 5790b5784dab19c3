/-
# `Rule.Outline` — a drawing of a tree of rules

An outline has one line per rule: lines that lead from the parent, a label,
and on request the id and the kind.  Declarations may follow on lines of
their own.
-/
import StyleTree.Rule.Basic
import StyleTree.Arena.Basic

namespace StyleTree

/-- The characters an outline is drawn with. -/
inductive OutlineStyle where
  | ascii
  | unicode
  | compact
  deriving DecidableEq, Inhabited

namespace OutlineStyle

/-- Beside a subtree that goes on below. -/
def bar : OutlineStyle → String
  | ascii => "|"
  | unicode => "│"
  | compact => ""

/-- In front of a child. -/
def branch : OutlineStyle → String
  | ascii => "+-- "
  | unicode => "├── "
  | compact => "- "

/-- In front of the last child. -/
def corner : OutlineStyle → String
  | ascii => "`-- "
  | unicode => "└── "
  | compact => "- "

end OutlineStyle

/-- What an outline shows. -/
structure Outline where
  style : OutlineStyle
  ids : Bool
  kinds : Bool
  declarations : Bool
  /-- Rules deeper than this are left out. -/
  depth? : Option Nat
  indent : Nat
  deriving Inhabited

namespace Outline

/-- Ids and kinds. -/
def standard : Outline := ⟨.unicode, true, true, false, none, 2⟩

/-- Ids, kinds and declarations. -/
def detailed : Outline := { standard with declarations := true }

/-- Labels only. -/
def minimal : Outline := { standard with ids := false, kinds := false }

/-- The name of a kind in front of a name. -/
def kindAnd (k : RuleKind) (name : String) : String := k.name ++ " " ++ name

/-- What a rule is called in an outline. -/
def label (head : RuleHead) : String :=
  match head with
  | .style l => Selector.listText l
  | .importRule i => "@import " ++ i.href
  | .namespaceRule (some n) u => "@namespace " ++ n ++ " " ++ u
  | .namespaceRule none u => "@namespace " ++ u
  | .layerStatement ns => "@layer " ++ Text.joined ", " (ns.map LayerName.text)
  | .layerBlock (some n) => "@layer " ++ n.text
  | .page (s :: l) => "@page " ++ PageSelector.listText (s :: l)
  | .margin i => "@" ++ (RuleHead.margin i).marginName
  | .keyframes n => "@keyframes " ++ n
  | .keyframe k => k.text
  | .featureBlock m => "@" ++ m.feature.name
  | .fontPaletteValues n => kindAnd head.kind n
  | .counterStyle n => kindAnd head.kind n
  | .property n => kindAnd head.kind n
  | .positionTry n => kindAnd head.kind n
  | .colorProfile n => kindAnd head.kind n
  | _ =>
    match head.condition? with
    | some c => kindAnd head.kind c
    | none => head.kind.name

def number (n : Nat) : String := String.ofList (Number.numeral n)

/-- An id as an outline shows it. -/
def idText (id : RuleId) : String :=
  "RuleId(" ++ number id.slot ++ "v" ++ number id.version ++ ")"

def repeated (n : Nat) (s : String) : String := Text.joined "" (List.replicate n s)

/-- The bars of `levels` levels. -/
def bars (o : Outline) (levels : Nat) : String :=
  repeated levels (o.style.bar ++ repeated o.indent " ")

/-- The lines that lead to a rule; none at the top. -/
def lead (o : Outline) (depth : Nat) (last : Bool) : String :=
  match depth with
  | 0 => ""
  | levels + 1 => o.bars levels ++ (if last then o.style.corner else o.style.branch)

/-- The line of a rule. -/
def line (o : Outline) (depth : Nat) (last : Bool) (id : RuleId) (r : Rule) : String :=
  o.lead depth last ++ label r.head ++ (if o.ids then " [" ++ idText id ++ "]" else "") ++
    (if o.kinds then " (" ++ r.kind.name ++ ")" else "") ++ "\n"

/-- The lines of a rule's declarations. -/
def declarationLines (o : Outline) (depth : Nat) (r : Rule) : String :=
  match o.declarations, r.declarations with
  | true, some b =>
    Text.joined "" (b.entries.map fun e => o.bars depth ++ "  ." ++ e.1 ++ ": " ++ e.2.text ++ "\n")
  | _, _ => ""

/-- Whether rules at a depth are shown. -/
def shows (o : Outline) (depth : Nat) : Bool := o.depth?.all (depth ≤ ·)

mutual

/-- The lines of a rule and of all below it. -/
def lines (o : Outline) (depth : Nat) (last : Bool) : Tree (RuleId × Rule) → String
  | .node (id, r) ts =>
    if o.shows depth then
      o.line depth last id r ++ o.declarationLines depth r ++ linesOf o (depth + 1) ts
    else ""

def linesOf (o : Outline) (depth : Nat) : List (Tree (RuleId × Rule)) → String
  | [] => ""
  | t :: ts => lines o depth ts.isEmpty t ++ linesOf o depth ts

end

/-- The outline of one rule. -/
def ofTree (o : Outline) (t : Tree (RuleId × Rule)) : String := o.lines 0 true t

/-- The outline of rules that are `total` together. -/
def ofForest (o : Outline) (total : Nat) (ts : List (Tree (RuleId × Rule))) : String :=
  "Rule Tree (" ++ number total ++ " total rules):\n" ++
    (if ts.isEmpty then "  (empty)\n" else Text.joined "" (ts.map o.ofTree))

end Outline

end StyleTree
