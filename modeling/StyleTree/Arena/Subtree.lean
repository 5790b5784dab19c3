/-
# `Arena.Subtree` — a node together with all below it

A subtree is read as a tree, removed, or moved to another arena.  The depth
of a subtree is at most the number of nodes, which bounds the recursion
along links.
-/
import StyleTree.Arena.Basic

namespace StyleTree.Arena

variable {α : Type}

/-! ## Reading -/

/-- The tree below a node down to a depth. -/
def treeFrom (a : Arena α) : (depth : Nat) → RuleId → Option (Tree (RuleId × α))
  | 0, _ => none
  | depth + 1, id =>
    (a.get? id).map fun n => .node (id, n.value) (n.children.filterMap (treeFrom a depth))

/-- A node and all below it, with their ids. -/
def tree? (a : Arena α) (id : RuleId) : Option (Tree (RuleId × α)) := a.treeFrom a.size id

/-- The nodes below a node down to a depth, each behind those below it. -/
def below (a : Arena α) : (depth : Nat) → RuleId → List RuleId
  | 0, _ => []
  | depth + 1, id => (a.children id).flatMap (fun c => below a depth c ++ [c])

/-- The nodes below a node, each behind those below it. -/
def descendants (a : Arena α) (id : RuleId) : List RuleId := a.below a.size id

/-! ## Removing and moving -/

/-- The arena without a node and all below it. -/
def removeSubtree (a : Arena α) (id : RuleId) : Arena α :=
  ((a.descendants id).foldl erase (a.unlink id)).erase id

/-- Two arenas between which nodes are moved. -/
structure Pair (α : Type) where
  source : Arena α
  target : Arena α

/-- Moves a node and all below it, down to a depth, and gives its id in the target. -/
def transfer : (depth : Nat) → RuleId → Pair α → Option RuleId × Pair α
  | 0, _, p => (none, p)
  | depth + 1, id, p =>
    match p.source.get? id with
    | none => (none, p)
    | some n =>
      let (target, new) := p.target.insert n.value
      let (moved, p) := n.children.foldl
        (fun (moved, p) c =>
          let (m, p) := transfer depth c p
          (moved ++ m.toList, p))
        (([] : List RuleId), (⟨p.source.erase id, target⟩ : Pair α))
      let linked := moved.foldl (fun t c => t.modify c ({ · with parent := some new })) p.target
      (some new, { p with target := linked.modify new ({ · with children := moved }) })

/-- Moves a node and all below it to another arena, where it has no parent. -/
def moveSubtree (a : Arena α) (id : RuleId) (target : Arena α) : Option RuleId × Pair α :=
  transfer a.size id ⟨a.unlink id, target⟩

end StyleTree.Arena
