/-
# `Arena.Basic` — nodes under ids that are never used twice

An arena keeps nodes under ids.  An id is a slot with a version: a new slot
has version 1, and a slot that was given up is used again, the latest one
first, under a version two higher.  So the id of an erased node never
comes to mean another node.

A node has a value, a parent and children.  The links are not checked
here; `attach` makes both ends of one.
-/
import StyleTree.Tree

namespace StyleTree

/-- The name of a node. -/
structure RuleId where
  slot : Nat
  version : Nat
  deriving DecidableEq, Inhabited

namespace RuleId

/-- The id under which the slot of an erased id is used again. -/
def next (id : RuleId) : RuleId := ⟨id.slot, id.version + 2⟩

/-- Version and slot in one number. -/
def raw (id : RuleId) : Nat := id.version * Nat.pow 2 32 + id.slot

end RuleId

/-- A value with its links. -/
structure Node (α : Type) where
  value : α
  parent : Option RuleId
  children : List RuleId
  deriving Inhabited

structure Arena (α : Type) where
  nodes : List (RuleId × Node α)
  /-- The ids that were erased and whose slots are not used again yet, the latest first. -/
  erased : List RuleId
  /-- How many slots there are. -/
  slots : Nat
  deriving Inhabited

namespace Arena

variable {α : Type}

def empty : Arena α := ⟨[], [], 0⟩

def size (a : Arena α) : Nat := a.nodes.length

def get? (a : Arena α) (id : RuleId) : Option (Node α) := (a.nodes.find? (·.1 = id)).map (·.2)

def contains (a : Arena α) (id : RuleId) : Bool := (a.get? id).isSome

def value? (a : Arena α) (id : RuleId) : Option α := (a.get? id).map (·.value)

def parent? (a : Arena α) (id : RuleId) : Option RuleId := (a.get? id).bind (·.parent)

/-- The children of a node; none if there is no such node. -/
def children (a : Arena α) (id : RuleId) : List RuleId := ((a.get? id).map (·.children)).getD []

/-! ## Adding and erasing nodes -/

/-- The id of the node that is added next. -/
def fresh (a : Arena α) : RuleId :=
  match a.erased with
  | id :: _ => id.next
  | [] => ⟨a.slots + 1, 1⟩

/-- The arena with a node that has no links yet, and the id of that node. -/
def insert (a : Arena α) (value : α) : Arena α × RuleId :=
  let id := a.fresh
  (⟨(id, ⟨value, none, []⟩) :: a.nodes, a.erased.tail,
    if a.erased.isEmpty then a.slots + 1 else a.slots⟩, id)

/-- The arena with `f` applied to a node. -/
def modify (a : Arena α) (id : RuleId) (f : Node α → Node α) : Arena α :=
  { a with nodes := a.nodes.map (fun e => if e.1 = id then (e.1, f e.2) else e) }

/-- The arena with another value in a node. -/
def setValue (a : Arena α) (id : RuleId) (value : α) : Arena α :=
  a.modify id (fun n => { n with value })

/-- The arena without a node; links to it stay. -/
def erase (a : Arena α) (id : RuleId) : Arena α :=
  if a.contains id then
    { a with nodes := a.nodes.filter (·.1 ≠ id), erased := id :: a.erased }
  else a

/-! ## Links -/

/-- Links a child to a parent, at a place among its children or behind the last. -/
def attach (a : Arena α) (parent : RuleId) (index : Nat) (child : RuleId) : Arena α :=
  (a.modify child (fun n => { n with parent := some parent })).modify parent
    (fun n => { n with children := n.children.insertIdx (min index n.children.length) child })

/-- Unlinks a node from its parent. -/
def unlink (a : Arena α) (id : RuleId) : Arena α :=
  match a.parent? id with
  | none => a
  | some p =>
    (a.modify p (fun n => { n with children := n.children.filter (· ≠ id) })).modify id
      (fun n => { n with parent := none })

end Arena

end StyleTree
