/-
# `Tree` — finitely branching trees

A tree has a value at its root and a list of trees below it.  Rules are
read from an arena as trees, with or without their ids.
-/
namespace StyleTree

inductive Tree (α : Type) where
  | node (value : α) (children : List (Tree α))
  deriving Inhabited

namespace Tree

variable {α β : Type}

def value : Tree α → α
  | node a _ => a

def children : Tree α → List (Tree α)
  | node _ ts => ts

mutual

/-- The same tree with `f` applied to each value. -/
def map (f : α → β) : Tree α → Tree β
  | node a ts => node (f a) (mapAll f ts)

def mapAll (f : α → β) : List (Tree α) → List (Tree β)
  | [] => []
  | t :: ts => map f t :: mapAll f ts

end

mutual

/-- The values, each before those below it. -/
def values : Tree α → List α
  | node a ts => a :: valuesOf ts

def valuesOf : List (Tree α) → List α
  | [] => []
  | t :: ts => values t ++ valuesOf ts

end

end Tree

end StyleTree
