/-
# `Namespaces` — the namespace table of a sheet

Prefixes are kept in the order of their first declaration and compared
letter for letter; declaring one again changes the URI it stands for.  The
default namespace stands apart from the prefixes.
-/
namespace StyleTree

/-- The namespaces declared in a sheet. -/
structure Namespaces where
  default? : Option String
  entries : List (String × String)
  deriving DecidableEq, Inhabited

namespace Namespaces

def empty : Namespaces := ⟨none, []⟩

/-- The entries with `name` standing for `uri`. -/
def assign (name uri : String) : List (String × String) → List (String × String)
  | [] => [(name, uri)]
  | e :: es => if e.1 = name then (name, uri) :: es else e :: assign name uri es

/-- Declares a prefix, or the default namespace. -/
def register (t : Namespaces) (name : Option String) (uri : String) : Namespaces :=
  match name with
  | none => { t with default? := some uri }
  | some n => { t with entries := assign n uri t.entries }

/-- The URI that a prefix stands for. -/
def resolve? (t : Namespaces) (name : String) : Option String :=
  (t.entries.find? (·.1 = name)).map (·.2)

def isDeclared (t : Namespaces) (name : String) : Bool := (t.resolve? name).isSome

/-- How many namespaces are declared, the default one included. -/
def size (t : Namespaces) : Nat := t.entries.length + (if t.default?.isSome then 1 else 0)

/-- The table of a list of declarations, in order. -/
def ofList (ds : List (Option String × String)) : Namespaces :=
  ds.foldl (fun t d => t.register d.1 d.2) empty

end Namespaces

end StyleTree
