/-
# `Declaration.Block` — the declarations of a rule

A block holds one value per name.  Its order is canonical: first the names
of the context's table in their order there, then all others by code
point.  So the order in which declarations were made leaves no trace.
-/
import StyleTree.Declaration.Grammar
import StyleTree.SortedMap

namespace StyleTree

/-- Whether one name comes before another in a context. -/
def DeclarationContext.precedes (c : DeclarationContext) (a b : String) : Bool :=
  match Table.rank? c a, Table.rank? c b with
  | some i, some j => i < j
  | some _, none => true
  | none, some _ => false
  | none, none => a < b

/-- Declarations in canonical order. -/
structure DeclarationBlock where
  context : DeclarationContext
  entries : List (String × DeclaredValue)
  deriving DecidableEq, Inhabited

namespace DeclarationBlock

def empty (c : DeclarationContext) : DeclarationBlock := ⟨c, []⟩

def size (b : DeclarationBlock) : Nat := b.entries.length

def get? (b : DeclarationBlock) (name : String) : Option DeclaredValue :=
  SortedMap.find? (canonicalName name) b.entries

/-- The text of a value. -/
def value? (b : DeclarationBlock) (name : String) : Option String := (b.get? name).map (·.text)

/-- `important`, or nothing. -/
def priority (b : DeclarationBlock) (name : String) : String :=
  if (b.get? name).any (·.important) then "important" else ""

def insert (b : DeclarationBlock) (name : String) (v : DeclaredValue) : DeclarationBlock :=
  { b with entries := SortedMap.insert b.context.precedes (canonicalName name) v b.entries }

def erase (b : DeclarationBlock) (name : String) : DeclarationBlock :=
  { b with entries := SortedMap.erase (canonicalName name) b.entries }

/-- The block with a declaration, if that is valid here. -/
def declare? (g : ValueGrammar) (b : DeclarationBlock) (d : WrittenDeclaration) :
    Option DeclarationBlock :=
  (g.validate? b.context d.name d.value d.important).map (fun e => b.insert e.1 e.2)

/-- One declaration as text. -/
def entryText (e : String × DeclaredValue) : String :=
  e.1 ++ ": " ++ e.2.text ++ (if e.2.important then " !important;" else ";")

def text (b : DeclarationBlock) : String := Text.joined " " (b.entries.map entryText)

end DeclarationBlock

end StyleTree
