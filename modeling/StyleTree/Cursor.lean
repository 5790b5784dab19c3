/-
# `Cursor` — productions, and a place in a run of values

A production reads from the front of a run of component values: it gives
its result together with the values it leaves, or nothing.  A cursor is a
place in a run; running a production on it moves the place behind what
was read, and leaves the place alone if the production gives nothing.
-/
import StyleTree.ComponentValue.Text

namespace StyleTree

open ComponentValue

/-- What is read from the front of a run of values, and what is left. -/
abbrev Production (α : Type) := StateT (List ComponentValue) Option α

namespace Production

/-- The next value that is not blank. -/
def value : Production ComponentValue := fun vs =>
  match vs.dropWhile isBlank with
  | v :: rest => some (v, rest)
  | [] => none

/-- The next value that is not blank, if `f` takes it. -/
def taken {α : Type} (f : ComponentValue → Option α) : Production α := fun vs =>
  match vs.dropWhile isBlank with
  | v :: rest => (f v).map (·, rest)
  | [] => none

/-- An identifier. -/
def ident : Production String := taken ident?

/-- An identifier that spells `w`. -/
def word (w : String) : Production Unit := taken (fun v => if v.isWord w then some () else none)

/-- All that is left. -/
def rest : Production (List ComponentValue) := fun vs => some (vs, [])

/-- Succeeds if only blanks are left. -/
def finished : Production Unit := fun vs => if vs.all isBlank then some ((), vs) else none

/-- The result on a whole run: nothing but blanks may be left. -/
def whole {α : Type} (p : Production α) (vs : List ComponentValue) : Option α :=
  match p vs with
  | some (a, rest) => if rest.all isBlank then some a else none
  | none => none

end Production

/-- A place in a run of values. -/
structure Cursor where
  values : List ComponentValue
  position : Nat
  position_le : position ≤ values.length

namespace Cursor

/-- The place before the first value. -/
def start (vs : List ComponentValue) : Cursor := ⟨vs, 0, Nat.zero_le _⟩

/-- The same run at place `n`, or at its end if it is shorter. -/
def restore (c : Cursor) (n : Nat) : Cursor :=
  ⟨c.values, min n c.values.length, Nat.min_le_right _ _⟩

/-- The values behind the place. -/
def rest (c : Cursor) : List ComponentValue := c.values.drop c.position

/-- The same run with `left` values behind the place. -/
def leave (c : Cursor) (left : List ComponentValue) : Cursor :=
  c.restore (c.values.length - left.length)

/-- Runs a production; the place stays where it is if the production gives nothing. -/
def run {α : Type} (c : Cursor) (p : Production α) : Option α × Cursor :=
  match p c.rest with
  | some (a, left) => (some a, c.leave left)
  | none => (none, c)

/-- The value at the place, and the place behind it. -/
def next (c : Cursor) : Option ComponentValue × Cursor :=
  match c.rest with
  | v :: left => (some v, c.leave left)
  | [] => (none, c)

/-- The place behind the blanks. -/
def skipBlanks (c : Cursor) : Cursor := c.leave (c.rest.dropWhile isBlank)

/-- The next value that is not blank, and the place behind it; the blanks are passed even if no
value follows them. -/
def nextValue (c : Cursor) : Option ComponentValue × Cursor := c.skipBlanks.next

def peek (c : Cursor) : Option ComponentValue := c.rest.head?

def peekValue (c : Cursor) : Option ComponentValue := (c.rest.dropWhile isBlank).head?

def isExhausted (c : Cursor) : Bool := c.rest.all isBlank

end Cursor

end StyleTree
