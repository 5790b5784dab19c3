/-
# `Sheet.Action` — steps that write a sheet in place

An action reads and writes a sheet and may fail.  What it wrote before it
failed stays written, so that a failure leaves the sheet as it was only if
all its checks come first.  Actions are made of three kinds of steps:
`look` reads, or fails without having written; `write` writes and cannot
fail; `check` fails or does nothing.
-/
import StyleTree.Sheet.Basic

namespace StyleTree.Sheet

/-- A step that reads and writes a sheet and may fail. -/
abbrev Action (α : Type) := ExceptT Fault (StateM Sheet) α

/-- The answer of an action and the sheet it leaves, also where it fails. -/
def run {α : Type} (s : Sheet) (m : Action α) : Except Fault α × Sheet := StateT.run (ExceptT.run m) s

namespace Action

variable {α β : Type}

/-- Reads the sheet, or fails. -/
def look (f : Sheet → Except Fault α) : Action α := ExceptT.mk fun s => (f s, s)

/-- Writes the sheet. -/
def write (f : Sheet → α × Sheet) : Action α := ExceptT.mk fun s => (.ok (f s).1, (f s).2)

/-- Fails unless a condition holds. -/
def check (ok : Prop) [Decidable ok] (f : Fault) : Action Unit :=
  look fun _ => if ok then .ok () else .error f

/-- Writes the sheet and has no answer. -/
def change (f : Sheet → Sheet) : Action Unit := write fun s => ((), f s)

end Action

/-! ## Running an action -/

variable {α β : Type}

theorem run_pure (s : Sheet) (a : α) : s.run (pure a) = (.ok a, s) := rfl

theorem run_throw (s : Sheet) (f : Fault) : s.run (throw f : Action α) = (.error f, s) := rfl

theorem run_look (s : Sheet) (f : Sheet → Except Fault α) : s.run (.look f) = (f s, s) := rfl

theorem run_write (s : Sheet) (f : Sheet → α × Sheet) : s.run (.write f) = (.ok (f s).1, (f s).2) :=
  rfl

theorem run_bind (s : Sheet) (m : Action α) (k : α → Action β) :
    s.run (m >>= k) =
      match s.run m with
      | (.ok a, t) => t.run (k a)
      | (.error e, t) => (.error e, t) := by
  show (ExceptT.bindCont k (s.run m).1) (s.run m).2 = _
  rcases s.run m with ⟨_ | _, _⟩ <;> rfl

end StyleTree.Sheet
