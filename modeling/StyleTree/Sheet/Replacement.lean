/-
# `Sheet.Replacement` — new rules for a whole sheet

A constructed sheet can be given the rules of a new text.  The replacement
is made at once, or it is requested: the request locks the sheet, and the
second time it is polled, or when it is dropped, the replacement is made
and the lock released.  Meanwhile no other replacement can start.
-/
import StyleTree.Sheet.Action

namespace StyleTree

namespace Sheet

/-- A replacement may start. -/
def replaceable (s : Sheet) : Except Fault Unit :=
  if s.settings.constructed then s.unlocked else .error .locked

/-- Makes a replacement: the new rules are read first, then the old ones are removed. -/
def commit (s : Sheet) (text : String) : Sheet :=
  let new := s.load text
  { new with arena := s.rules.foldl Arena.removeSubtree new.arena, pending := false }

/-- Takes the lock of a replacement. -/
def lock : Action Unit := do
  .look replaceable
  .change ({ · with pending := true })

/-- Replaces the rules at once. -/
def replace (text : String) : Action Unit := do
  lock
  .change (·.commit text)

end Sheet

/-- A replacement that was requested. -/
inductive Replacement where
  | refused (f : Fault)
  | scheduled (text : String)
  /-- Polled once. -/
  | yielded (text : String)
  | committed
  deriving DecidableEq, Inhabited

/-- The answer to a poll. -/
inductive Poll where
  | waiting
  | ready
  | failed (f : Fault)
  deriving DecidableEq, Inhabited

namespace Replacement

/-- Requests a replacement; the sheet is locked if it may start. -/
def request (s : Sheet) (text : String) : Replacement × Sheet :=
  match s.run Sheet.lock with
  | (.ok (), s) => (scheduled text, s)
  | (.error f, s) => (refused f, s)

/-- Polls a replacement. -/
def poll (r : Replacement) (s : Sheet) : Poll × Replacement × Sheet :=
  match r with
  | refused f => (.failed f, refused f, s)
  | scheduled text => (.waiting, yielded text, s)
  | yielded text => (.ready, committed, s.commit text)
  | committed => (.ready, committed, s)

/-- Drops a replacement; one that is under way is made now. -/
def drop (r : Replacement) (s : Sheet) : Sheet :=
  match r with
  | scheduled text | yielded text => s.commit text
  | refused _ | committed => s

end Replacement

end StyleTree
