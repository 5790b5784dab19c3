/-
# `Sheet.Shared` — a sheet and the replacements requested of it

A shared sheet is edited by anyone who holds it, and replacements of its
rules are requested, polled and dropped in between, in any order.  Requests
are numbered from 0 in the order in which they were made; a request that
was dropped is gone, and its number is not used again.
-/
import StyleTree.Sheet.Edit

namespace StyleTree

/-- A sheet with the requests made so far. -/
structure SharedSheet where
  sheet : Sheet
  requests : List (Option Replacement)

namespace SharedSheet

/-- What happens to a shared sheet. -/
inductive Event where
  | edit (e : Edit)
  | setDisabled (disabled : Bool)
  | request (text : String)
  | poll (i : Nat)
  | drop (i : Nat)

def ofSheet (s : Sheet) : SharedSheet := ⟨s, []⟩

/-- The request with a number, unless it is gone. -/
def request? (σ : SharedSheet) (i : Nat) : Option Replacement := σ.requests[i]?.join

def edit (σ : SharedSheet) (e : Edit) : Except Fault Outcome × SharedSheet :=
  let (o, sheet) := σ.sheet.run (Sheet.perform e)
  (o, { σ with sheet })

def setDisabled (σ : SharedSheet) (disabled : Bool) : SharedSheet :=
  { σ with sheet := σ.sheet.setDisabled disabled }

/-- Requests a replacement under the next number. -/
def request (σ : SharedSheet) (text : String) : SharedSheet :=
  let (r, sheet) := Replacement.request σ.sheet text
  ⟨sheet, σ.requests ++ [some r]⟩

/-- Polls a request. -/
def poll (σ : SharedSheet) (i : Nat) : Option Poll × SharedSheet :=
  match σ.request? i with
  | some r =>
    let (answer, r, sheet) := r.poll σ.sheet
    (some answer, ⟨sheet, σ.requests.set i (some r)⟩)
  | none => (none, σ)

/-- Drops a request. -/
def drop (σ : SharedSheet) (i : Nat) : SharedSheet :=
  match σ.request? i with
  | some r => ⟨r.drop σ.sheet, σ.requests.set i none⟩
  | none => σ

/-- The shared sheet behind an event. -/
def step (σ : SharedSheet) : Event → SharedSheet
  | .edit e => (σ.edit e).2
  | .setDisabled d => σ.setDisabled d
  | .request text => σ.request text
  | .poll i => (σ.poll i).2
  | .drop i => σ.drop i

/-- The shared sheet behind a run of events. -/
def steps (σ : SharedSheet) (es : List Event) : SharedSheet := es.foldl step σ

/-- A sheet without rules or just read, of which nothing was requested yet. -/
inductive Initial : SharedSheet → Prop
  | empty (c : HostSettings) : Initial (ofSheet (Sheet.empty c))
  | read (c : HostSettings) (text : String) : Initial (ofSheet (Sheet.read c text))

/-- What a run of events makes of an initial sheet. -/
def Reachable (σ : SharedSheet) : Prop := ∃ σ₀ es, Initial σ₀ ∧ σ = σ₀.steps es

end SharedSheet

end StyleTree
