/-
# `Proofs.Cursor.Sequences` — sequences of steps stay inside their run

What a reader does with a place is a sequence of steps: it looks at values,
passes them, takes the rest, notes a place and goes to any number, tries
something and goes back, runs a production, and each step may hang on what
the steps before it gave.  `IsSequence` puts such walks together and says of
each what it does to a cursor.  The main statement, `places_stay_in_range`,
is that this is also what the walk does, from every place of every run: it
ends, and no place and no slice on its way was behind the end of the run.

The productions of the grammar are steps of a sequence as well.  One that
gives nothing leaves the place alone, and one that gives a result moves it
forward.
-/
import StyleTree.Proofs.Cursor.Productions

namespace StyleTree

open ComponentValue

/-- The attempts of the grammar, with the productions that they are to perform. -/
inductive Attempt.Produces : {α : Type} → Attempt α → Production α → Prop
  | ident : Produces ident Production.ident
  | word (w : String) : Produces (word w) (Production.word w)
  | layerName : Produces layerName LayerName.production
  | value (k : ValueKind) : Produces (valueOf k) k.production
  | condition (T : ComponentValue → Option String) (allowOr : Bool) :
      Produces (condition T allowOr) (Condition.production T allowOr)

namespace Cursor

variable {α β : Type} {w : Walk α} {u : α → Walk β} {f : Cursor → α × Cursor} {g : α → Cursor → β × Cursor}
  {x : Attempt α} {r : Cursor → Option α × Cursor} {p : Production α} {c d : Cursor} {a : α}
  {left : List ComponentValue}

/-- All that is left, and the end of the run. -/
def takeRest (c : Cursor) : List ComponentValue × Cursor := (c.rest, c.leave [])

/-- Success if only blanks are left. -/
def finished (c : Cursor) : Option Unit := if c.isExhausted then some () else none

/-- Does what `r` does, but goes back to where it began if the result is missing. -/
def rewind (r : Cursor → Option α × Cursor) (c : Cursor) : Option α × Cursor :=
  match r c with
  | (some a, d) => (some a, d)
  | (none, d) => (none, d.restore c.position)

/-- Does what `r` does, and with its result what `s` does; nothing more if the result is missing. -/
def andThen (r : Cursor → Option α × Cursor) (s : α → Cursor → Option β × Cursor) (c : Cursor) : Option β × Cursor :=
  (r c).1.elim (none, (r c).2) fun a => s a (r c).2

/-- The sequences of steps, with what they do to a cursor. -/
inductive IsSequence : {α : Type} → Walk α → (Cursor → α × Cursor) → Prop
  | pure {α : Type} (a : α) : IsSequence (pure a) fun c => (a, c)
  | bind {α β : Type} {w : Walk α} {u : α → Walk β} {f : Cursor → α × Cursor} {g : α → Cursor → β × Cursor}
      (hw : IsSequence w f) (hu : ∀ a, IsSequence (u a) (g a)) : IsSequence (w >>= u) fun c => g (f c).1 (f c).2
  | place : IsSequence Walk.place fun c => (c.position, c)
  | restore (n : Nat) : IsSequence (Walk.restore n) fun c => ((), c.restore n)
  | peek : IsSequence Walk.peek fun c => (c.peek, c)
  | peekValue : IsSequence Walk.peekValue fun c => (c.peekValue, c)
  | next : IsSequence Walk.next next
  | nextValue : IsSequence Walk.nextValue nextValue
  | skipBlanks : IsSequence Walk.skipBlanks fun c => ((), c.skipBlanks)
  | isExhausted : IsSequence Walk.isExhausted fun c => (c.isExhausted, c)
  | finished : IsSequence Attempt.finished.run fun c => (c.finished, c)
  | rest : IsSequence Walk.rest fun c => (c.rest, c)
  | takeRest : IsSequence Walk.takeRest takeRest
  | rewind {α : Type} {x : Attempt α} {r : Cursor → Option α × Cursor} (hx : IsSequence x.run r) :
      IsSequence x.rewind.run (rewind r)
  | production {α : Type} {x : Attempt α} {p : Production α} (hx : x.Produces p) : IsSequence x.run fun c => c.run p

/-- One attempt after another is a sequence, too. -/
theorem IsSequence.andThen {y : α → Attempt β} {s : α → Cursor → Option β × Cursor} (hx : IsSequence x.run r)
    (hy : ∀ a, IsSequence (y a).run (s a)) : IsSequence (x >>= y).run (andThen r s) := by
  rw [OptionT.run_bind]
  refine .bind (g := fun o d => o.elim (none, d) fun a => s a d) hx fun o => ?_
  cases o with
  | none => exact .pure none
  | some a => exact hy a

theorem run_of_none (h : p c.rest = none) : c.run p = (none, c) := by rw [run, h]

theorem run_of_some (h : p c.rest = some (a, left)) : c.run p = (some a, c.leave left) := by rw [run, h]

theorem performs_of_produces (h : x.Produces p) : x.Performs p := by
  cases h with
  | ident => exact Attempt.performs_ident
  | word w => exact Attempt.performs_word w
  | layerName => exact Attempt.performs_layerName
  | value k => exact Attempt.performs_valueOf k
  | condition T allowOr => exact Attempt.performs_condition T allowOr

/-- An attempt that performs a production leaves the place where the cursor says. -/
theorem run_of_performs (h : x.Performs p) (c : Cursor) :
    (c.run p = (none, c) ∧ x.Fails c c) ∨
      ∃ a d, c.run p = (some a, d) ∧ x.Gives c a d ∧ p c.rest = some (a, d.rest) ∧ c.position < d.position := by
  cases hp : p c.rest with
  | none => exact .inl ⟨run_of_none hp, h.stays c hp⟩
  | some s =>
      obtain ⟨d, hleft, hlt, hgives⟩ := h.follows.gives hp
      refine .inr ⟨s.1, d, ?_, hgives, by rw [hleft], hlt⟩
      rw [run_of_some hp, ← hleft, leave_rest hgives.1]

theorem ends_run (h : x.Performs p) (c : Cursor) : Walk.Ends x.run c (c.run p).1 (c.run p).2 := by
  rcases run_of_performs h c with ⟨hrun, hfails⟩ | ⟨a, d, hrun, hgives, -, -⟩
  · rw [hrun]
    exact hfails
  · rw [hrun]
    exact hgives

theorem ends_rewind (h : Walk.Ends x.run c (r c).1 (r c).2) :
    Walk.Ends x.rewind.run c (rewind r c).1 (rewind r c).2 := by
  rw [rewind]
  rcases hr : r c with ⟨_ | a, d⟩
  · rw [hr] at h
    show Walk.Ends x.rewind.run c none (d.restore c.position)
    rw [restore_position h.1]
    exact Attempt.Fails.rewind h
  · rw [hr] at h
    exact Attempt.Gives.rewind h

/-- By the steps. -/
theorem ends_of_isSequence (h : IsSequence w f) (c : Cursor) : w.Ends c (f c).1 (f c).2 := by
  induction h generalizing c with
  | pure a => exact Walk.ends_pure a c
  | bind _ _ hw hu => exact (hw c).bind (hu _ _)
  | place => exact Walk.ends_place c
  | restore n => exact Walk.ends_restore n c
  | peek => exact Walk.ends_peek c
  | peekValue => exact Walk.ends_peekValue c
  | next => exact Walk.ends_next c
  | nextValue => exact Walk.ends_nextValue c
  | skipBlanks => exact Walk.ends_skipBlanks c
  | isExhausted => exact Walk.ends_isExhausted c
  | finished => exact Attempt.ends_finished c
  | rest => exact Walk.ends_rest c
  | takeRest => exact Walk.ends_takeRest c
  | rewind _ hx => exact ends_rewind (hx c)
  | production hx => exact ends_run (performs_of_produces hx) c

/-- From every place of every run, every sequence of steps ends inside the run and does what it says of cursors.
A production in particular either gives nothing and leaves the place where it is, or gives the result of the
grammar and moves the place forward, over values that are there.  So the loops inside productions end, and so does
a loop that repeats a production until it gives nothing.  The conditions that are read from a place are those that
whole runs are taken for. -/
theorem places_stay_in_range :
    (∀ {α : Type} {w : Walk α} {f : Cursor → α × Cursor}, IsSequence w f → ∀ c : Cursor,
      w.Ends c (f c).1 (f c).2 ∧ (f c).2.position ≤ c.values.length) ∧
    (∀ {α : Type} {x : Attempt α} {p : Production α}, x.Produces p → ∀ c : Cursor,
      (c.run p = (none, c) ∧ x.Fails c c) ∨
      ∃ a d, c.run p = (some a, d) ∧ x.Gives c a d ∧ p c.rest = some (a, d.rest) ∧
        c.position < d.position ∧ d.position ≤ c.values.length) ∧
    (∀ {α : Type} {x : Attempt α} {p : Production α}, x.Produces p → ∀ c : Cursor,
      ∃ as d, (Attempt.repeatedly x []).Ends c as d ∧ d.run p = (none, d)) ∧
    ∀ g allowOr vs, (Condition.production (Condition.term g) allowOr).whole vs = Condition.ofValues? g allowOr vs := by
  have hinside {α : Type} {w : Walk α} {a : α} {c d : Cursor} (h : w.Ends c a d) : d.position ≤ c.values.length :=
    h.1 ▸ d.position_le
  refine ⟨fun hw c => ?_, fun hx c => ?_, fun hx c => ?_, Condition.whole_production⟩
  · have hends := ends_of_isSequence hw c
    exact ⟨hends, hinside hends⟩
  · rcases run_of_performs (performs_of_produces hx) c with hnone | ⟨a, d, hrun, hgives, hread, hlt⟩
    · exact .inl hnone
    · exact .inr ⟨a, d, hrun, hgives, hread, hlt, hinside hgives⟩
  · obtain ⟨as, d, hends, hnone⟩ := Attempt.ends_repeatedly (performs_of_produces hx) [] c
    exact ⟨as, d, hends, run_of_none hnone⟩

/-- An identifier and a blank. -/
def oneIdent : List ComponentValue := [.token (.ident "a"), .token .blank]

/-- Two identifiers are tried where there is one: it is passed, the second is missing, and the place goes back in
front of it.  A single one is read, and so are all of them. -/
theorem places_stay_in_range_idents :
    IsSequence (Attempt.rewind do let _ ← Attempt.ident; Attempt.ident).run
        (rewind (andThen (run · Production.ident) fun _ => (run · Production.ident))) ∧
      Attempt.Fails (.rewind do let _ ← Attempt.ident; Attempt.ident) (start oneIdent) (start oneIdent) ∧
      Attempt.ident.Produces Production.ident ∧
      (∃ a d, Attempt.ident.Gives (start oneIdent) a d ∧ (start oneIdent).position < d.position) ∧
      ∃ as d, (Attempt.repeatedly Attempt.ident []).Ends (start oneIdent) as d ∧
        d.run Production.ident = (none, d) := by
  have hident : IsSequence Attempt.ident.run (run · Production.ident) := .production .ident
  have hpair := IsSequence.rewind (hident.andThen fun _ => hident)
  refine ⟨hpair, (places_stay_in_range.1 hpair (start oneIdent)).1, .ident, ?_,
    places_stay_in_range.2.2.1 .ident (start oneIdent)⟩
  rcases places_stay_in_range.2.1 .ident (start oneIdent) with ⟨hnone, -⟩ | ⟨a, d, -, hgives, -, hlt, -⟩
  · cases hnone
  · exact ⟨a, d, hgives, hlt⟩

end Cursor

end StyleTree
