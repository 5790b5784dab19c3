/-
# `Proofs.Cursor.Walks` — code that moves a place in a run

A `Cursor` has its place inside the run by its type, and a production has no
place at all.  Here a place is a bare number that code moves as it likes, and
code may go wrong in each of the ways in which code with an index can:

    it stands, or slices the run, behind the end     `OutOfRange`
    it goes on for ever                              no outcome

A walk is such code, and an attempt is a walk whose result may be missing;
where it stands then is up to it, unless it is made to go back (`rewind`).
Loops iterate a partial function, without a bound: that they end is for the
proofs to say.  A walk is stopped as soon as its place is behind the end of
the run, also if no slice is taken there, so one that is not stopped was
inside the run all the way.

The statements about a walk are made from a cursor: `w.Ends c a d` says that
from the place of `c` the walk `w` ends with the result `a` at the place of
`d`.  That each single step does what the function of `Cursor` says is shown
at the end.
-/
import Mathlib.Data.PFun
import StyleTree.Proofs.Declaration.Combinators

namespace StyleTree

open ComponentValue

/-- The place behind the end of a run at which a walk was stopped. -/
structure OutOfRange where
  position : Nat

/-- Code that reads a run and moves a place in it. -/
abbrev Walk := ReaderT (List ComponentValue) (StateT Nat (ExceptT OutOfRange Part))

/-- A walk whose result may be missing. -/
abbrev Attempt := OptionT Walk

/-! ## Steps -/

namespace Walk

/-- The number of the value behind the place. -/
def place : Walk Nat := get

/-- Puts the place in front of value `n`. -/
def moveTo (n : Nat) : Walk Unit := do
  if n ≤ (← read).length then set n else throwThe OutOfRange ⟨n⟩

/-- The slice from the place to the end of the run. -/
def rest : Walk (List ComponentValue) := do
  let n ← place
  if n ≤ (← read).length then return (← read).drop n else throwThe OutOfRange ⟨n⟩

/-- Puts the place in front of value `n`, or at the end of a shorter run. -/
def restore (n : Nat) : Walk Unit := do moveTo (min n (← read).length)

/-- The value behind the place, which stays where it is. -/
def peek : Walk (Option ComponentValue) := do return (← read)[← place]?

/-- Passes one value. -/
def pass : Walk Unit := do moveTo ((← place) + 1)

/-- The value behind the place, which is passed. -/
def next : Walk (Option ComponentValue) := do
  match ← peek with
  | some v =>
    pass
    return some v
  | none => return none

/-- What becomes of one turn of a loop on a run: no more turns, or the state and the place that the next one has. -/
def turn {σ α : Type} (body : σ → Walk (α ⊕ σ)) (vs : List ComponentValue) (t : σ × Nat) :
    Part (Except OutOfRange (α × Nat) ⊕ σ × Nat) :=
  Part.map (fun
    | .ok (.inl a, n) => .inl (.ok (a, n))
    | .ok (.inr s, n) => .inr (s, n)
    | .error e => .inl (.error e)) (body t.1 vs t.2)

/-- Takes turns, beginning in the state `s`, until one of them gives a result (`.inl`) and no other state (`.inr`). -/
def loop {σ α : Type} (body : σ → Walk (α ⊕ σ)) (s : σ) : Walk α := fun vs n => PFun.fix (turn body vs) (s, n)

/-- Passes blanks as long as there are some. -/
def skipBlanks : Walk Unit := loop (fun _ => do
  match ← peek with
  | some v =>
    if v.isBlank then
      pass
      return .inr ()
    else return .inl ()
  | none => return .inl ()) ()

/-- The next value that is not blank, which is passed. -/
def nextValue : Walk (Option ComponentValue) := do
  skipBlanks
  next

/-- The next value that is not blank; the place stays where it is. -/
def peekValue : Walk (Option ComponentValue) := do return (← rest).find? (!·.isBlank)

/-- Whether only blanks are left. -/
def isExhausted : Walk Bool := do return (← peekValue).isNone

/-- All that is left, which is passed. -/
def takeRest : Walk (List ComponentValue) := do
  let vs ← rest
  moveTo (← read).length
  return vs

end Walk

namespace Attempt

variable {α : Type}

/-- The result if there is one. -/
def ofOption (a : Option α) : Attempt α := OptionT.mk (return a)

/-- A walk, whose result is there. -/
def step (w : Walk α) : Attempt α := OptionT.lift w

/-- The value behind the place. -/
def next : Attempt ComponentValue := OptionT.mk Walk.next

/-- The next value that is not blank. -/
def value : Attempt ComponentValue := OptionT.mk Walk.nextValue

/-- The next value that is not blank, if `f` takes it; it is passed even if `f` does not. -/
def taken (f : ComponentValue → Option α) : Attempt α := do
  let v ← value
  ofOption (f v)

/-- Takes turns until one of them gives a result, or has none. -/
def loop {σ : Type} (body : σ → Attempt (α ⊕ σ)) (s : σ) : Attempt α := OptionT.mk (Walk.loop (fun s => do
  match ← (body s).run with
  | some (.inl a) => return .inl (some a)
  | some (.inr s) => return .inr s
  | none => return .inl none) s)

/-- Goes back to where it began if the result is missing. -/
def rewind (x : Attempt α) : Attempt α := OptionT.mk do
  let n ← Walk.place
  let a ← x.run
  if a.isNone then Walk.restore n
  return a

/-- Only blanks are left. -/
def finished : Attempt Unit := do
  if ← step Walk.isExhausted then return () else failure

end Attempt

/-! ## Where a walk ends -/

namespace Cursor

variable {c d : Cursor} {v : ComponentValue} {left : List ComponentValue}

theorem length_rest (c : Cursor) : c.rest.length = c.values.length - c.position := List.length_drop

/-- What is left gets shorter by the values that are passed. -/
theorem length_rest_le {n : Nat} (h : d.values = c.values) (hle : c.position + n ≤ d.position) :
    d.rest.length + n ≤ c.rest.length := by
  have hplace := d.position_le
  rw [length_rest, length_rest, h]
  rw [h] at hplace
  omega

theorem getElem?_position (c : Cursor) : c.values[c.position]? = c.rest.head? := by
  rw [rest, List.head?_drop]

/-- The place before what is left of a run. -/
theorem rest_leave (h : left <:+ c.rest) : (c.leave left).rest = left := by
  have hvalues : left <:+ c.values := h.trans (List.drop_suffix _ _)
  show c.values.drop (min (c.values.length - left.length) c.values.length) = left
  rw [Nat.min_eq_left (Nat.sub_le _ _)]
  exact (List.suffix_iff_eq_drop.mp hvalues).symm

theorem position_leave (h : left <:+ c.rest) : (c.leave left).position + left.length = c.values.length := by
  have hlen := (h.trans (List.drop_suffix _ _)).length_le
  show min (c.values.length - left.length) c.values.length + left.length = c.values.length
  omega

theorem le_leave (h : left <:+ c.rest) : c.position ≤ (c.leave left).position := by
  have hleave := position_leave h
  have hlen := h.length_le
  have hplace := c.position_le
  rw [length_rest] at hlen
  omega

theorem position_leave_cons (h : c.rest = v :: left) : (c.leave left).position = c.position + 1 := by
  have hleave := position_leave (h ▸ List.suffix_cons v left)
  have hlen := c.length_rest
  have hle := c.position_le
  rw [h, List.length_cons] at hlen
  omega

/-- A place is known by what is left behind it. -/
theorem leave_rest (h : d.values = c.values) : c.leave d.rest = d := by
  obtain ⟨vs, n, hn⟩ := d
  obtain rfl : vs = c.values := h
  have hplace : min (c.values.length - (c.values.drop n).length) c.values.length = n := by
    rw [List.length_drop]
    omega
  show (⟨c.values, _, _⟩ : Cursor) = ⟨c.values, n, hn⟩
  congr

/-- Going back to where a run was. -/
theorem restore_position (h : d.values = c.values) : d.restore c.position = c := by
  obtain ⟨vs, n, hn⟩ := c
  obtain rfl : d.values = vs := h
  show (⟨d.values, min n d.values.length, _⟩ : Cursor) = ⟨d.values, n, hn⟩
  congr
  exact Nat.min_eq_left hn

theorem rest_skipBlanks (c : Cursor) : c.skipBlanks.rest = c.rest.dropWhile isBlank :=
  rest_leave (List.dropWhile_suffix isBlank)

theorem nextValue_of_nil (h : c.rest.dropWhile isBlank = []) : c.nextValue = (none, c.skipBlanks) := by
  rw [nextValue, next, rest_skipBlanks, h]

theorem nextValue_of_cons (h : c.rest.dropWhile isBlank = v :: left) : c.nextValue = (some v, c.leave left) := by
  rw [nextValue, next, rest_skipBlanks, h]
  rfl

end Cursor

namespace Walk

variable {α β σ : Type} {w : Walk α} {f : α → Walk β} {body : σ → Walk (α ⊕ σ)} {s t : σ} {c d e : Cursor} {a : α}
  {b : β} {v : ComponentValue} {left : List ComponentValue}

/-- From the place of `c` the walk ends, inside the run, with the result `a` at the place of `d`. -/
def Ends (w : Walk α) (c : Cursor) (a : α) (d : Cursor) : Prop :=
  d.values = c.values ∧ w c.values c.position = Part.some (.ok (a, d.position))

theorem ends_pure (a : α) (c : Cursor) : Ends (pure a) c a c := ⟨rfl, rfl⟩

theorem Ends.bind (h : w.Ends c a d) (hf : (f a).Ends d b e) : (w >>= f).Ends c b e := by
  obtain ⟨hd, hw⟩ := h
  obtain ⟨he, hf⟩ := hf
  refine ⟨he.trans hd, ?_⟩
  show Part.bind (w c.values c.position) _ = _
  rw [hw, Part.bind_some, ← hf, hd]
  rfl

theorem ends_place (c : Cursor) : place.Ends c c.position c := ⟨rfl, rfl⟩

theorem ends_read (c : Cursor) : Ends (read : Walk (List ComponentValue)) c c.values c := ⟨rfl, rfl⟩

theorem ends_moveTo (h : d.values = c.values) : (moveTo d.position).Ends c () d := by
  have hle : d.position ≤ c.values.length := h ▸ d.position_le
  refine (ends_read c).bind ?_
  rw [if_pos hle]
  exact ⟨h, rfl⟩

/-- A place behind the end stops a walk. -/
theorem moveTo_of_lt {n : Nat} (h : c.values.length < n) :
    moveTo n c.values c.position = Part.some (.error ⟨n⟩) := by
  show Part.bind (Part.some (Except.ok (c.values, c.position))) _ = _
  rw [Part.bind_some]
  show (if n ≤ c.values.length then set n else throwThe OutOfRange ⟨n⟩ : Walk Unit) c.values c.position = _
  rw [if_neg (Nat.not_le_of_lt h)]
  show Part.bind (Part.some (Except.error (⟨n⟩ : OutOfRange))) _ = _
  rw [Part.bind_some]
  rfl

theorem ends_rest (c : Cursor) : rest.Ends c c.rest c := by
  refine (ends_place c).bind ((ends_read c).bind ?_)
  rw [if_pos c.position_le]
  exact (ends_read c).bind (ends_pure c.rest c)

theorem ends_restore (n : Nat) (c : Cursor) : (restore n).Ends c () (c.restore n) :=
  (ends_read c).bind (ends_moveTo (d := c.restore n) rfl)

theorem ends_peek (c : Cursor) : peek.Ends c c.peek c := by
  rw [Cursor.peek, ← Cursor.getElem?_position]
  exact (ends_read c).bind ((ends_place c).bind (ends_pure _ c))

theorem ends_pass (h : c.rest = v :: left) : pass.Ends c () (c.leave left) := by
  refine (ends_place c).bind ?_
  rw [← Cursor.position_leave_cons h]
  exact ends_moveTo rfl

theorem ends_next (c : Cursor) : next.Ends c c.next.1 c.next.2 := by
  refine (ends_peek c).bind ?_
  rw [Cursor.peek, Cursor.next]
  cases hrest : c.rest with
  | nil => exact ends_pure none c
  | cons v left => exact (ends_pass hrest).bind (ends_pure (some v) _)

/-- The last turn of a loop. -/
theorem Ends.stop (h : (body s).Ends c (.inl a) d) : (loop body s).Ends c a d := by
  refine ⟨h.1, Part.eq_some_iff.mpr (PFun.fix_stop ?_)⟩
  rw [turn, h.2, Part.map_some]
  exact Part.mem_some _

/-- One turn of a loop, and the others. -/
theorem Ends.again (h : (body s).Ends c (.inr t) d) (hmore : (loop body t).Ends d a e) : (loop body s).Ends c a e := by
  have hturn : .inr (t, d.position) ∈ turn body c.values (s, c.position) := by
    rw [turn, h.2, Part.map_some]
    exact Part.mem_some _
  refine ⟨hmore.1.trans h.1, ?_⟩
  rw [← hmore.2, loop, loop, PFun.fix_fwd_eq hturn, h.1]

/-- A loop without a last turn has no outcome. -/
theorem loop_of_again (s : σ) (c : Cursor) :
    loop (fun s => (pure (.inr s) : Walk (α ⊕ σ))) s c.values c.position = Part.none := by
  refine Part.eq_none_iff.mpr fun r hr => ?_
  refine PFun.fixInduction' hr (fun t ht => ?_) fun _ _ _ _ h => h
  cases Part.mem_some_iff.mp ht

/-- By the values that are left: each turn over a blank leaves one less. -/
theorem ends_skipBlanks (c : Cursor) : skipBlanks.Ends c () c.skipBlanks := by
  induction hrest : c.rest generalizing c with
  | nil =>
      have hpeek := ends_peek c
      rw [Cursor.peek, hrest] at hpeek
      rw [Cursor.skipBlanks, hrest, List.dropWhile_nil, ← hrest, Cursor.leave_rest rfl]
      exact .stop (hpeek.bind (ends_pure _ c))
  | cons v left ih =>
      have hpeek := ends_peek c
      rw [Cursor.peek, hrest, List.head?_cons] at hpeek
      cases hblank : v.isBlank with
      | true =>
          have hleft : (c.leave left).rest = left := Cursor.rest_leave (hrest ▸ List.suffix_cons v left)
          have hskip : (c.leave left).skipBlanks = c.skipBlanks := by
            rw [Cursor.skipBlanks, Cursor.skipBlanks, hleft, hrest, List.dropWhile_cons_of_pos hblank]
            rfl
          rw [← hskip]
          refine .again (hpeek.bind ?_) (ih _ hleft)
          show (if v.isBlank = true then _ else _ : Walk (Unit ⊕ Unit)).Ends c _ _
          rw [if_pos hblank]
          exact (ends_pass hrest).bind (ends_pure _ _)
      | false =>
          rw [Cursor.skipBlanks, hrest, dropWhile_of_not_isBlank hblank, ← hrest, Cursor.leave_rest rfl]
          refine .stop (hpeek.bind ?_)
          show (if v.isBlank = true then _ else _ : Walk (Unit ⊕ Unit)).Ends c _ _
          rw [hblank]
          exact ends_pure _ c

theorem ends_nextValue (c : Cursor) : nextValue.Ends c c.nextValue.1 c.nextValue.2 :=
  (ends_skipBlanks c).bind (ends_next _)

theorem ends_nextValue_cons (h : c.rest.dropWhile isBlank = v :: left) :
    ∃ d : Cursor, d.rest = left ∧ c.position < d.position ∧ nextValue.Ends c (some v) d := by
  have hsuffix : v :: left <:+ c.rest := h ▸ List.dropWhile_suffix isBlank
  have hleft : left <:+ c.rest := (List.suffix_cons v left).trans hsuffix
  have hplace := Cursor.position_leave hleft
  have hlen := hsuffix.length_le
  rw [List.length_cons, Cursor.length_rest] at hlen
  have hnext := ends_nextValue c
  rw [Cursor.nextValue_of_cons h] at hnext
  exact ⟨_, Cursor.rest_leave hleft, by omega, hnext⟩

theorem ends_peekValue (c : Cursor) : peekValue.Ends c c.peekValue c := by
  rw [Cursor.peekValue, ← List.find?_not_eq_head?_dropWhile]
  exact (ends_rest c).bind (ends_pure _ c)

theorem ends_isExhausted (c : Cursor) : isExhausted.Ends c c.isExhausted c := by
  have hnone : c.isExhausted = c.peekValue.isNone := by
    rw [Cursor.isExhausted, Cursor.peekValue, all_isBlank]
    cases hrest : c.rest.dropWhile isBlank with
    | nil => rw [withoutBlanks_of_dropWhile_nil hrest]; rfl
    | cons v left => rw [withoutBlanks_of_dropWhile hrest]; rfl
  rw [hnone]
  exact (ends_peekValue c).bind (ends_pure _ c)

theorem ends_takeRest (c : Cursor) : takeRest.Ends c c.rest (c.leave []) := by
  have hend : (c.leave []).position = c.values.length := Cursor.position_leave List.nil_suffix
  have hmove : (moveTo c.values.length).Ends c () (c.leave []) := hend ▸ ends_moveTo (d := c.leave []) rfl
  exact (ends_rest c).bind ((ends_read c).bind (hmove.bind (ends_pure c.rest _)))

end Walk

end StyleTree
