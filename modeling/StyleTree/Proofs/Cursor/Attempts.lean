/-
# `Proofs.Cursor.Attempts` — attempts read what productions read

An attempt and a production are compared at one cursor: the production is run
on the values behind the place, and the attempt has to end with its result at
the place before the values that it leaves, or without a result (`Reads`).
The relation is closed under all that attempts are put together with, and it
counts how far the place moves at least.

    x.Follows n p     wherever `x` begins, it reads what `p` reads, and a
                      result costs `n` values or more
    x.Performs p      the same with one value or more, and without a result
                      the place is where it was

An attempt that follows and takes a value performs as soon as it is made to
go back (`Follows.rewind`), and only attempts that perform are put into the
loops: what the loop has left gets shorter with each turn.
-/
import StyleTree.Proofs.Cursor.Walks

namespace StyleTree

open ComponentValue

namespace Attempt

variable {α β σ : Type} {x y : Attempt α} {f : α → Attempt β} {body : σ → Attempt (α ⊕ σ)} {s t : σ}
  {c d e : Cursor} {a : α} {b : β} {m n : Nat}
  {p q : Production α} {g : α → Production β} {v : ComponentValue} {left : List ComponentValue}

/-! ## How an attempt ends -/

/-- The attempt ends with a result. -/
def Gives (x : Attempt α) (c : Cursor) (a : α) (d : Cursor) : Prop := Walk.Ends x.run c (some a) d

/-- The attempt ends without a result. -/
def Fails (x : Attempt α) (c d : Cursor) : Prop := Walk.Ends x.run c none d

theorem gives_pure (a : α) (c : Cursor) : Gives (pure a) c a c := Walk.ends_pure (some a) c

theorem fails_failure (c : Cursor) : Fails (failure : Attempt α) c c := Walk.ends_pure none c

theorem fails_ofOption (c : Cursor) : (ofOption (none : Option α)).Fails c c := Walk.ends_pure none c

theorem Gives.bind {r : Option β} (h : x.Gives c a d) (hf : Walk.Ends (f a).run d r e) :
    Walk.Ends (x >>= f).run c r e := by
  rw [OptionT.run_bind]
  exact Walk.Ends.bind h hf

theorem Fails.bind (h : x.Fails c d) (f : α → Attempt β) : (x >>= f).Fails c d := by
  rw [Fails, OptionT.run_bind]
  exact Walk.Ends.bind h (Walk.ends_pure none d)

theorem gives_step {w : Walk α} (h : w.Ends c a d) : (step w).Gives c a d :=
  Walk.Ends.bind (f := fun a => pure (some a)) h (Walk.ends_pure (some a) d)

theorem Gives.orElse (h : x.Gives c a d) (y : Attempt α) : (x <|> y).Gives c a d := by
  rw [Gives, OptionT.run_orElse]
  exact Walk.Ends.bind h (Walk.ends_pure (some a) d)

theorem Fails.orElse {r : Option α} (h : x.Fails c d) (hy : Walk.Ends y.run d r e) : Walk.Ends (x <|> y).run c r e := by
  rw [OptionT.run_orElse]
  exact Walk.Ends.bind h hy

/-- The last turn of a loop. -/
theorem Gives.stop (h : (body s).Gives c (.inl a) d) : (loop body s).Gives c a d :=
  Walk.Ends.stop (Walk.Ends.bind h (Walk.ends_pure _ d))

theorem Fails.stop (h : (body s).Fails c d) : (loop body s).Fails c d :=
  Walk.Ends.stop (Walk.Ends.bind h (Walk.ends_pure _ d))

/-- One turn of a loop, and the others. -/
theorem Gives.again {r : Option α} (h : (body s).Gives c (.inr t) d) (hmore : Walk.Ends (loop body t).run d r e) :
    Walk.Ends (loop body s).run c r e :=
  Walk.Ends.again (Walk.Ends.bind h (Walk.ends_pure _ d)) hmore

theorem Gives.rewind (h : x.Gives c a d) : x.rewind.Gives c a d :=
  (Walk.ends_place c).bind (Walk.Ends.bind h (Walk.ends_pure (some a) d))

theorem Fails.rewind (h : x.Fails c d) : x.rewind.Fails c c := by
  have hback : (Walk.restore c.position).Ends d () c := by
    have hrestore := Walk.ends_restore c.position d
    rwa [Cursor.restore_position h.1] at hrestore
  exact (Walk.ends_place c).bind (Walk.Ends.bind h (hback.bind (Walk.ends_pure none c)))

theorem ends_finished (c : Cursor) : Walk.Ends finished.run c (if c.isExhausted then some () else none) c := by
  refine (gives_step (Walk.ends_isExhausted c)).bind ?_
  cases c.isExhausted with
  | true => exact gives_pure () c
  | false => exact fails_failure c

/-- One attempt after another, both of which leave the place where it is. -/
theorem ends_bind {r : Option α} {k : α → Option β} (hx : Walk.Ends x.run c r c)
    (hf : ∀ a, Walk.Ends (f a).run c (k a) c) : Walk.Ends (x >>= f).run c (r.bind k) c := by
  cases r with
  | none => exact Fails.bind hx f
  | some a => exact Gives.bind hx (hf a)

/-! ## What an attempt reads -/

/-- From `c` the attempt ends as a production does that has this outcome; a result is at least `n` values on. -/
def Reads (n : Nat) (x : Attempt α) (c : Cursor) : Option (α × List ComponentValue) → Prop
  | some (a, left) => ∃ d : Cursor, d.rest = left ∧ c.position + n ≤ d.position ∧ x.Gives c a d
  | none => ∃ d, x.Fails c d

/-- Wherever the attempt begins, it reads what the production reads. -/
def Follows (n : Nat) (x : Attempt α) (p : Production α) : Prop := ∀ c, x.Reads n c (p c.rest)

/-- The same, and without a result the place is where it was. -/
structure Performs (x : Attempt α) (p : Production α) : Prop where
  follows : x.Follows 1 p
  stays : ∀ c, p c.rest = none → x.Fails c c

section

variable {o : Option (α × List ComponentValue)} {r : Option (β × List ComponentValue)}

theorem Reads.mono (h : x.Reads n c o) (hle : m ≤ n) : x.Reads m c o := by
  cases o with
  | none => exact h
  | some s =>
      obtain ⟨d, hd, hlt, hx⟩ := h
      exact ⟨d, hd, by omega, hx⟩

/-- The place aside, an attempt ends as the production does. -/
theorem Reads.exists_ends (h : x.Reads n c o) : ∃ d, Walk.Ends x.run c (o.map Prod.fst) d := by
  cases o with
  | none => exact h
  | some s =>
      obtain ⟨d, -, -, hx⟩ := h
      exact ⟨d, hx⟩

theorem reads_pure (a : α) (c : Cursor) : (pure a : Attempt α).Reads 0 c (some (a, c.rest)) :=
  ⟨c, rfl, le_rfl, gives_pure a c⟩

theorem reads_failure (c : Cursor) : (failure : Attempt α).Reads n c none := ⟨c, fails_failure c⟩

theorem reads_ofOption (a : Option α) (c : Cursor) : (ofOption a).Reads 0 c (a.map (·, c.rest)) := by
  cases a with
  | none => exact ⟨c, fails_ofOption c⟩
  | some a => exact ⟨c, rfl, le_rfl, gives_pure a c⟩

/-- An attempt that ends from `c` wherever another one ends from `d`. -/
theorem Reads.of_ends {y z : Attempt β} (h : y.Reads n d r) (hle : c.position + m ≤ d.position + n)
    (hz : ∀ b e, Walk.Ends y.run d b e → Walk.Ends z.run c b e) : z.Reads m c r := by
  cases r with
  | none =>
      obtain ⟨e, he⟩ := h
      exact ⟨e, hz none e he⟩
  | some s =>
      obtain ⟨e, hleft, hlt, he⟩ := h
      exact ⟨e, hleft, by omega, hz (some s.1) e he⟩

theorem Gives.reads (h : x.Gives c a d) (hle : c.position + m ≤ d.position) (hf : (f a).Reads n d r) :
    (x >>= f).Reads (m + n) c r :=
  hf.of_ends (by omega) fun _ _ => h.bind

/-- A first part that takes nothing, perhaps. -/
theorem Gives.before (h : x.Gives c a d) (hle : c.position ≤ d.position) (hf : (f a).Reads n d r) :
    (x >>= f).Reads n c r :=
  hf.of_ends (by omega) fun _ _ => h.bind

theorem Fails.reads_orElse (h : x.Fails c c) (hy : y.Reads n c o) : (x <|> y).Reads n c o :=
  hy.of_ends le_rfl fun _ _ => h.orElse

/-- One turn of a loop, and what the others read. -/
theorem Gives.reads_loop (h : (body s).Gives c (.inr t) d) (hle : c.position ≤ d.position)
    (hmore : (loop body t).Reads n d o) : (loop body s).Reads n c o :=
  hmore.of_ends (by omega) fun _ _ => h.again

theorem Reads.rewind (h : x.Reads n c o) : x.rewind.Reads n c o := by
  cases o with
  | none =>
      obtain ⟨d, hx⟩ := h
      exact ⟨c, hx.rewind⟩
  | some r =>
      obtain ⟨d, hleft, hlt, hx⟩ := h
      exact ⟨d, hleft, hlt, hx.rewind⟩

/-- One turn of a loop which is not the last if it has a result, and what the others read. -/
theorem Reads.loop {κ : Type} {q : Option (κ × List ComponentValue)} {u : κ → σ}
    {k : κ × List ComponentValue → Option (α × List ComponentValue)}
    (h : (body s).Reads m c (q.map fun r => (.inr (u r.1), r.2)))
    (hmore : ∀ i d, d.values = c.values → c.position + m ≤ d.position → q = some (i, d.rest) →
      (loop body (u i)).Reads n d (k (i, d.rest))) :
    (loop body s).Reads n c (q.bind k) := by
  cases q with
  | none =>
      obtain ⟨d, hx⟩ := h
      exact ⟨d, hx.stop⟩
  | some r =>
      obtain ⟨i, left⟩ := r
      obtain ⟨d, rfl, hlt, hx⟩ := h
      exact hx.reads_loop (by omega) (hmore i d hx.1 hlt rfl)

/-- One attempt after another; the second begins where the first has ended. -/
theorem Reads.bind {k : α × List ComponentValue → Option (β × List ComponentValue)} (h : x.Reads m c o)
    (hf : ∀ a d, d.values = c.values → c.position + m ≤ d.position → o = some (a, d.rest) →
      (f a).Reads n d (k (a, d.rest))) :
    (x >>= f).Reads (m + n) c (o.bind k) := by
  cases o with
  | none =>
      obtain ⟨d, hx⟩ := h
      exact ⟨d, hx.bind f⟩
  | some s =>
      obtain ⟨a, left⟩ := s
      obtain ⟨d, rfl, hlt, hx⟩ := h
      exact hx.reads hlt (hf a d hx.1 hlt rfl)

/-- The results are shown in another way. -/
theorem Reads.map (h : x.Reads n c o) (k : α → β) :
    (x >>= fun a => pure (k a)).Reads n c (o.map fun s => (k s.1, s.2)) := by
  rw [Option.map_eq_bind]
  exact Reads.bind (n := 0) (k := fun s => some (k s.1, s.2)) h fun a d _ _ _ => reads_pure (k a) d

end

/-! ## Attempts that follow productions -/

theorem follows_value : value.Follows 1 Production.value := by
  intro c
  rw [Production.value]
  cases hrest : c.rest.dropWhile isBlank with
  | nil =>
      have hnext := Walk.ends_nextValue c
      rw [Cursor.nextValue_of_nil hrest] at hnext
      exact ⟨_, hnext⟩
  | cons v left => exact Walk.ends_nextValue_cons hrest

theorem Follows.bind (hx : x.Follows m p) (hf : ∀ a, (f a).Follows n (g a)) : (x >>= f).Follows (m + n) (p >>= g) :=
  fun c => Reads.bind (hx c) fun a d _ _ _ => hf a d

theorem follows_pure (a : α) : (pure a : Attempt α).Follows 0 (pure a) := reads_pure a

theorem follows_taken (f : ComponentValue → Option α) : (taken f).Follows 1 (Production.taken f) := by
  intro c
  have hread := Reads.bind (k := fun s => (f s.1).map (·, s.2)) (follows_value c)
    fun v d _ _ _ => reads_ofOption (f v) d
  have hsame : Production.taken f c.rest = (Production.value c.rest).bind fun s => (f s.1).map (·, s.2) := by
    rw [Production.taken, Production.value]
    cases c.rest.dropWhile isBlank <;> rfl
  rw [hsame]
  exact hread

theorem Follows.gives {r : α × List ComponentValue} (h : x.Follows n p) (hp : p c.rest = some r) :
    ∃ d : Cursor, d.rest = r.2 ∧ c.position + n ≤ d.position ∧ x.Gives c r.1 d := by
  have hread := h c
  rwa [hp] at hread

theorem Follows.fails (h : x.Follows n p) (hp : p c.rest = none) : ∃ d, x.Fails c d := by
  have hread := h c
  rwa [hp] at hread

theorem Follows.rewind (h : x.Follows 1 p) : x.rewind.Performs p where
  follows c := (h c).rewind
  stays c hp := by
    obtain ⟨d, hx⟩ := h.fails hp
    exact hx.rewind

theorem Follows.mono (h : x.Follows n p) (hle : m ≤ n) : x.Follows m p := fun c => (h c).mono hle

/-- What follows the first part always has a result, so without one the first part has gone back. -/
theorem Performs.bind (hx : x.Performs p) (hf : ∀ a, (f a).Follows n (g a)) (hg : ∀ a vs, g a vs ≠ none) :
    (x >>= f).Performs (p >>= g) where
  follows := (hx.follows.bind hf).mono (Nat.le_add_right 1 n)
  stays c hp := by
    refine (hx.stays c ?_).bind f
    rw [Production.bind_apply] at hp
    cases hp' : p c.rest with
    | none => rfl
    | some s =>
        rw [hp'] at hp
        exact absurd hp (hg s.1 s.2)

theorem Performs.map (h : x.Performs p) (k : α → β) :
    (x >>= fun a => pure (k a)).Performs (p >>= fun a => pure (k a)) :=
  h.bind (fun a => follows_pure (k a)) fun _ _ hnone => Option.some_ne_none _ hnone

/-- What is tried second begins where the first has begun. -/
theorem Performs.orElse_follows (hx : x.Performs p) (hy : y.Follows n q) (hn : n ≤ 1) :
    (x <|> y).Follows n (p <|> q) := by
  intro c
  show (x <|> y).Reads n c (p c.rest <|> q c.rest)
  cases hp : p c.rest with
  | some r =>
      obtain ⟨d, hleft, hlt, hgives⟩ := hx.follows.gives hp
      exact ⟨d, hleft, by omega, hgives.orElse y⟩
  | none => exact (hx.stays c hp).reads_orElse (hy c)

theorem Performs.orElse (hx : x.Performs p) (hy : y.Performs q) : (x <|> y).Performs (p <|> q) where
  follows := hx.orElse_follows hy.follows le_rfl
  stays c h := by
    have hor : (p c.rest <|> q c.rest) = none := h
    cases hp : p c.rest with
    | some s =>
        rw [hp] at hor
        cases hor
    | none =>
        rw [hp] at hor
        exact (hx.stays c hp).orElse (hy.stays c hor)

end Attempt

end StyleTree
