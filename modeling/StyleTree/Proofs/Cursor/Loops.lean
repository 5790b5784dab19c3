/-
# `Proofs.Cursor.Loops` — the loops of the grammar

Each loop of the grammar takes what it can from the place on and collects it,
the texts of a list of values in `ts`, say.  A loop is followed by induction
on what its production recurses on, and that is bounded by what is left: the
segments of a layer name cost a point and a name each, the values of a list a
comma and a value, the terms of a condition a keyword and a term.  So the loop
ends.  A repetition is bounded by its number of turns besides.
-/
import StyleTree.Proofs.Cursor.Attempts

namespace StyleTree

open ComponentValue

variable {c d : Cursor} {v : ComponentValue} {vs left : List ComponentValue} {o : Option ComponentValue}

namespace Attempt

/-! ## Layer names -/

/-- An identifier. -/
def ident : Attempt String := rewind (taken ident?)

/-- An identifier that spells `w`. -/
def word (w : String) : Attempt Unit := rewind (taken fun v => if v.isWord w then some () else none)

/-- The segments behind those in `ss`, each behind a point. -/
def moreSegments (ss : List String) : Attempt (List String) := loop (fun ss => do
  match ← step Walk.peek with
  | some v =>
    if v.isDelim '.' then
      let _ ← step Walk.next
      let w ← next
      let s ← ofOption (LayerName.segment? w)
      return .inr (ss ++ [s])
    else return .inl ss
  | none => return .inl ss) ss

/-- A layer name; no blanks stand between its segments. -/
def layerName : Attempt LayerName := rewind do
  let s ← ident
  if Name.isCustom s then
    let ss ← moreSegments [s]
    return ⟨ss⟩
  else failure

theorem performs_ident : ident.Performs Production.ident := (follows_taken ident?).rewind

theorem performs_word (w : String) : (word w).Performs (Production.word w) := (follows_taken _).rewind

theorem ends_peek_cons (h : c.rest = v :: left) : Walk.peek.Ends c (some v) c := by
  have hpeek := Walk.ends_peek c
  rwa [Cursor.peek, h] at hpeek

theorem ends_peek_nil (h : c.rest = []) : Walk.peek.Ends c none c := by
  have hpeek := Walk.ends_peek c
  rwa [Cursor.peek, h] at hpeek

theorem ends_next_cons (h : c.rest = v :: left) : Walk.next.Ends c (some v) (c.leave left) := by
  have hnext := Walk.ends_next c
  rwa [Cursor.next, h] at hnext

theorem gives_next (h : c.rest = v :: left) : next.Gives c v (c.leave left) := ends_next_cons h

theorem fails_next (h : c.rest = []) : next.Fails c c := by
  have hnext := Walk.ends_next c
  rwa [Cursor.next, h] at hnext

/-- The last turn adds nothing. -/
theorem Gives.reads_stop {body : List String → Attempt (List String ⊕ List String)} {ts : List String}
    (h : (body ts).Gives c (.inl ts) d) (hle : c.position ≤ d.position) :
    (loop body ts).Reads 0 c (some (ts ++ [], d.rest)) := by
  rw [List.append_nil]
  exact ⟨d, rfl, hle, h.stop⟩

/-- By the segments that the production finds. -/
theorem reads_moreSegments (ss : List String) (c : Cursor) :
    (moreSegments ss).Reads 0 c ((LayerName.moreSegments c.rest).map fun r => (ss ++ r.1, r.2)) := by
  induction hrest : c.rest using LayerName.moreSegments.induct generalizing c ss with
  | case1 v vs s hs ih =>
      have hpoint : v :: vs <:+ c.rest := hrest ▸ List.suffix_cons _ _
      have hname : (c.leave (v :: vs)).rest = v :: vs := Cursor.rest_leave hpoint
      have hmore : vs <:+ (c.leave (v :: vs)).rest := by rw [hname]; exact List.suffix_cons v vs
      have hread := ih (ss ++ [s]) _ (Cursor.rest_leave hmore)
      simp only [List.append_assoc, List.singleton_append] at hread
      rw [LayerName.moreSegments, hs, Option.map_map]
      refine Gives.reads_loop ?_ ((Cursor.le_leave hpoint).trans (Cursor.le_leave hmore)) hread
      refine (gives_step (ends_peek_cons hrest)).bind ((gives_step (ends_next_cons hrest)).bind ?_)
      refine (gives_next hname).bind ?_
      rw [hs]
      exact (gives_pure s _).bind (gives_pure _ _)
  | case2 v vs hs =>
      have hname : (c.leave (v :: vs)).rest = v :: vs := Cursor.rest_leave (hrest ▸ List.suffix_cons _ _)
      rw [LayerName.moreSegments, hs]
      refine ⟨(c.leave (v :: vs)).leave vs, Fails.stop ?_⟩
      refine (gives_step (ends_peek_cons hrest)).bind ((gives_step (ends_next_cons hrest)).bind ?_)
      refine (gives_next hname).bind ?_
      rw [hs]
      exact (fails_ofOption _).bind _
  | case3 =>
      rw [LayerName.moreSegments]
      refine ⟨c.leave [], Fails.stop ?_⟩
      refine (gives_step (ends_peek_cons hrest)).bind ((gives_step (ends_next_cons hrest)).bind ?_)
      exact (fails_next (Cursor.rest_leave List.nil_suffix)).bind _
  | case4 vs hmore hlast =>
      -- no point stands in front, so this turn is the last
      rw [LayerName.moreSegments, ← hrest]
      · refine Gives.reads_stop ?_ le_rfl
        cases vs with
        | nil => exact (gives_step (ends_peek_nil hrest)).bind (gives_pure _ c)
        | cons v left =>
            have hdelim : ¬v.isDelim '.' = true := by
              intro hv
              obtain rfl := isDelim_iff.mp hv
              cases left with
              | nil => exact hlast rfl
              | cons w left => exact hmore w left rfl
            refine (gives_step (ends_peek_cons hrest)).bind ?_
            dsimp only
            rw [if_neg hdelim]
            exact gives_pure _ c
      · exact hmore
      · exact hlast

theorem segment?_eq (v : ComponentValue) :
    LayerName.segment? v = v.ident?.bind fun s => if Name.isCustom s then some s else none := by
  cases v with
  | token t => cases t <;> rfl
  | block o vs => rfl

theorem performs_layerName : layerName.Performs LayerName.production := by
  refine Follows.rewind fun c => ?_
  have hsame : LayerName.production c.rest = (Production.ident c.rest).bind fun s =>
      if Name.isCustom s.1 then (LayerName.moreSegments s.2).map fun r => (⟨s.1 :: r.1⟩, r.2) else none := by
    rw [LayerName.production, Production.bind_apply, Production.ident]
    cases hrest : c.rest.dropWhile isBlank with
    | nil => rw [Production.taken_of_nil hrest, Production.taken_of_nil hrest]; rfl
    | cons v left =>
        rw [Production.taken_of_cons hrest, Production.taken_of_cons hrest, segment?_eq]
        cases v.ident? with
        | none => rfl
        | some s =>
            rw [Option.bind_some, Option.map_some, Option.bind_some]
            split
            · show (LayerName.moreSegments left).bind _ = _
              rw [Option.map_eq_bind]
              rfl
            · rfl
  rw [hsame]
  refine Reads.bind (n := 0) (performs_ident.follows c) fun s d _ _ _ => ?_
  split
  · have hmore := (reads_moreSegments [s] d).map LayerName.mk
    rwa [Option.map_map] at hmore
  · exact reads_failure d

/-! ## Repetitions and lists -/

/-- Results behind those in `as`, as long as there is one more. -/
def repeatedly {α : Type} (x : Attempt α) (as : List α) : Walk (List α) := Walk.loop (fun as => do
  match ← x.run with
  | some a => return .inr (as ++ [a])
  | none => return .inl as) as

/-- Values behind those with the texts `ts`, as long as there are fewer than `most` and one more can be read. -/
def further (one : Attempt String) (most : Nat) (ts : List String) : Walk (List String) := Walk.loop (fun ts => do
  if ts.length < most then
    match ← one.run with
    | some t => return .inr (ts ++ [t])
    | none => return .inl ts
  else return .inl ts) ts

/-- Values behind those with the texts `ts`, each behind a comma. -/
def behindCommas (one : Attempt String) (ts : List String) : Attempt (List String) := loop (fun ts => do
  match ← step Walk.peekValue with
  | some v =>
    if v.isComma then
      let _ ← step Walk.nextValue
      let t ← one
      return .inr (ts ++ [t])
    else return .inl ts
  | none => return .inl ts) ts

variable {one : Attempt String} {p : Production String}

/-- By what is left, which is less after each result. -/
theorem ends_repeatedly {α : Type} {x : Attempt α} {p : Production α} (h : x.Performs p) (as : List α) (c : Cursor) :
    ∃ bs d, (repeatedly x as).Ends c bs d ∧ p d.rest = none := by
  induction hlen : c.rest.length using Nat.strongRecOn generalizing as c with
  | ind n ih =>
      subst hlen
      cases hp : p c.rest with
      | none => exact ⟨as, c, .stop (Walk.Ends.bind (h.stays c hp) (Walk.ends_pure _ c)), hp⟩
      | some s =>
          obtain ⟨d, -, hlt, hgives⟩ := h.follows.gives hp
          have hshort := Cursor.length_rest_le hgives.1 hlt
          obtain ⟨bs, e, hends, hnone⟩ := ih d.rest.length (by omega) (as ++ [s.1]) d rfl
          exact ⟨bs, e, .again (Walk.Ends.bind hgives (Walk.ends_pure _ d)) hends, hnone⟩

/-- By the number of values that may follow. -/
theorem ends_further (hone : one.Performs p) (most more : Nat) (ts : List String) (hmost : most - ts.length = more)
    (c : Cursor) : ∃ us d, ValueKind.upTo p more c.rest = some (us, d.rest) ∧ c.position ≤ d.position ∧
      (further one most ts).Ends c (ts ++ us) d := by
  induction more generalizing ts c with
  | zero =>
      refine ⟨[], c, rfl, le_rfl, ?_⟩
      rw [List.append_nil]
      refine .stop ?_
      rw [if_neg (by omega)]
      exact Walk.ends_pure _ c
  | succ more ih =>
      have hroom : ts.length < most := by omega
      rw [Production.upTo_succ]
      cases hp : p c.rest with
      | none =>
          refine ⟨[], c, rfl, le_rfl, ?_⟩
          rw [List.append_nil]
          refine .stop ?_
          rw [if_pos hroom]
          exact Walk.Ends.bind (hone.stays c hp) (Walk.ends_pure _ c)
      | some s =>
          obtain ⟨d, hleft, hlt, hgives⟩ := hone.follows.gives hp
          have hmore : most - (ts ++ [s.1]).length = more := by
            rw [List.length_append, List.length_singleton]
            omega
          obtain ⟨us, e, hus, hle, hends⟩ := ih (ts ++ [s.1]) hmore d
          refine ⟨s.1 :: us, e, ?_, by omega, ?_⟩
          · rw [Option.bind_some, ← hleft, hus]
            rfl
          · rw [List.append_assoc, List.singleton_append] at hends
            refine .again ?_ hends
            rw [if_pos hroom]
            exact Walk.Ends.bind hgives (Walk.ends_pure _ d)

/-- By what is left: every value costs a comma besides. -/
theorem reads_behindCommas (hone : one.Performs p) (fuel : Nat) (ts : List String) (c : Cursor)
    (hfuel : c.rest.length ≤ fuel) :
    (behindCommas one ts).Reads 0 c ((ValueKind.behindCommas p fuel c.rest).map fun r => (ts ++ r.1, r.2)) := by
  induction fuel generalizing ts c with
  | zero =>
      have hnil : c.rest = [] := List.length_eq_zero_iff.mp (Nat.le_zero.mp hfuel)
      have hpeek := Walk.ends_peekValue c
      rw [Cursor.peekValue, hnil] at hpeek
      exact Gives.reads_stop ((gives_step hpeek).bind (gives_pure _ c)) le_rfl
  | succ fuel ih =>
      have hpeek := Walk.ends_peekValue c
      rw [Cursor.peekValue] at hpeek
      cases hrest : c.rest.dropWhile isBlank with
      | nil =>
          rw [hrest] at hpeek
          rw [Production.behindCommas_of_not_comma (Production.taken_of_nil hrest)]
          exact Gives.reads_stop ((gives_step hpeek).bind (gives_pure _ c)) le_rfl
      | cons v left =>
          have hcomma := ValueKind.comma_of_cons hrest
          rw [hrest, List.head?_cons] at hpeek
          by_cases hv : v.isComma = true
          · rw [if_pos hv] at hcomma
            rw [Production.behindCommas_of_comma hcomma, Option.map_bind]
            obtain ⟨d, rfl, hlt, hnext⟩ := Walk.ends_nextValue_cons hrest
            refine Reads.loop (m := 1) (u := fun t => ts ++ [t]) ?_ fun t e he hle _ => ?_
            · refine (gives_step hpeek).before le_rfl ?_
              dsimp only
              rw [if_pos hv]
              exact (gives_step hnext).before (Nat.le_of_lt hlt) ((hone.follows d).map fun t => Sum.inr (ts ++ [t]))
            · have hshort := Cursor.length_rest_le he hle
              have hread := ih (ts ++ [t]) e (by omega)
              simp only [List.append_assoc, List.singleton_append] at hread
              rw [Function.comp_apply, Option.map_map]
              exact hread
          · rw [if_neg hv] at hcomma
            rw [Production.behindCommas_of_not_comma hcomma]
            refine Gives.reads_stop ((gives_step hpeek).bind ?_) le_rfl
            dsimp only
            rw [if_neg hv]
            exact gives_pure _ c

/-! ## Sources of fonts -/

/-- Another run is read from its beginning; the place in this one stays where it is. -/
def onRun {α : Type} (vs : List ComponentValue) (x : Attempt α) : Attempt α :=
  OptionT.mk fun _ n => (do let r ← x.run vs 0; return (r.1, n) : ExceptT OutOfRange Part (Option α × Nat))

/-- The hints behind those with the texts `ts`, to the end of the run. -/
def hints (ts : List String) : Attempt (List String) := loop (fun ts => do
  match ← step Walk.nextValue with
  | some v =>
    let t ← ofOption (ValueKind.fontHint v)
    return .inr (ts ++ [t])
  | none => return .inl ts) ts

/-- The address that `v` is, with hints behind it. -/
def addressed (v : ComponentValue) : Attempt String := do
  let address ← ofOption (ValueKind.urlValue v)
  let ts ← hints [address]
  return Text.joined " " ts

/-- A local font, or an address with hints behind it. -/
def fontSource : Attempt String := do
  let v ← value
  match ValueKind.functionAmong ["local"] v with
  | some t =>
    finished
    return t
  | none => addressed v

/-- By what is left, blanks aside. -/
theorem reads_hints (ts : List String) (c : Cursor) :
    (hints ts).Reads 0 c (((withoutBlanks c.rest).mapM ValueKind.fontHint).map fun us => (ts ++ us, [])) := by
  induction hvs : withoutBlanks c.rest generalizing ts c with
  | nil =>
      have hrest := dropWhile_of_withoutBlanks hvs
      have hnext := Walk.ends_nextValue c
      rw [Cursor.nextValue_of_nil hrest] at hnext
      have hstop : (hints ts).Reads 0 c (some (ts ++ [], c.skipBlanks.rest)) :=
        Gives.reads_stop ((gives_step hnext).bind (gives_pure _ _)) (Cursor.le_leave (List.dropWhile_suffix isBlank))
      rw [Cursor.rest_skipBlanks, hrest] at hstop
      exact hstop
  | cons v ws ih =>
      obtain ⟨left, hrest, hws⟩ := exists_dropWhile hvs
      obtain ⟨d, rfl, hlt, hnext⟩ := Walk.ends_nextValue_cons hrest
      have hmore : (((v :: ws).mapM ValueKind.fontHint).map fun us => (ts ++ us, ([] : List ComponentValue))) =
          ((ValueKind.fontHint v).map (·, d.rest)).bind fun r =>
            (ws.mapM ValueKind.fontHint).map fun us => (ts ++ [r.1] ++ us, []) := by
        rw [List.mapM_cons]
        simp only [List.append_assoc, List.singleton_append]
        cases ValueKind.fontHint v <;> cases ws.mapM ValueKind.fontHint <;> rfl
      rw [hmore]
      refine Reads.loop (m := 0) (u := fun t => ts ++ [t]) ?_ fun t e _ _ ht => ?_
      · exact (gives_step hnext).before (Nat.le_of_lt hlt)
          ((reads_ofOption (ValueKind.fontHint v) d).map fun t => Sum.inr (ts ++ [t]))
      · obtain ⟨t', -, heq⟩ := Option.map_eq_some_iff.mp ht
        obtain ⟨-, hleft⟩ := Prod.mk.inj heq
        exact ih (ts ++ [t]) e (hleft ▸ hws)

/-- Reading another run as a whole. -/
theorem ends_onRun {α : Type} {vs : List ComponentValue} {x : Attempt α} {a : Option α} {d : Cursor}
    (h : Walk.Ends x.run (.start vs) a d) (c : Cursor) : Walk.Ends (onRun vs x).run c a c := by
  refine ⟨rfl, ?_⟩
  show Part.bind (x.run (Cursor.start vs).values (Cursor.start vs).position) _ = _
  rw [h.2, Part.bind_some]
  rfl

/-- The text of an address with hints behind it. -/
def addressedText? (v : ComponentValue) (ws : List ComponentValue) : Option String :=
  (ValueKind.urlValue v).bind fun address => (ws.mapM ValueKind.fontHint).bind fun us =>
    some (Text.joined " " (address :: us))

theorem reads_addressed (v : ComponentValue) (c : Cursor) :
    (addressed v).Reads 0 c ((addressedText? v (withoutBlanks c.rest)).map (·, [])) := by
  rw [addressed, addressedText?]
  cases ValueKind.urlValue v with
  | none => exact ⟨c, (fails_ofOption c).bind _⟩
  | some address =>
      have hhints := (reads_hints [address] c).map (Text.joined " ")
      rw [Option.map_map, Option.map_eq_bind] at hhints
      refine (gives_pure address c).before le_rfl ?_
      rw [Option.bind_some, Option.map_bind]
      exact hhints

theorem ends_fontSource (part : List ComponentValue) :
    ∃ d, Walk.Ends fontSource.run (.start part) (ValueKind.fontSource? part) d := by
  rw [ValueKind.fontSource?]
  have hvalue := follows_value (.start part)
  cases hpart : withoutBlanks part with
  | nil =>
      rw [Production.value, show (Cursor.start part).rest = part from rfl, dropWhile_of_withoutBlanks hpart] at hvalue
      obtain ⟨d, hd⟩ := hvalue
      exact ⟨d, hd.bind _⟩
  | cons v ws =>
      obtain ⟨left, hrest, hws⟩ := exists_dropWhile hpart
      rw [Production.value, show (Cursor.start part).rest = part from rfl, hrest] at hvalue
      obtain ⟨d, rfl, -, hv⟩ := hvalue
      dsimp only
      cases hlocal : ValueKind.functionAmong ["local"] v with
      | some t =>
          have hends := ends_bind (k := fun _ => some t) (ends_finished d) fun _ => gives_pure t d
          rw [Cursor.isExhausted, all_isBlank, hws] at hends
          refine ⟨d, hv.bind ?_⟩
          rw [hlocal]
          cases hempty : ws.isEmpty with
          | true =>
              rw [hempty] at hends
              exact hends
          | false =>
              rw [hempty] at hends
              exact hends
      | none =>
          have hread := reads_addressed v d
          rw [hws] at hread
          obtain ⟨e, he⟩ := hread.exists_ends
          refine ⟨e, hv.bind ?_⟩
          rw [hlocal]
          have hsame : ((addressedText? v ws).map (·, ([] : List ComponentValue))).map Prod.fst =
              addressedText? v ws := by
            cases addressedText? v ws <;> rfl
          rw [hsame] at he
          exact he

theorem ends_mapM {α β : Type} {f : α → Attempt β} {g : α → Option β} (h : ∀ a c, Walk.Ends (f a).run c (g a) c)
    (as : List α) (c : Cursor) : Walk.Ends (as.mapM f).run c (as.mapM g) c := by
  induction as with
  | nil => exact gives_pure [] c
  | cons a as ih =>
      rw [List.mapM_cons, List.mapM_cons]
      exact ends_bind (h a c) fun b => ends_bind ih fun bs => gives_pure (b :: bs) c

end Attempt

end StyleTree
