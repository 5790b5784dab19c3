/-
# `Proofs.ComponentValue.Closing` — from lexemes to values and back

The lexemes of the values of a text are those of the text, and behind them
the brackets that were missing at its end (`lexemesOf_ofText`).  No block
of them contains the bracket that closes it (`sealedAll_ofText`), so they
are what their own lexemes nest to.
-/
import StyleTree.Proofs.ComponentValue.Lexemes

namespace StyleTree.ComponentValue

variable {read : List ComponentValue} {frames : List Frame} {t : Token}

/-! ## Blocks do not contain what closes them -/

/-- What stands in the open blocks does not close them. -/
def Guarded : List ComponentValue → List Frame → Prop
  | read, [] => SealedAll read
  | read, f :: fs =>
    SealedAll read ∧ (.token (.close f.opener.closer) : ComponentValue) ∉ read ∧ Guarded f.before fs

theorem sealedAll_reverse (h : SealedAll read) : SealedAll read.reverse :=
  sealedAll_iff.mpr fun v hv => sealedAll_iff.mp h v (List.mem_reverse.mp hv)

/-- A value that is sealed and does not close the innermost open block. -/
theorem Guarded.cons {v : ComponentValue} (h : Guarded read frames) (hv : Sealed v) (hopen : StaysOpen frames [v]) :
    Guarded (v :: read) frames := by
  cases frames with
  | nil => exact ⟨hv, h⟩
  | cons f fs =>
      refine ⟨⟨hv, h.1⟩, fun hmem => ?_, h.2.2⟩
      rcases List.mem_cons.mp hmem with hmem | hmem
      · exact hopen f rfl (List.mem_singleton.mpr hmem)
      · exact h.2.1 hmem

theorem staysOpen_block (frames : List Frame) (o : Opener) (vs : List ComponentValue) :
    StaysOpen frames [.block o vs] := by
  intro f _ hmem
  cases List.mem_singleton.mp hmem

/-- The innermost open block is closed. -/
theorem Guarded.close {f : Frame} {fs : List Frame} (h : Guarded read (f :: fs)) :
    Guarded (.block f.opener read.reverse :: f.before) fs :=
  h.2.2.cons ⟨fun hmem => h.2.1 (List.mem_reverse.mp hmem), sealedAll_reverse h.1⟩ (staysOpen_block _ _ _)

theorem sealedAll_closeAll : ∀ {frames : List Frame} {read : List ComponentValue}, Guarded read frames →
    SealedAll (closeAll read frames)
  | [], _, h => sealedAll_reverse h
  | _ :: fs, _, h => @sealedAll_closeAll fs _ h.close

theorem guarded_accept (t : Token) (h : Guarded read frames) :
    Guarded (accept t read frames).1 (accept t read frames).2 := by
  cases frames with
  | nil => exact ⟨trivial, h⟩
  | cons f fs =>
      unfold accept
      simp only
      split
      · exact h.close
      · next ht =>
          refine h.cons trivial fun g hg hmem => ht ?_
          cases hg
          cases List.mem_singleton.mp hmem
          rfl

theorem sealedAll_nest (ls : List Lexeme) : ∀ {read : List ComponentValue} {frames : List Frame}, Guarded read frames →
    SealedAll (nest read frames ls) := by
  induction ls with
  | nil => exact sealedAll_closeAll
  | cons l ls ih =>
      intro read frames h
      cases l with
      | opening o => exact ih ⟨trivial, List.not_mem_nil, h⟩
      | token t => exact ih (guarded_accept t h)

theorem sealedAll_ofText (text : String) : SealedAll (ofText text) := sealedAll_nest _ trivial

/-! ## The lexemes of the values of a text -/

/-- The lexemes that make the open blocks and what stands in them. -/
def unclosed : List ComponentValue → List Frame → List Lexeme
  | read, [] => lexemesOf read.reverse
  | read, f :: fs => unclosed f.before fs ++ .opening f.opener :: lexemesOf read.reverse

theorem unclosed_cons (v : ComponentValue) (read : List ComponentValue) (frames : List Frame) :
    unclosed (v :: read) frames = unclosed read frames ++ lexemes v := by
  have hsnoc : lexemesOf (v :: read).reverse = lexemesOf read.reverse ++ lexemes v := by
    rw [List.reverse_cons, lexemesOf_append, lexemesOf, lexemesOf, List.append_nil]
  cases frames with
  | nil => exact hsnoc
  | cons f fs => rw [unclosed, unclosed, hsnoc, List.append_assoc, List.cons_append]

theorem unclosed_close (read : List ComponentValue) (f : Frame) (fs : List Frame) :
    unclosed (.block f.opener read.reverse :: f.before) fs =
      unclosed read (f :: fs) ++ [.token (.close f.opener.closer)] := by
  rw [unclosed_cons, lexemes, unclosed, List.append_assoc, List.cons_append]

theorem unclosed_accept (t : Token) (read : List ComponentValue) (frames : List Frame) :
    unclosed (accept t read frames).1 (accept t read frames).2 = unclosed read frames ++ [.token t] := by
  cases frames with
  | nil => exact unclosed_cons (.token t) read []
  | cons f fs =>
      unfold accept
      simp only
      split
      · next ht =>
          rw [ht]
          exact unclosed_close read f fs
      · exact unclosed_cons (.token t) read (f :: fs)

theorem lexemesOf_closeAll : ∀ (frames : List Frame) (read : List ComponentValue), ∃ bs : List Bracket,
    lexemesOf (closeAll read frames) = unclosed read frames ++ bs.map fun b => .token (.close b)
  | [], read => ⟨[], (List.append_nil _).symm⟩
  | f :: fs, read => by
      obtain ⟨bs, h⟩ := lexemesOf_closeAll fs (.block f.opener read.reverse :: f.before)
      refine ⟨f.opener.closer :: bs, ?_⟩
      rw [closeAll, h, unclosed_close, List.append_assoc]
      rfl

theorem lexemesOf_nest (ls : List Lexeme) : ∀ (read : List ComponentValue) (frames : List Frame), ∃ bs : List Bracket,
    lexemesOf (nest read frames ls) = unclosed read frames ++ (ls ++ bs.map fun b => .token (.close b)) := by
  induction ls with
  | nil => exact fun read frames => lexemesOf_closeAll frames read
  | cons l ls ih =>
      intro read frames
      cases l with
      | opening o =>
          obtain ⟨bs, h⟩ := ih [] (⟨o, read⟩ :: frames)
          refine ⟨bs, h.trans ?_⟩
          rw [unclosed, List.append_assoc]
          rfl
      | token t =>
          obtain ⟨bs, h⟩ := ih (accept t read frames).1 (accept t read frames).2
          refine ⟨bs, h.trans ?_⟩
          rw [unclosed_accept, List.append_assoc]
          rfl

/-- The lexemes of the values of a text are its own, and brackets that close what is open at its end. -/
theorem lexemesOf_ofText (text : String) : ∃ bs : List Bracket,
    lexemesOf (ofText text) = Lexeme.scan text.toList ++ bs.map fun b => .token (.close b) :=
  lexemesOf_nest _ [] []

/-! ## Lexemes that leave no block open -/

theorem unclosed_push (p : List ComponentValue × List Frame) (l : Lexeme) :
    unclosed (push p l).1 (push p l).2 = unclosed p.1 p.2 ++ [l] := by
  cases l with
  | opening o => rfl
  | token t => exact unclosed_accept t p.1 p.2

/-- The open blocks are made of the lexemes that were read. -/
theorem unclosed_stack (ls : List Lexeme) : unclosed (stack ls).1 (stack ls).2 = ls := by
  have hfold : ∀ (ls : List Lexeme) (p : List ComponentValue × List Frame),
      unclosed (ls.foldl push p).1 (ls.foldl push p).2 = unclosed p.1 p.2 ++ ls := by
    intro ls
    induction ls with
    | nil => exact fun p => (List.append_nil _).symm
    | cons l ls ih =>
        intro p
        rw [List.foldl_cons, ih, unclosed_push, List.append_assoc, List.singleton_append]
  exact hfold ls ([], [])

/-- If no block is left open, the values are made of just the lexemes that were read. -/
theorem lexemesOf_nest_of_stack {ls : List Lexeme} (h : (stack ls).2 = []) : lexemesOf (nest [] [] ls) = ls := by
  have hstack := unclosed_stack ls
  rw [h, unclosed] at hstack
  rw [nest_of_stack h, hstack]

end StyleTree.ComponentValue
