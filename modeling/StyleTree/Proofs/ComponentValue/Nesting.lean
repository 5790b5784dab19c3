/-
# `Proofs.ComponentValue.Nesting` — values one behind the other

Nesting is a fold over the lexemes with a stack of open blocks (`push`).
What stands below the innermost open block is not looked at again until
that block is closed.  So a run that leaves no block open stays as it is in
front of what follows (`nest_append`), and one that ends in a token left
none open (`stack_of_concat`).  As to the first value of a text, it is its
first lexeme if that is a token, or else the block that it opens
(`nest_token`, `nest_opening`).
-/
import StyleTree.ComponentValue.Basic

namespace StyleTree.ComponentValue

variable {vs read us : List ComponentValue} {frames : List Frame} {ls ls' : List Lexeme} {t : Token}
variable {o : Opener}

/-- What was read in the innermost open block, latest first, and the open blocks, behind one more
lexeme. -/
def push (p : List ComponentValue × List Frame) : Lexeme → List ComponentValue × List Frame
  | .opening o => ([], ⟨o, p.1⟩ :: p.2)
  | .token t => accept t p.1 p.2

/-- The open blocks behind some lexemes. -/
def stack (ls : List Lexeme) : List ComponentValue × List Frame := ls.foldl push ([], [])

theorem nest_eq_foldl (ls : List Lexeme) : ∀ read frames,
    nest read frames ls = closeAll (ls.foldl push (read, frames)).1 (ls.foldl push (read, frames)).2 := by
  induction ls with
  | nil =>
      intro read frames
      rfl
  | cons l ls ih =>
      intro read frames
      cases l with
      | opening o => exact ih _ _
      | token t => exact ih _ _

theorem ofText_empty : ofText "" = [] := by
  show nest [] [] (Lexeme.scan []) = []
  rw [Lexeme.scan, nest, closeAll, List.reverse_nil]

/-! ## Below the open blocks -/

theorem closeAll_below (vs : List ComponentValue) (o : Opener) (before : List ComponentValue) :
    ∀ (fs : List Frame) (read : List ComponentValue),
    closeAll read (fs ++ [⟨o, before ++ vs⟩]) = vs.reverse ++ closeAll read (fs ++ [⟨o, before⟩])
  | [], read => by
      show (ComponentValue.block o read.reverse :: (before ++ vs)).reverse = _
      rw [← List.cons_append, List.reverse_append]
      rfl
  | f :: fs, read => closeAll_below vs o before fs _

/-- What stands below the open blocks stays in front of all that is read. -/
theorem nest_below (vs : List ComponentValue) (ls : List Lexeme) :
    (∀ read, nest (read ++ vs) [] ls = vs.reverse ++ nest read [] ls) ∧
      ∀ read fs o before, nest read (fs ++ [⟨o, before ++ vs⟩]) ls =
        vs.reverse ++ nest read (fs ++ [⟨o, before⟩]) ls := by
  induction ls with
  | nil =>
      refine ⟨fun read => ?_, fun read fs o before => closeAll_below vs o before fs read⟩
      rw [nest, nest, closeAll, closeAll, List.reverse_append]
  | cons l ls ih =>
      refine ⟨fun read => ?_, fun read fs o before => ?_⟩
      · cases l with
        | opening o => exact ih.2 [] [] o read
        | token t => exact ih.1 (.token t :: read)
      · cases l with
        | opening o' => exact ih.2 [] (⟨o', read⟩ :: fs) o before
        | token t =>
            rw [nest, nest]
            cases fs with
            | nil =>
                unfold accept
                simp only [List.nil_append]
                split
                · exact ih.1 (.block o read.reverse :: before)
                · exact ih.2 (.token t :: read) [] o before
            | cons f fs =>
                unfold accept
                simp only [List.cons_append]
                split
                · exact ih.2 (.block f.opener read.reverse :: f.before) fs o before
                · exact ih.2 (.token t :: read) (f :: fs) o before

theorem nest_token (t : Token) (ls : List Lexeme) :
    nest [] [] (.token t :: ls) = .token t :: nest [] [] ls :=
  (nest_below [.token t] ls).1 []

theorem closeAll_bottom (o : Opener) : ∀ (fs : List Frame) (read : List ComponentValue),
    ∃ contents, closeAll read (fs ++ [⟨o, []⟩]) = [.block o contents]
  | [], read => ⟨read.reverse, rfl⟩
  | _ :: fs, _ => closeAll_bottom o fs _

theorem nest_bottom (o : Opener) (ls : List Lexeme) : ∀ (read : List ComponentValue) (fs : List Frame),
    ∃ contents vs, nest read (fs ++ [⟨o, []⟩]) ls = .block o contents :: vs := by
  induction ls with
  | nil =>
      intro read fs
      obtain ⟨contents, h⟩ := closeAll_bottom o fs read
      exact ⟨contents, [], h⟩
  | cons l ls ih =>
      intro read fs
      cases l with
      | opening o' => exact ih [] (⟨o', read⟩ :: fs)
      | token t =>
          rw [nest]
          cases fs with
          | nil =>
              unfold accept
              simp only [List.nil_append]
              split
              · exact ⟨_, _, (nest_below [.block o read.reverse] ls).1 []⟩
              · exact ih (.token t :: read) []
          | cons f fs =>
              unfold accept
              simp only [List.cons_append]
              split
              · exact ih (.block f.opener read.reverse :: f.before) fs
              · exact ih (.token t :: read) (f :: fs)

/-- A lexeme that opens a block opens the first value. -/
theorem nest_opening (o : Opener) (ls : List Lexeme) :
    ∃ contents vs, nest [] [] (.opening o :: ls) = .block o contents :: vs :=
  nest_bottom o ls [] []

/-! ## Runs that leave no block open -/

theorem nest_of_stack (h : (stack ls).2 = []) : nest [] [] ls = (stack ls).1.reverse := by
  rw [nest_eq_foldl, ← stack, h, closeAll]

/-- A run that leaves no block open is nested by itself, whatever follows it. -/
theorem nest_append (h : (stack ls).2 = []) (ls' : List Lexeme) :
    nest [] [] (ls ++ ls') = nest [] [] ls ++ nest [] [] ls' := by
  have hstack : stack ls = ((stack ls).1, []) := Prod.ext rfl h
  rw [nest_of_stack h, nest_eq_foldl, List.foldl_append, ← stack, hstack, ← nest_eq_foldl]
  exact (nest_below (stack ls).1 ls').1 []

/-- Blocks that are still open at the end are the last value. -/
theorem closeAll_concat (f : Frame) : ∀ (fs : List Frame) (read : List ComponentValue),
    ∃ us o contents, closeAll read (f :: fs) = us ++ [.block o contents]
  | [], read => ⟨f.before.reverse, f.opener, read.reverse, List.reverse_cons⟩
  | g :: fs, _ => closeAll_concat g fs _

/-- The last value has something in it if the innermost open block has. -/
theorem closeAll_concat_of_ne_nil (f : Frame) : ∀ (fs : List Frame) (read : List ComponentValue), read ≠ [] →
    ∃ us o contents, contents ≠ [] ∧ closeAll read (f :: fs) = us ++ [.block o contents]
  | [], read, h => ⟨f.before.reverse, f.opener, read.reverse, fun hnil => h (List.reverse_eq_nil_iff.mp hnil),
      List.reverse_cons⟩
  | g :: fs, _, _ => closeAll_concat_of_ne_nil g fs _ (List.cons_ne_nil _ _)

/-- If a token is the last value, no block is open. -/
theorem stack_of_concat (h : nest [] [] ls = us ++ [.token t]) : (stack ls).2 = [] := by
  rw [nest_eq_foldl, ← stack] at h
  cases hs : (stack ls).2 with
  | nil => rfl
  | cons f fs =>
      obtain ⟨vs, o, contents, hvs⟩ := closeAll_concat f fs (stack ls).1
      rw [hs, hvs] at h
      cases (List.append_inj' h rfl).2

/-- If a block is opened last and is the last value, it is the only one that is open. -/
theorem stack_of_opening_concat (h : nest [] [] (ls ++ [.opening o]) = us ++ [.block o []]) :
    (stack ls).2 = [] ∧ us = (stack ls).1.reverse := by
  have hnest : nest [] [] (ls ++ [.opening o]) = closeAll [] (⟨o, (stack ls).1⟩ :: (stack ls).2) := by
    rw [nest_eq_foldl, List.foldl_append]
    rfl
  rw [hnest] at h
  cases hs : (stack ls).2 with
  | nil =>
      rw [hs, closeAll, closeAll, List.reverse_cons] at h
      exact ⟨rfl, (List.append_inj' h rfl).1.symm⟩
  | cons f fs =>
      have hread : .block o [] :: (stack ls).1 ≠ [] := List.cons_ne_nil _ _
      obtain ⟨vs, o', contents, hne, hvs⟩ := closeAll_concat_of_ne_nil f fs _ hread
      rw [hs] at h
      have hlast := (List.append_inj' (hvs.symm.trans h) rfl).2
      cases hlast
      exact absurd rfl hne

end StyleTree.ComponentValue
