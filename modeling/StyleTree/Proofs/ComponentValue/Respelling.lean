/-
# `Proofs.ComponentValue.Respelling` — other tokens in the same places

`respell f` puts `f t` in the place of every token `t` of a value, at every
depth.  Nesting depends on the closing brackets among the tokens, so if `f`
keeps these and makes no other one (`KeepsClosing`), it is all the same
whether it is applied to the lexemes or to what they nest to
(`nest_respell`).

If `f` changes nothing but numbers and addresses, and these to such as are
written alike (`Token.Respells`), the text of values stays the same
(`textOf_respell`).
-/
import StyleTree.ComponentValue.Text
import StyleTree.Proofs.ComponentValue.Lexemes
import StyleTree.Proofs.ComponentValue.Runs

namespace StyleTree

/-- The function keeps what a token is written as, and changes none but numbers and addresses. -/
structure Token.Respells (f : Token → Token) : Prop where
  text : ∀ t, (f t).text = t.text
  mark : ∀ t, t.isMark = true → f t = t
  other : ∀ t, t.isMark = false → (f t).isMark = false

/-- A lexeme with another token. -/
def Lexeme.respell (f : Token → Token) : Lexeme → Lexeme
  | .token t => .token (f t)
  | .opening o => .opening o

namespace ComponentValue

mutual

/-- A value with other tokens in it, at every depth. -/
def respell (f : Token → Token) : ComponentValue → ComponentValue
  | .token t => .token (f t)
  | .block o vs => .block o (respellEach f vs)

def respellEach (f : Token → Token) : List ComponentValue → List ComponentValue
  | [] => []
  | v :: vs => respell f v :: respellEach f vs

end

variable {f : Token → Token}

theorem respellEach_eq_map (f : Token → Token) (vs : List ComponentValue) : respellEach f vs = vs.map (respell f) := by
  induction vs with
  | nil => rfl
  | cons v vs ih => rw [respellEach, ih, List.map_cons]

theorem respell_block (f : Token → Token) (o : Opener) (vs : List ComponentValue) :
    respell f (.block o vs) = .block o (vs.map (respell f)) := by
  rw [respell, respellEach_eq_map]

/-! ## Nesting -/

/-- Closing brackets stay, and no other token becomes one. -/
def KeepsClosing (f : Token → Token) : Prop := ∀ t b, f t = .close b ↔ t = .close b

/-- An open block with other tokens in front. -/
def Frame.respell (f : Token → Token) (x : Frame) : Frame := ⟨x.opener, x.before.map (ComponentValue.respell f)⟩

theorem closeAll_respell : ∀ (frames : List Frame) (read : List ComponentValue),
    closeAll (read.map (respell f)) (frames.map (Frame.respell f)) = (closeAll read frames).map (respell f)
  | [], read => List.map_reverse.symm
  | x :: xs, read => by
      rw [List.map_cons, closeAll, closeAll, ← closeAll_respell xs, List.map_cons, respell_block, List.map_reverse]
      rfl

theorem accept_respell (hf : KeepsClosing f) (t : Token) (read : List ComponentValue) (frames : List Frame) :
    accept (f t) (read.map (respell f)) (frames.map (Frame.respell f)) =
      ((accept t read frames).1.map (respell f), (accept t read frames).2.map (Frame.respell f)) := by
  cases frames with
  | nil => rfl
  | cons x xs =>
      have hcloses : f t = .close (Frame.respell f x).opener.closer ↔ t = .close x.opener.closer := hf t _
      unfold accept
      simp only [List.map_cons, hcloses]
      split
      · rw [List.map_cons, respell_block, List.map_reverse]
        rfl
      · rfl

theorem nest_respell (hf : KeepsClosing f) (ls : List Lexeme) : ∀ (read : List ComponentValue) (frames : List Frame),
    nest (read.map (respell f)) (frames.map (Frame.respell f)) (ls.map (Lexeme.respell f)) =
      (nest read frames ls).map (respell f) := by
  induction ls with
  | nil => exact fun read frames => closeAll_respell frames read
  | cons l ls ih =>
      intro read frames
      cases l with
      | opening o => exact ih [] (⟨o, read⟩ :: frames)
      | token t =>
          show nest (accept (f t) _ _).1 (accept (f t) _ _).2 _ = _
          rw [accept_respell hf]
          exact ih _ _

/-! ## Tokens that are written alike -/

theorem keepsMarks_respell (hf : Token.Respells f) : KeepsMarks (respell f) := by
  intro v t ht
  cases v with
  | block o vs => exact iff_of_false (by rintro ⟨⟩) (by rintro ⟨⟩)
  | token x =>
      rw [respell, ComponentValue.token.injEq, ComponentValue.token.injEq]
      constructor
      · intro h
        cases hx : x.isMark with
        | true => rw [← h, hf.mark x hx]
        | false =>
            have hnot := hf.other x hx
            rw [h, ht] at hnot
            cases hnot
      · rintro rfl
        exact hf.mark x ht

/-- A piece is a blank or a comma if the value is one. -/
theorem Piece.of_congr {u v : ComponentValue} (hblank : u.isBlank = v.isBlank) (hcomma : u.isComma = v.isComma)
    (s : String) : Piece.of s u = Piece.of s v := by
  have hpiece : ∀ w : ComponentValue,
      Piece.of s w = if w.isBlank then .blank else if w.isComma then .comma else .text s := by
    intro w
    cases w with
    | block o ws => rfl
    | token t => cases t <;> rfl
  rw [hpiece, hpiece, hblank, hcomma]

mutual

theorem text_respell (hf : Token.Respells f) : ∀ v : ComponentValue, text (respell f v) = text v
  | .token t => hf.text t
  | .block o vs => by rw [respell, text, text, pieces_respellEach hf vs]

theorem pieces_respellEach (hf : Token.Respells f) : ∀ vs : List ComponentValue, pieces (respellEach f vs) = pieces vs
  | [] => rfl
  | v :: vs => by
      have hmarks := keepsMarks_respell hf
      rw [respellEach, pieces, pieces, text_respell hf v, Piece.of_congr (hmarks.isBlank v) (hmarks.isComma v),
        pieces_respellEach hf vs]

end

theorem textOf_respell (hf : Token.Respells f) (vs : List ComponentValue) : textOf (vs.map (respell f)) = textOf vs := by
  rw [← respellEach_eq_map, textOf, pieces_respellEach hf, textOf]

end ComponentValue

end StyleTree
