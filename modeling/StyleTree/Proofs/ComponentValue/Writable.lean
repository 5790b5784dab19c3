/-
# `Proofs.ComponentValue.Writable` — texts that are read as the values in them

A text that shows some values, lexeme by lexeme (`Shows`), is read as these
values (`ofText_of_shows`) if no two of its lexemes run together and each
number is read as one that is written alike (`IsPlain`).  The values must be
such as can stand in a text, normalised, at all (`Writable`).

Values that are made of those of a text, by normalising and the like, are
`Writable` because the latter are `Fresh`.  `Replaces us vs` says this of
runs: `us` can be written where `vs` was read.
-/
import StyleTree.Proofs.ComponentValue.RoundTrip

namespace StyleTree

variable {t : Token} {l : Lexeme}

/-! ## Numbers that are written alike -/

theorem Token.isMark_blurred (t : Token) : t.blurred.isMark = t.isMark := by
  cases t <;> rfl

theorem Token.reread_of_isMark (h : t.isMark = true) : t.reread = t :=
  if_neg (by cases t <;> first | exact Bool.false_ne_true | cases h)

/-- What a token is read as from its own text, if that is written alike. -/
def Token.alike (t : Token) : Token :=
  if t.reread.text = t.text ∧ t.reread.isMark = t.isMark then t.reread else t

theorem Token.respells_alike : Token.Respells Token.alike where
  text t := by
    unfold alike
    split
    · next h => exact h.1
    · rfl
  mark t h := by rw [alike, reread_of_isMark h, ite_self]
  other t h := by
    unfold alike
    split
    · next halike => rw [halike.2, h]
    · exact h

theorem Token.Respells.keepsClosing {f : Token → Token} (hf : Token.Respells f) : ComponentValue.KeepsClosing f := by
  intro t b
  cases ht : t.isMark with
  | true => rw [hf.mark t ht]
  | false =>
      refine iff_of_false (fun h => ?_) (by rintro rfl; cases ht)
      have hnot := hf.other t ht
      rw [h] at hnot
      cases hnot

/-- Whether a lexeme is read as one that is written like it; an address is read as a function. -/
def Lexeme.isStable : Lexeme → Bool
  | .token (.url _) => false
  | .token t => t.reread.text == t.text
  | .opening _ => true

theorem Lexeme.reread_eq_respell (hl : l.Legible) (hkeeps : l.keeps = true) (hstable : l.isStable = true) :
    l.reread = l.respell Token.alike := by
  cases l with
  | opening o => rfl
  | token t =>
      have hmark : t.reread.isMark = t.isMark := by
        rw [← Token.isMark_blurred, Lexeme.token.inj (blurred_reread hl hkeeps), Token.isMark_blurred]
      have htext : t.reread.text = t.text := by
        unfold isStable at hstable
        split at hstable
        · cases hstable
        · next h => exact Lexeme.token.inj h ▸ beq_iff_eq.mp hstable
        · next h => cases h
      exact congrArg Lexeme.token (if_pos ⟨htext, hmark⟩).symm

namespace ComponentValue

open Lexeme

variable {v : ComponentValue} {vs us ws : List ComponentValue} {o : Opener}

/-! ## What values have -/

/-- What a value of a text has. -/
structure Fresh (v : ComponentValue) : Prop where
  legible : Each Legible v
  quotes : Quotes v
  closed : Sealed v

/-- What a value has that can be written and read back. -/
structure Writable (v : ComponentValue) : Prop where
  legible : Each Legible v
  neat : Neat v
  closed : Sealed v

/-- The run `us` can be written where `vs` was read: it closes no bracket that `vs` does not close. -/
structure Replaces (us vs : List ComponentValue) : Prop where
  writable : ∀ v ∈ us, Writable v
  close : ∀ b, (.token (.close b) : ComponentValue) ∈ us → (.token (.close b) : ComponentValue) ∈ vs

theorem fresh_ofText (text : String) : ∀ v ∈ ofText text, Fresh v := fun v hv =>
  ⟨eachOf_iff.mp (legible_ofText text) v hv, quotesAll_iff.mp (quotesAll_ofText text) v hv,
    sealedAll_iff.mp (sealedAll_ofText text) v hv⟩

theorem Fresh.of_mem (h : Fresh (.block o vs)) (hv : v ∈ vs) : Fresh v :=
  ⟨eachOf_iff.mp h.legible.2 v hv, quotesAll_iff.mp h.quotes.2 v hv, sealedAll_iff.mp h.closed.2 v hv⟩

theorem writable_token {t : Token} (ht : (Lexeme.token t).Legible) (hurl : ∀ u, t ≠ .url u) :
    Writable (.token t) :=
  ⟨ht, hurl, trivial⟩

theorem writable_ident {n : String} (h : Text.IsName n) : Writable (.token (.ident n)) :=
  writable_token h (by rintro u ⟨⟩)

theorem writable_blank : Writable (.token .blank) := writable_token trivial (by rintro u ⟨⟩)

theorem writable_tidy (h : Fresh v) : Writable (tidy v) :=
  ⟨each_tidy carries_legible v h.legible, neat_tidy v h.quotes, sealed_tidy v h.closed⟩

/-- A block can be written if its contents can, where the contents of a block were read. -/
theorem writable_block (ho : (Lexeme.opening o).Legible)
    (hquoted : OpensUrl (.opening o) → ∃ q ∈ (lexemesOf us).head?, q.IsQuoted)
    (hclose : (.token (.close o.closer) : ComponentValue) ∉ vs) (h : Replaces us vs)
    (hspaced : us.IsChain Spaced) : Writable (.block o us) where
  legible := ⟨ho, eachOf_iff.mpr fun v hv => (h.writable v hv).legible⟩
  neat := ⟨hquoted, hspaced, neatAll_iff.mpr fun v hv => (h.writable v hv).neat⟩
  closed := ⟨fun hmem => hclose (h.close _ hmem), sealedAll_iff.mpr fun v hv => (h.writable v hv).closed⟩

theorem replaces_tidied (h : ∀ v ∈ vs, Fresh v) : Replaces (tidied vs) vs where
  writable v hv := by
    rcases mem_layOut hv with hv | rfl
    · rw [tidyEach_eq_map] at hv
      obtain ⟨u, hu, rfl⟩ := List.mem_map.mp hv
      exact writable_tidy (h u hu)
    · exact writable_blank
  close b hb := by
    rcases mem_layOut hb with hb | hb
    · exact close_mem_tidyEach hb
    · cases hb

theorem Replaces.mono (h : Replaces us ws) (hsub : ∀ v ∈ ws, v ∈ vs) : Replaces us vs :=
  ⟨h.writable, fun b hb => hsub _ (h.close b hb)⟩

/-! ## Plain runs -/

/-- No address without quotes is among the lexemes, and no blank behind a blank. -/
structure Clear (ls : List Lexeme) : Prop where
  address : ∀ u, Lexeme.token (.url u) ∉ ls
  blank : ls.IsChain fun l m => l = .token .blank → m ≠ .token .blank

theorem Clear.of_infix {ls ms : List Lexeme} (h : Clear ls) (hms : ms <:+: ls) : Clear ms :=
  ⟨fun u hu => h.address u (hms.subset hu), h.blank.infix hms⟩

theorem infix_lexemesOf (h : us <:+: vs) : lexemesOf us <:+: lexemesOf vs := by
  obtain ⟨before, behind, rfl⟩ := h
  rw [lexemesOf_append, lexemesOf_append]
  exact ⟨lexemesOf before, lexemesOf behind, rfl⟩

theorem Clear.of_mem (h : Clear (lexemesOf vs)) (hv : v ∈ vs) : Clear (lexemes v) := by
  obtain ⟨before, behind, hsplit⟩ := List.append_of_mem hv
  have hinfix : [v] <:+: vs := ⟨before, behind, by rw [hsplit, List.append_assoc]; rfl⟩
  have hone := h.of_infix (infix_lexemesOf hinfix)
  rwa [lexemesOf, lexemesOf, List.append_nil] at hone

theorem Clear.inside (h : Clear (lexemes (.block o vs))) : Clear (lexemesOf vs) :=
  h.of_infix ⟨[.opening o], [.token (.close o.closer)], rfl⟩

theorem Clear.spaced (h : Clear (lexemesOf vs)) : vs.IsChain Spaced := by
  induction vs with
  | nil => exact .nil
  | cons v vs ih =>
      have hvs := ih (h.of_infix (List.infix_append_right ..))
      cases vs with
      | nil => exact .singleton v
      | cons u us =>
          refine .cons_cons ?_ hvs
          rintro rfl rfl
          exact (List.isChain_cons_cons.mp h.blank).1 rfl rfl

/-- The values are read back from the text that shows them: none of their lexemes runs into the next, and each is read
as one that is written like it. -/
structure IsPlain (vs : List ComponentValue) : Prop where
  apart : areApart (lexemesOf vs) = true
  stable : ∀ l ∈ lexemesOf vs, l.isStable = true
  blank : (lexemesOf vs).IsChain fun l m => l = .token .blank → m ≠ .token .blank

instance (vs : List ComponentValue) : Decidable (IsPlain vs) :=
  decidable_of_iff (areApart (lexemesOf vs) = true ∧ (∀ l ∈ lexemesOf vs, l.isStable = true) ∧
      (lexemesOf vs).IsChain fun l m => l = .token .blank → m ≠ .token .blank)
    ⟨fun h => ⟨h.1, h.2.1, h.2.2⟩, fun h => ⟨h.apart, h.stable, h.blank⟩⟩

theorem IsPlain.clear (h : IsPlain vs) : Clear (lexemesOf vs) := by
  refine ⟨fun u hu => ?_, h.blank⟩
  cases h.stable _ hu

/-! ## Reading back -/

/-- The text consists of the lexemes of the values. -/
def Shows (text : String) (vs : List ComponentValue) : Prop := text.toList = written vs

/-- A text is read as the values that it shows, up to numbers that are written alike. -/
theorem ofText_of_shows {text : String} (htext : Shows text vs) (hvs : ∀ v ∈ vs, Writable v) (h : IsPlain vs) :
    ofText text = vs.map (respell Token.alike) := by
  have hlegible : ∀ l ∈ lexemesOf vs, l.Legible :=
    legible_lexemesOf (eachOf_iff.mpr fun v hv => (hvs v hv).legible)
  have hlaid : Laid (lexemesOf vs) := by
    have hneat : NeatAll vs := neatAll_iff.mpr fun v hv => (hvs v hv).neat
    have hlaid := laid_lexemesOf vs [] hneat h.clear.spaced trivial (by rintro ⟨⟩)
    rwa [List.append_nil] at hlaid
  have hreread : (lexemesOf vs).map reread = (lexemesOf vs).map (Lexeme.respell Token.alike) :=
    List.map_congr_left fun l hl =>
      reread_eq_respell (hlegible l hl) (keeps_of_areApart h.apart l hl) (h.stable l hl)
  calc ofText text
      = nest [] [] (scan (written vs)) := by rw [ofText, show text.toList = written vs from htext]
    _ = nest [] [] ((lexemesOf vs).map (Lexeme.respell Token.alike)) := by
        rw [written, scan_flatMap_write hlegible hlaid h.apart, hreread]
    _ = (nest [] [] (lexemesOf vs)).map (respell Token.alike) :=
        nest_respell Token.respells_alike.keepsClosing _ [] []
    _ = vs.map (respell Token.alike) := by
        rw [nest_lexemesOf (sealedAll_iff.mpr fun v hv => (hvs v hv).closed)]

end ComponentValue

end StyleTree
