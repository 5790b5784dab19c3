/-
# `Proofs.ComponentValue.Layout` — values in the layout they are written in

Writing normalises blanks and writes every URL as a quoted string.
`tidied` does the same to values: what it gives has the text of the values
that it was given, lexeme by lexeme (`toList_textOf`).  It adds nothing but
blanks and strings in place of URLs, at every depth (`each_tidied`,
`sealedAll_tidied`).  Values that are laid out stay as they are when they are
laid out again (`tidied_tidied`), so that their text is the one they came from
(`textOf_tidied`).
-/
import StyleTree.Proofs.ComponentValue.Closing
import StyleTree.Proofs.ComponentValue.Runs
import StyleTree.Proofs.Token.RoundTrip

namespace StyleTree.ComponentValue

variable {g : Gap} {vs us : List ComponentValue} {P Q : Lexeme → Prop}

/-! ## Normalised values -/

/-- A run with normalised blanks: none at either end, none in front of a comma, one behind a comma that is not
last, and one where blanks stood between two other values. -/
def layOut : Gap → List ComponentValue → List ComponentValue
  | _, [] => []
  | .shut, .token .blank :: vs => layOut .shut vs
  | _, .token .blank :: vs => layOut .due vs
  | _, .token .comma :: vs =>
    .token .comma :: ((if vs.any (!·.isBlank) then [.token .blank] else []) ++ layOut .shut vs)
  | g, v :: vs => (if g = .due then [.token .blank] else []) ++ v :: layOut .possible vs

mutual

/-- A value with normalised contents; a URL without quotes becomes one with quotes. -/
def tidy : ComponentValue → ComponentValue
  | .token (.url u) => .block (.function "url") [.token (.string u)]
  | .token t => .token t
  | .block o vs => .block o (layOut .shut (tidyEach vs))

def tidyEach : List ComponentValue → List ComponentValue
  | [] => []
  | v :: vs => tidy v :: tidyEach vs

end

/-- A run with normalised blanks and quoted URLs, at every depth. -/
def tidied (vs : List ComponentValue) : List ComponentValue := layOut .shut (tidyEach vs)

theorem tidy_of_ne_url {t : Token} (h : ∀ u, t ≠ .url u) : tidy (.token t) = .token t := by
  unfold tidy
  split
  · next hu =>
      cases hu
      exact absurd rfl (h _)
  · next ht =>
      cases ht
      rfl
  · next hb => cases hb

/-! ## Their text -/

/-- Values as text, lexeme by lexeme. -/
def written (vs : List ComponentValue) : List Char := (lexemesOf vs).flatMap Lexeme.write

theorem written_append (vs us : List ComponentValue) : written (vs ++ us) = written vs ++ written us := by
  rw [written, lexemesOf_append, List.flatMap_append, written, written]

theorem written_cons (v : ComponentValue) (vs : List ComponentValue) : written (v :: vs) = written [v] ++ written vs :=
  written_append [v] vs

theorem written_token (t : Token) : written [.token t] = t.write := by
  show t.write ++ [] = _
  rw [List.append_nil]

theorem written_block (o : Opener) (vs : List ComponentValue) :
    written [.block o vs] = o.text.toList ++ written vs ++ Token.write (.close o.closer) := by
  show (Lexeme.write (.opening o) ++ ((lexemesOf vs ++ [Lexeme.token (.close o.closer)]) ++ []).flatMap Lexeme.write) = _
  rw [List.append_nil, List.flatMap_append, List.append_assoc]
  show _ ++ (written vs ++ (Token.write (.close o.closer) ++ [])) = _
  rw [List.append_nil]
  rfl

/-- A value as a piece of its run. -/
def piece (v : ComponentValue) : Piece := Piece.of (String.ofList (written [v])) v

theorem piece_ne_blank (v : ComponentValue) : (piece v != .blank) = !v.isBlank := by
  cases v with
  | block o vs => rfl
  | token t => cases t <;> rfl

theorem any_piece (vs : List ComponentValue) : (vs.map piece).any (· != .blank) = vs.any (!·.isBlank) := by
  rw [List.any_map]
  exact congrArg vs.any (funext piece_ne_blank)

theorem piece_of_ne {v : ComponentValue} (hblank : v ≠ .token .blank) (hcomma : v ≠ .token .comma) :
    piece v = .text (String.ofList (written [v])) := by
  unfold piece Piece.of
  split
  · exact absurd rfl hblank
  · exact absurd rfl hcomma
  · rfl

theorem spaced_pieces (g : Gap) (vs : List ComponentValue) :
    spaced g (vs.map piece) = String.ofList (written (layOut g vs)) := by
  fun_induction layOut g vs with
  | case1 => rfl
  | case2 vs ih => exact ih
  | case3 g vs hg ih =>
      cases g with
      | shut => exact absurd rfl hg
      | possible => exact ih
      | due => exact ih
  | case4 g vs ih =>
      have hspaced : spaced g (.comma :: vs.map piece) =
          (if (vs.map piece).any (· != .blank) then ", " else ",") ++ spaced .shut (vs.map piece) := by
        cases g <;> rfl
      show spaced g (.comma :: vs.map piece) = _
      rw [hspaced, any_piece, ih, written_cons, written_append, written_token]
      cases vs.any (!·.isBlank) with
      | true => exact (@String.ofList_append [',', ' '] _).symm
      | false => exact (@String.ofList_append [','] _).symm
  | case5 g v vs _ hblank hcomma ih =>
      have hspaced : spaced g (.text (String.ofList (written [v])) :: vs.map piece) =
          (if g = .due then " " else "") ++ String.ofList (written [v]) ++ spaced .possible (vs.map piece) := by
        cases g <;> rfl
      rw [List.map_cons, piece_of_ne hblank hcomma, hspaced, ih, written_append,
        written_cons v (layOut .possible vs), String.append_assoc, String.ofList_append, String.ofList_append]
      cases g <;> rfl

mutual

theorem text_tidy : ∀ v : ComponentValue, text v = String.ofList (written [tidy v])
  | .token t => by
      by_cases h : ∃ u, t = .url u
      · obtain ⟨u, rfl⟩ := h
        have hopening : Opener.text (.function "url") = "url(" := by decide
        have hclosing : String.ofList (Token.write (.close (Opener.function "url").closer)) = ")" := rfl
        rw [text, Token.text, tidy, written_block, written_token, hopening, String.ofList_append, String.ofList_append,
          String.ofList_toList, hclosing]
        exact String.ofList_toList
      · rw [tidy_of_ne_url (not_exists.mp h), written_token, text, Token.text]
  | .block o vs => by
      have hclose : o.closer.closingText = String.ofList (Token.write (.close o.closer)) := by
        cases o.closer <;> rfl
      rw [text, pieces_tidyEach vs, spaced_pieces, tidy, written_block, hclose, String.ofList_append,
        String.ofList_append, String.ofList_toList]

theorem pieces_tidyEach : ∀ vs : List ComponentValue, pieces vs = (tidyEach vs).map piece
  | [] => rfl
  | v :: vs => by
      have hof : Piece.of (text v) v = piece (tidy v) := by
        rw [text_tidy v]
        cases v with
        | block o vs => rfl
        | token t => cases t <;> rfl
      rw [pieces, hof, pieces_tidyEach vs, tidyEach, List.map_cons]

end

/-- The text of values is that of the tidied ones, lexeme by lexeme. -/
theorem toList_textOf (vs : List ComponentValue) : (textOf vs).toList = written (tidied vs) := by
  rw [textOf, pieces_tidyEach, spaced_pieces, String.toList_ofList, tidied]

/-! ## What they consist of -/

/-- Laying out a run adds blanks and nothing else. -/
theorem mem_layOut {v : ComponentValue} (h : v ∈ layOut g vs) : v ∈ vs ∨ v = .token .blank := by
  fun_induction layOut g vs with
  | case1 => exact Or.inl h
  | case2 vs ih => exact (ih h).imp_left (List.mem_cons_of_mem _)
  | case3 g vs _ ih => exact (ih h).imp_left (List.mem_cons_of_mem _)
  | case4 g vs ih =>
      rcases List.mem_cons.mp h with rfl | h
      · exact Or.inl List.mem_cons_self
      rcases List.mem_append.mp h with h | h
      · refine Or.inr (List.mem_singleton.mp ?_)
        split at h
        · exact h
        · cases h
      · exact (ih h).imp_left (List.mem_cons_of_mem _)
  | case5 g v vs _ _ _ ih =>
      rcases List.mem_append.mp h with h | h
      · refine Or.inr (List.mem_singleton.mp ?_)
        split at h
        · exact h
        · cases h
      rcases List.mem_cons.mp h with rfl | h
      · exact Or.inl List.mem_cons_self
      · exact (ih h).imp_left (List.mem_cons_of_mem _)

theorem eachOf_layOut (hblank : P (.token .blank)) (h : EachOf P vs) : EachOf P (layOut g vs) := by
  refine eachOf_iff.mpr fun v hv => ?_
  rcases mem_layOut hv with hv | rfl
  · exact eachOf_iff.mp h v hv
  · exact hblank

/-- A property that tidying takes over: it goes from an address to the quoted string. -/
structure Carries (P Q : Lexeme → Prop) : Prop where
  blank : Q (.token .blank)
  url : ∀ u, P (.token (.url u)) → Q (.opening (.function "url")) ∧ Q (.token (.string u))
  opening : ∀ o, P (.opening o) → Q (.opening o)
  token : ∀ t, (∀ u, t ≠ .url u) → P (.token t) → Q (.token t)

mutual

theorem each_tidy (hc : Carries P Q) : ∀ v : ComponentValue, Each P v → Each Q (tidy v)
  | .token t => fun h => by
      by_cases hu : ∃ u, t = .url u
      · obtain ⟨u, rfl⟩ := hu
        obtain ⟨hopening, hstring⟩ := hc.url u h
        exact ⟨hopening, hstring, trivial⟩
      · rw [tidy_of_ne_url (not_exists.mp hu)]
        exact hc.token t (not_exists.mp hu) h
  | .block o vs => fun h => ⟨hc.opening o h.1, eachOf_layOut hc.blank (eachOf_tidyEach hc vs h.2)⟩

theorem eachOf_tidyEach (hc : Carries P Q) : ∀ vs : List ComponentValue, EachOf P vs → EachOf Q (tidyEach vs)
  | [] => fun _ => trivial
  | v :: vs => fun h => ⟨each_tidy hc v h.1, eachOf_tidyEach hc vs h.2⟩

end

theorem eachOf_tidied (hc : Carries P Q) (h : EachOf P vs) : EachOf Q (tidied vs) :=
  eachOf_layOut hc.blank (eachOf_tidyEach hc vs h)

theorem sealedAll_layOut (h : SealedAll vs) : SealedAll (layOut g vs) := by
  refine sealedAll_iff.mpr fun v hv => ?_
  rcases mem_layOut hv with hv | rfl
  · exact sealedAll_iff.mp h v hv
  · trivial

/-- A closing bracket is one that was there before. -/
theorem close_mem_tidyEach {b : Bracket} : ∀ {vs : List ComponentValue},
    (.token (.close b) : ComponentValue) ∈ tidyEach vs → (.token (.close b) : ComponentValue) ∈ vs
  | [] => fun h => h
  | v :: vs => fun h => by
      rw [tidyEach] at h
      rcases List.mem_cons.mp h with h | h
      · refine List.mem_cons.mpr (Or.inl ?_)
        cases v with
        | block o vs => cases h
        | token t => cases t <;> first | exact h | cases h
      · exact List.mem_cons_of_mem v (close_mem_tidyEach h)

mutual

theorem sealed_tidy : ∀ v : ComponentValue, Sealed v → Sealed (tidy v)
  | .token t => fun _ => by
      by_cases hu : ∃ u, t = .url u
      · obtain ⟨u, rfl⟩ := hu
        refine ⟨fun h => ?_, trivial, trivial⟩
        cases List.mem_singleton.mp h
      · rw [tidy_of_ne_url (not_exists.mp hu)]
        trivial
  | .block o vs => fun h => by
      refine ⟨fun hmem => ?_, sealedAll_layOut (sealedAll_tidyEach vs h.2)⟩
      rcases mem_layOut hmem with hmem | hmem
      · exact h.1 (close_mem_tidyEach hmem)
      · cases hmem

theorem sealedAll_tidyEach : ∀ vs : List ComponentValue, SealedAll vs → SealedAll (tidyEach vs)
  | [] => fun _ => trivial
  | v :: vs => fun h => ⟨sealed_tidy v h.1, sealedAll_tidyEach vs h.2⟩

end

theorem sealedAll_tidied (h : SealedAll vs) : SealedAll (tidied vs) := sealedAll_layOut (sealedAll_tidyEach vs h)

/-! ## Laying out twice -/

theorem tidyEach_eq_map (vs : List ComponentValue) : tidyEach vs = vs.map tidy := by
  induction vs with
  | nil => rfl
  | cons v vs ih => rw [tidyEach, ih, List.map_cons]

theorem layOut_comma (g : Gap) (vs : List ComponentValue) : layOut g (.token .comma :: vs) =
    .token .comma :: ((if vs.any (!·.isBlank) then [.token .blank] else []) ++ layOut .shut vs) := by
  cases g <;> rfl

theorem layOut_cons {v : ComponentValue} (hblank : v.isBlank = false) (hcomma : v.isComma = false) (g : Gap)
    (vs : List ComponentValue) :
    layOut g (v :: vs) = (if g = .due then [.token .blank] else []) ++ v :: layOut .possible vs := by
  cases v with
  | block o us => cases g <;> rfl
  | token t =>
      cases t <;> first
        | (cases g <;> rfl)
        | exact absurd hblank (by decide)
        | exact absurd hcomma (by decide)

theorem withoutBlanks_layOut (g : Gap) (vs : List ComponentValue) : withoutBlanks (layOut g vs) = withoutBlanks vs := by
  have hnone : ∀ (p : Prop) [Decidable p] (us : List ComponentValue),
      withoutBlanks ((if p then [.token .blank] else []) ++ us) = withoutBlanks us := by
    intro p _ us
    split <;> rfl
  fun_induction layOut g vs with
  | case1 => rfl
  | case2 vs ih => exact ih
  | case3 g vs _ ih => exact ih
  | case4 g vs ih => exact congrArg (ComponentValue.token .comma :: ·) ((hnone _ _).trans ih)
  | case5 g v vs _ _ _ ih =>
      rw [hnone, withoutBlanks, withoutBlanks, List.filter_cons, List.filter_cons]
      exact congrArg (fun us => if (!v.isBlank) = true then v :: us else us) ih

theorem any_not_isBlank (vs : List ComponentValue) : vs.any (!·.isBlank) = !(withoutBlanks vs).isEmpty := by
  induction vs with
  | nil => rfl
  | cons v vs ih =>
      rw [List.any_cons, ih, withoutBlanks, withoutBlanks, List.filter_cons]
      cases v.isBlank <;> rfl

theorem all_isBlank (vs : List ComponentValue) : vs.all isBlank = (withoutBlanks vs).isEmpty := by
  rw [← Bool.not_inj_iff, ← any_not_isBlank, List.not_all_eq_any_not]

/-- A run in which blanks stay blanks and commas stay commas is laid out in the same way. -/
theorem map_layOut {f : ComponentValue → ComponentValue} (hf : KeepsMarks f) (g : Gap) (vs : List ComponentValue) :
    (layOut g vs).map f = layOut g (vs.map f) := by
  have hfblank : f (.token .blank) = .token .blank := (hf _ .blank rfl).mpr rfl
  have hfcomma : f (.token .comma) = .token .comma := (hf _ .comma rfl).mpr rfl
  have hgap : ∀ (p : Prop) [Decidable p], (if p then [(.token .blank : ComponentValue)] else []).map f =
      if p then [.token .blank] else [] := by
    intro p _
    split
    · rw [List.map_singleton, hfblank]
    · rfl
  fun_induction layOut g vs with
  | case1 => cases ‹Gap› <;> rfl
  | case2 vs ih => rw [ih, List.map_cons, hfblank, layOut]
  | case3 g vs hg ih =>
      rw [ih, List.map_cons, hfblank, layOut]
      exact hg
  | case4 g vs ih =>
      have hany : (vs.map f).any (!·.isBlank) = vs.any (!·.isBlank) := by
        rw [List.any_map]
        exact congrArg vs.any (funext fun v => congrArg _ (hf.isBlank v))
      rw [List.map_cons, List.map_append, hgap, ih, List.map_cons, hfcomma, layOut_comma, hany]
  | case5 g v vs _ hvblank hvcomma ih =>
      have hb : (f v).isBlank = false := (hf.isBlank v).trans (Bool.eq_false_iff.mpr fun h => hvblank (isBlank_iff.mp h))
      have hc : (f v).isComma = false := (hf.isComma v).trans (Bool.eq_false_iff.mpr fun h => hvcomma (isComma_iff.mp h))
      rw [List.map_append, hgap, List.map_cons, ih, List.map_cons, layOut_cons hb hc]

/-- What is due before a run has been written in its front. -/
def Gap.opened : Gap → Gap
  | .due => .possible
  | g => g

theorem layOut_layOut (g : Gap) (vs : List ComponentValue) : layOut g.opened (layOut g vs) = layOut g vs := by
  fun_induction layOut g vs with
  | case1 => cases ‹Gap› <;> rfl
  | case2 vs ih => exact ih
  | case3 g vs hg ih =>
      cases g with
      | shut => exact absurd rfl hg
      | possible => exact ih
      | due => exact ih
  | case4 g vs ih =>
      have hsame : ∀ us, layOut .shut ((if vs.any (!·.isBlank) then [.token .blank] else []) ++ us) =
          layOut .shut us := by
        intro us
        split <;> rfl
      have hany : ∀ b : Bool,
          ((if b then [(.token .blank : ComponentValue)] else []) ++ layOut .shut vs).any (!·.isBlank) =
            vs.any (!·.isBlank) := by
        intro b
        rw [List.any_append, any_not_isBlank (layOut .shut vs), withoutBlanks_layOut, ← any_not_isBlank]
        cases b <;> rfl
      rw [layOut_comma, hsame, hany]
      exact congrArg (fun us => ComponentValue.token .comma :: (_ ++ us)) ih
  | case5 g v vs _ hvblank hvcomma ih =>
      have hb : v.isBlank = false := Bool.eq_false_iff.mpr fun h => hvblank (isBlank_iff.mp h)
      have hc : v.isComma = false := Bool.eq_false_iff.mpr fun h => hvcomma (isComma_iff.mp h)
      have hrest : layOut .possible (layOut .possible vs) = layOut .possible vs := ih
      cases g with
      | shut =>
          show layOut .shut (v :: layOut .possible vs) = _
          rw [layOut_cons hb hc, hrest]
      | possible =>
          show layOut .possible (v :: layOut .possible vs) = _
          rw [layOut_cons hb hc, hrest]
      | due =>
          show layOut .due (v :: layOut .possible vs) = _
          rw [layOut_cons hb hc, hrest]

theorem keepsMarks_tidy : KeepsMarks tidy := by
  intro v t ht
  cases v with
  | block o vs => exact iff_of_false (by rintro ⟨⟩) (by rintro ⟨⟩)
  | token x => cases x <;> first | exact Iff.rfl | exact iff_of_false (by rintro ⟨⟩) (by rintro ⟨⟩; cases ht)

theorem tidyEach_layOut (g : Gap) (vs : List ComponentValue) : tidyEach (layOut g vs) = layOut g (tidyEach vs) := by
  rw [tidyEach_eq_map, tidyEach_eq_map, map_layOut keepsMarks_tidy]

mutual

theorem tidy_tidy : ∀ v : ComponentValue, tidy (tidy v) = tidy v
  | .token t => by
      by_cases hu : ∃ u, t = .url u
      · obtain ⟨u, rfl⟩ := hu
        rfl
      · rw [tidy_of_ne_url (not_exists.mp hu), tidy_of_ne_url (not_exists.mp hu)]
  | .block o vs => by
      rw [tidy, tidy, tidyEach_layOut, tidyEach_tidyEach vs]
      exact congrArg (ComponentValue.block o) (layOut_layOut .shut (tidyEach vs))

theorem tidyEach_tidyEach : ∀ vs : List ComponentValue, tidyEach (tidyEach vs) = tidyEach vs
  | [] => rfl
  | v :: vs => by rw [tidyEach, tidyEach, tidy_tidy v, tidyEach_tidyEach vs]

end

theorem tidied_layOut (vs : List ComponentValue) : tidied (layOut .shut vs) = tidied vs := by
  rw [tidied, tidied, tidyEach_layOut]
  exact layOut_layOut .shut (tidyEach vs)

theorem tidied_tidied (vs : List ComponentValue) : tidied (tidied vs) = tidied vs := by
  rw [tidied, tidied, tidyEach_layOut, tidyEach_tidyEach]
  exact layOut_layOut .shut (tidyEach vs)

theorem textOf_eq_of_tidied {us : List ComponentValue} (h : tidied vs = tidied us) : textOf vs = textOf us := by
  rw [← String.toList_inj, toList_textOf, toList_textOf, h]

/-- Tidying values does not change their text. -/
theorem textOf_tidied (vs : List ComponentValue) : textOf (tidied vs) = textOf vs :=
  textOf_eq_of_tidied (tidied_tidied vs)

theorem withoutBlanks_tidied (vs : List ComponentValue) : withoutBlanks (tidied vs) = (withoutBlanks vs).map tidy := by
  rw [tidied, withoutBlanks_layOut, tidyEach_eq_map, withoutBlanks_map keepsMarks_tidy.isBlank]

/-! ## The ends of a run -/

theorem head?_layOut_shut (vs : List ComponentValue) : (layOut .shut vs).head? ≠ some (.token .blank) := by
  induction vs with
  | nil => rintro ⟨⟩
  | cons v vs ih =>
      cases hblank : v.isBlank with
      | true =>
          rw [isBlank_iff.mp hblank]
          exact ih
      | false =>
          cases hcomma : v.isComma with
          | true =>
              rw [isComma_iff.mp hcomma]
              rintro ⟨⟩
          | false =>
              rw [layOut_cons hblank hcomma]
              intro h
              rw [Option.some.inj h] at hblank
              cases hblank

theorem getLast?_layOut (g : Gap) (vs : List ComponentValue) : (layOut g vs).getLast? ≠ some (.token .blank) := by
  fun_induction layOut g vs with
  | case1 => rintro ⟨⟩
  | case2 vs ih => exact ih
  | case3 g vs _ ih => exact ih
  | case4 g vs ih =>
      rw [← List.cons_append, List.getLast?_append]
      cases hrest : layOut .shut vs with
      | cons u us =>
          rw [hrest] at ih
          rw [List.getLast?_eq_some_getLast (List.cons_ne_nil u us)] at ih ⊢
          exact ih
      | nil =>
          -- nothing but blanks is behind the comma, so it is the last value
          have hany : vs.any (!·.isBlank) = false := by
            rw [any_not_isBlank, ← withoutBlanks_layOut .shut, hrest]
            rfl
          rw [hany]
          rintro ⟨⟩
  | case5 g v vs _ hvblank _ ih =>
      rw [List.getLast?_append, List.getLast?_cons, Option.some_or]
      intro h
      cases hrest : (layOut .possible vs).getLast? with
      | none =>
          rw [hrest] at h
          exact hvblank (Option.some.inj h)
      | some u =>
          rw [hrest] at h ih
          exact ih h

theorem trim_tidied (vs : List ComponentValue) : trim (tidied vs) = tidied vs := by
  refine trim_of_ends (fun v hv => Bool.eq_false_iff.mpr fun h => ?_) fun v hv => Bool.eq_false_iff.mpr fun h => ?_
  · rw [isBlank_iff.mp h] at hv
    exact head?_layOut_shut _ hv
  · rw [isBlank_iff.mp h] at hv
    exact getLast?_layOut _ _ hv

end StyleTree.ComponentValue
