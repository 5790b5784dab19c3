/-
# `Proofs.ComponentValue.RoundTrip` — values are read as they were written

The text of values is read back as the values with normalised blanks and
quoted URLs (`tokens_read_back_of_areApart`), if no two of its lexemes run
together and each shows what it is (`Lexeme.areApart`).  Not every
text satisfies this: `a/**/b` is written `ab`, and `a.5` is written `a0.5`.

Three facts about the lexemes of normalised values take the place of what
the condition leaves open (`Lexeme.Laid`): no blank is behind a blank, no
address is without quotes, and the function of URLs begins with a string.
The last is how that function is told from an address when it is read
(`heralded_scan`); from the lexemes it goes over to the values
(`quotesAll_of_heralded`), and from them to the normalised ones.
-/
import StyleTree.Proofs.ComponentValue.Layout
import StyleTree.Proofs.ComponentValue.Respelling

namespace StyleTree

open Scan

variable {c : Char} {cs rest : List Char} {l : Lexeme} {ls ls' : List Lexeme}

namespace Lexeme

/-! ## Lexemes one behind the other -/

/-- It opens the function of URLs. -/
def OpensUrl (l : Lexeme) : Prop := ∃ n, l = .opening (.function n) ∧ Text.sameWord n "url" = true

/-- A string, broken off or not. -/
def IsQuoted : Lexeme → Prop
  | .token (.string _) | .token (.badString _) => True
  | _ => False

/-- The lexeme may stand in front of the others as normalised values have it. -/
structure Precedes (l : Lexeme) (ls : List Lexeme) : Prop where
  url : ∀ u, l ≠ .token (.url u)
  blank : l = .token .blank → ls.head? ≠ some (.token .blank)
  quoted : l.OpensUrl → ∃ q ∈ ls.head?, q.IsQuoted

/-- Every lexeme is fit to stand in front of those behind it. -/
def Laid : List Lexeme → Prop
  | [] => True
  | l :: ls => l.Precedes ls ∧ Laid ls

/-- Whether each lexeme shows what it is and ends in front of the text of those behind it. -/
def areApart : List Lexeme → Bool
  | [] => true
  | l :: ls => l.keeps && l.isApart (ls.flatMap write) && areApart ls

theorem IsQuoted.startsQuoted (h : l.IsQuoted) (rest : List Char) : startsQuoted (l.write ++ rest) = true := by
  unfold IsQuoted at h
  split at h
  · rfl
  · rfl
  · exact h.elim

theorem eq_of_blurred_eq_blank (h : l.blurred = .token .blank) : l = .token .blank := by
  cases l with
  | opening o => cases h
  | token t => cases t <;> first | rfl | cases h

theorem reread_ne_blank (hl : l.Legible) (hkeeps : l.keeps = true) (h : l ≠ .token .blank) :
    l.reread ≠ .token .blank := by
  intro hblank
  have hblurred := blurred_reread hl hkeeps
  rw [hblank] at hblurred
  exact h (eq_of_blurred_eq_blank hblurred.symm)

/-- Lexemes that are apart are read back. -/
theorem scan_flatMap_write (hlegible : ∀ l ∈ ls, l.Legible) (hlaid : Laid ls) (hapart : areApart ls = true) :
    scan (ls.flatMap write) = ls.map reread := by
  induction ls with
  | nil =>
      rw [List.flatMap_nil, scan]
      rfl
  | cons l ls ih =>
      obtain ⟨hl, hls⟩ := List.forall_mem_cons.mp hlegible
      unfold areApart at hapart
      rw [Bool.and_eq_true, Bool.and_eq_true] at hapart
      obtain ⟨⟨hkeeps, hends⟩, hapart⟩ := hapart
      obtain ⟨hprecedes, hlaid⟩ := hlaid
      have hread := ih hls hlaid hapart
      have hblank : l = .token .blank → ∀ ms, scan (ls.flatMap write) ≠ .token .blank :: ms := by
        intro hl ms hscan
        rw [hread] at hscan
        cases ls with
        | nil => cases hscan
        | cons m ls =>
            unfold areApart at hapart
            rw [Bool.and_eq_true, Bool.and_eq_true] at hapart
            have hm : m ≠ .token .blank := fun hm => hprecedes.blank hl (congrArg some hm)
            exact reread_ne_blank (hls m List.mem_cons_self) hapart.1.1 hm (List.cons.inj hscan).1
      have hquoted : ∀ n, l = .opening (.function n) → Text.sameWord n "url" = true →
          startsQuoted (ls.flatMap write) = true := by
        intro n hn hurl
        obtain ⟨q, hq, hquoted⟩ := hprecedes.quoted ⟨n, hn, hurl⟩
        obtain ⟨ms, rfl⟩ := List.head?_eq_some_iff.mp hq
        exact hquoted.startsQuoted _
      rw [List.flatMap_cons, scan_write hl hkeeps hends hprecedes.url hblank hquoted, hread, List.map_cons]

theorem keeps_of_areApart (h : areApart ls = true) : ∀ l ∈ ls, l.keeps = true := by
  induction ls with
  | nil => exact fun l hl => absurd hl List.not_mem_nil
  | cons l ls ih =>
      unfold areApart at h
      rw [Bool.and_eq_true, Bool.and_eq_true] at h
      exact List.forall_mem_cons.mpr ⟨h.1.1, ih h.2⟩

/-- What is read back is the same up to the digits of numbers that are no integers. -/
theorem map_blurred_reread (hlegible : ∀ l ∈ ls, l.Legible) (hapart : areApart ls = true) :
    (ls.map reread).map blurred = ls.map blurred := by
  rw [List.map_map]
  exact List.map_congr_left fun l hl => blurred_reread (hlegible l hl) (keeps_of_areApart hapart l hl)

/-! ## The function of URLs -/

/-- A string is the first of the lexemes, blanks aside. -/
def Heralds (ls : List Lexeme) : Prop := ∃ q ∈ (ls.dropWhile (· == .token .blank)).head?, q.IsQuoted

/-- A string is behind every opening of a function of URLs, blanks aside. -/
def Heralded : List Lexeme → Prop
  | [] => True
  | l :: ls => (l.OpensUrl → Heralds ls) ∧ Heralded ls

theorem heralds_cons (hl : l ≠ .token .blank) : Heralds (l :: ls) ↔ l.IsQuoted := by
  unfold Heralds
  rw [List.dropWhile_cons_of_neg (by simpa using hl)]
  simp

theorem Heralds.append (h : Heralds ls) (ls' : List Lexeme) : Heralds (ls ++ ls') := by
  induction ls with
  | nil =>
      obtain ⟨q, hq, -⟩ := h
      cases hq
  | cons l ls ih =>
      by_cases hl : l = .token .blank
      · subst hl
        exact ih h
      · exact (heralds_cons hl).mpr ((heralds_cons hl).mp h)

theorem Heralded.append (h : Heralded ls) (h' : Heralded ls') : Heralded (ls ++ ls') := by
  induction ls with
  | nil => exact h'
  | cons l ls ih => exact ⟨fun hl => (h.1 hl).append ls', ih h.2⟩

theorem Heralded.of_append (h : Heralded (ls ++ ls')) : Heralded ls' := by
  induction ls with
  | nil => exact h
  | cons l ls ih => exact ih h.2

theorem heralded_closes (bs : List Bracket) : Heralded (bs.map fun b => .token (.close b)) := by
  induction bs with
  | nil => trivial
  | cons b bs ih =>
      refine ⟨?_, ih⟩
      rintro ⟨n, ⟨⟩, -⟩

theorem heralds_scan_quote (hc : c = '"' ∨ c = '\'') (cs : List Char) : Heralds (scan (c :: cs)) := by
  have hnext : next c cs = (some (.token (stringToken c cs).1), (stringToken c cs).2) := by
    rcases hc with rfl | rfl <;> rfl
  have hquoted : IsQuoted (.token (stringToken c cs).1) := by
    simp only [stringToken]
    split <;> trivial
  rw [scan_of_next hnext]
  refine (heralds_cons fun hblank => ?_).mpr hquoted
  rw [hblank] at hquoted
  exact hquoted

theorem heralds_scan (h : startsQuoted cs = true) : Heralds (scan cs) := by
  have hskipped : ∀ ds, startsQuoted ds = true → Heralds (scan (skipBlanks ds)) := by
    intro ds hds
    unfold startsQuoted at hds
    split at hds
    · next c es hskip =>
        rw [hskip]
        rw [Bool.or_eq_true, beq_iff_eq, beq_iff_eq] at hds
        exact heralds_scan_quote hds es
    · cases hds
  cases cs with
  | nil => cases h
  | cons c cs =>
      have hboth := hskipped _ h
      unfold skipBlanks at hboth
      by_cases hc : isBlank c = true
      · rw [List.dropWhile_cons_of_pos hc] at hboth
        rw [scan_of_next (next_blank hc)]
        exact hboth
      · rwa [List.dropWhile_cons_of_neg hc] at hboth

/-- Where a function of URLs is read, a string follows. -/
theorem startsQuoted_of_next {n : String} (h : next c cs = (some (.opening (.function n)), rest))
    (hurl : Text.sameWord n "url" = true) : startsQuoted rest = true := by
  unfold next at h
  split at h
  · cases h
  split at h
  · cases h
  split at h
  · next hfixed =>
      cases h
      unfold fixed at hfixed
      split at hfixed <;> cases hfixed
  split at h
  · cases h
  split at h
  · simp only [identLike] at h
    split at h
    · split at h
      · cases h
      · next hunquoted =>
          cases h
          rw [hurl, Bool.true_and, Bool.not_eq_true', Bool.not_eq_false] at hunquoted
          exact hunquoted
    · cases h
  · unfold other at h
    split at h
    · cases h
    split at h
    · cases h
    · split at h <;> cases h

theorem heralded_scan (cs : List Char) : Heralded (scan cs) := by
  induction cs using scan.induct with
  | case1 =>
      rw [scan]
      trivial
  | case2 c cs _ ih =>
      rw [scan]
      cases hnext : (next c cs).1 with
      | none => exact ih
      | some l =>
          refine ⟨?_, ih⟩
          rintro ⟨n, rfl, hurl⟩
          exact heralds_scan (startsQuoted_of_next (Prod.ext hnext rfl) hurl)

end Lexeme

namespace ComponentValue

open Lexeme

variable {o : Opener} {vs us : List ComponentValue} {g : Gap}

/-! ## What values of a text have -/

/-- A string is the first of the values, blanks aside. -/
def StartsQuoted : List ComponentValue → Prop
  | .token .blank :: vs => StartsQuoted vs
  | .token t :: _ => IsQuoted (.token t)
  | _ => False

mutual

/-- A function of URLs begins with a string, at every depth. -/
def Quotes : ComponentValue → Prop
  | .token _ => True
  | .block o vs => (OpensUrl (.opening o) → StartsQuoted vs) ∧ QuotesAll vs

def QuotesAll : List ComponentValue → Prop
  | [] => True
  | v :: vs => Quotes v ∧ QuotesAll vs

end

theorem quotesAll_iff : QuotesAll vs ↔ ∀ v ∈ vs, Quotes v := by
  induction vs with
  | nil => simp [QuotesAll]
  | cons v vs ih => rw [QuotesAll, ih, List.forall_mem_cons]

theorem startsQuoted_cons {t : Token} (ht : t ≠ .blank) : StartsQuoted (.token t :: vs) ↔ IsQuoted (.token t) := by
  unfold StartsQuoted
  split
  · next h =>
      cases h
      exact absurd rfl ht
  · next h =>
      cases h
      rfl
  · next h => exact absurd rfl (h _ _)

theorem startsQuoted_of_heralds {b : Bracket} : ∀ {vs : List ComponentValue},
    Heralds (lexemesOf vs ++ .token (.close b) :: ls) → StartsQuoted vs
  | [] => fun h => (heralds_cons (by rintro ⟨⟩)).mp h
  | .block o vs :: us => fun h => ((heralds_cons (by rintro ⟨⟩)).mp h).elim
  | .token t :: vs => fun h => by
      by_cases ht : t = .blank
      · subst ht
        exact (startsQuoted_of_heralds h : StartsQuoted vs)
      · exact (startsQuoted_cons ht).mpr ((heralds_cons fun hblank => ht (Lexeme.token.inj hblank)).mp h)

mutual

theorem quotes_of_heralded : ∀ (v : ComponentValue) (ls : List Lexeme), Heralded (lexemes v ++ ls) → Quotes v
  | .token _, _ => fun _ => trivial
  | .block o vs, ls => fun h => by
      have hsplit : lexemes (.block o vs) ++ ls = .opening o :: (lexemesOf vs ++ .token (.close o.closer) :: ls) := by
        rw [lexemes, List.cons_append, List.append_assoc]
        rfl
      rw [hsplit] at h
      exact ⟨fun ho => startsQuoted_of_heralds (h.1 ho), quotesAll_of_heralded vs _ h.2⟩

theorem quotesAll_of_heralded : ∀ (vs : List ComponentValue) (ls : List Lexeme),
    Heralded (lexemesOf vs ++ ls) → QuotesAll vs
  | [], _ => fun _ => trivial
  | v :: vs, ls => fun h => by
      rw [lexemesOf, List.append_assoc] at h
      exact ⟨quotes_of_heralded v _ h, quotesAll_of_heralded vs ls h.of_append⟩

end

theorem quotesAll_ofText (text : String) : QuotesAll (ofText text) := by
  obtain ⟨bs, h⟩ := lexemesOf_ofText text
  refine quotesAll_of_heralded (ofText text) [] ?_
  rw [List.append_nil, h]
  exact (heralded_scan _).append (heralded_closes bs)

/-! ## What normalised values have -/

/-- Not two blanks. -/
def Spaced (v u : ComponentValue) : Prop := v = .token .blank → u ≠ .token .blank

mutual

/-- No address is without quotes, no blank is behind a blank, and a function of URLs begins with a string. -/
def Neat : ComponentValue → Prop
  | .token t => ∀ u, t ≠ .url u
  | .block o vs =>
    (OpensUrl (.opening o) → ∃ q ∈ (lexemesOf vs).head?, q.IsQuoted) ∧ vs.IsChain Spaced ∧ NeatAll vs

def NeatAll : List ComponentValue → Prop
  | [] => True
  | v :: vs => Neat v ∧ NeatAll vs

end

theorem neatAll_iff : NeatAll vs ↔ ∀ v ∈ vs, Neat v := by
  induction vs with
  | nil => simp [NeatAll]
  | cons v vs ih => rw [NeatAll, ih, List.forall_mem_cons]

theorem isChain_cons {v : ComponentValue} (hv : v ≠ .token .blank) (h : us.IsChain Spaced) :
    (v :: us).IsChain Spaced := by
  cases us with
  | nil => exact .singleton v
  | cons u us => exact .cons_cons (fun hblank => absurd hblank hv) h

theorem isChain_blank (hus : us.head? ≠ some (.token .blank)) (h : us.IsChain Spaced) :
    (.token .blank :: us).IsChain Spaced := by
  cases us with
  | nil => exact .singleton _
  | cons u us => exact .cons_cons (fun _ hu => hus (congrArg some hu)) h

theorem isChain_layOut (g : Gap) (vs : List ComponentValue) : (layOut g vs).IsChain Spaced := by
  fun_induction layOut g vs with
  | case1 => exact .nil
  | case2 vs ih => exact ih
  | case3 g vs _ ih => exact ih
  | case4 g vs ih =>
      refine isChain_cons (by rintro ⟨⟩) ?_
      split
      · exact isChain_blank (head?_layOut_shut vs) ih
      · exact ih
  | case5 g v vs _ hblank _ ih =>
      have hchain := isChain_cons (fun h => hblank h) ih
      split
      · exact isChain_blank (fun h => hblank (Option.some.inj h)) hchain
      · exact hchain

theorem head?_layOut_of_startsQuoted : ∀ vs : List ComponentValue, StartsQuoted vs →
    ∃ q ∈ (lexemesOf (layOut .shut (tidyEach vs))).head?, q.IsQuoted
  | [] => fun h => h.elim
  | .block _ _ :: _ => fun h => h.elim
  | .token t :: vs => fun h => by
      by_cases hblank : t = .blank
      · subst hblank
        exact head?_layOut_of_startsQuoted vs h
      · have hquoted := (startsQuoted_cons hblank).mp h
        cases t <;> first | exact ⟨_, rfl, hquoted⟩ | exact hquoted.elim

mutual

theorem neat_tidy : ∀ v : ComponentValue, Quotes v → Neat (tidy v)
  | .token t => fun _ => by
      by_cases hu : ∃ u, t = .url u
      · obtain ⟨u, rfl⟩ := hu
        exact ⟨fun _ => ⟨_, rfl, trivial⟩, .singleton _, by rintro _ ⟨⟩, trivial⟩
      · rw [tidy_of_ne_url (not_exists.mp hu)]
        exact not_exists.mp hu
  | .block o vs => fun h => by
      refine ⟨fun ho => head?_layOut_of_startsQuoted vs (h.1 ho), isChain_layOut _ _, neatAll_iff.mpr fun v hv => ?_⟩
      rcases mem_layOut hv with hv | rfl
      · exact neatAll_iff.mp (neatAll_tidyEach vs h.2) v hv
      · rintro u ⟨⟩

theorem neatAll_tidyEach : ∀ vs : List ComponentValue, QuotesAll vs → NeatAll (tidyEach vs)
  | [] => fun _ => trivial
  | v :: vs => fun h => ⟨neat_tidy v h.1, neatAll_tidyEach vs h.2⟩

end

theorem neatAll_tidied (h : QuotesAll vs) : NeatAll (tidied vs) := by
  refine neatAll_iff.mpr fun v hv => ?_
  rcases mem_layOut hv with hv | rfl
  · exact neatAll_iff.mp (neatAll_tidyEach vs h) v hv
  · rintro u ⟨⟩

/-! ## Their lexemes -/

theorem head?_lexemes_ne_blank {v : ComponentValue} (hv : v ≠ .token .blank) (ls : List Lexeme) :
    (lexemes v ++ ls).head? ≠ some (.token .blank) := by
  cases v with
  | token t =>
      intro h
      cases h
      exact hv rfl
  | block o vs => rintro ⟨⟩

mutual

theorem laid_lexemes : ∀ (v : ComponentValue) (ls : List Lexeme), Neat v → Laid ls →
    (v = .token .blank → ls.head? ≠ some (.token .blank)) → Laid (lexemes v ++ ls)
  | .token t, ls => fun h hls hblank =>
      ⟨⟨fun u hu => h u (Lexeme.token.inj hu), fun ht => hblank (congrArg _ (Lexeme.token.inj ht)),
        by rintro ⟨n, ⟨⟩, -⟩⟩, hls⟩
  | .block o vs, ls => fun h hls _ => by
      have hsplit : lexemes (.block o vs) ++ ls = .opening o :: (lexemesOf vs ++ .token (.close o.closer) :: ls) := by
        rw [lexemes, List.cons_append, List.append_assoc]
        rfl
      rw [hsplit]
      have hclose : Laid (.token (.close o.closer) :: ls) :=
        ⟨⟨by rintro u ⟨⟩, by rintro ⟨⟩, by rintro ⟨n, ⟨⟩, -⟩⟩, hls⟩
      refine ⟨⟨by rintro u ⟨⟩, by rintro ⟨⟩, fun ho => ?_⟩, laid_lexemesOf vs _ h.2.2 h.2.1 hclose (by rintro ⟨⟩)⟩
      obtain ⟨q, hq, hquoted⟩ := h.1 ho
      exact ⟨q, List.mem_head?_append_of_mem_head? hq, hquoted⟩

theorem laid_lexemesOf : ∀ (vs : List ComponentValue) (ls : List Lexeme), NeatAll vs → vs.IsChain Spaced → Laid ls →
    ls.head? ≠ some (.token .blank) → Laid (lexemesOf vs ++ ls)
  | [], ls => fun _ _ hls _ => hls
  | v :: vs, ls => fun h hchain hls hblank => by
      rw [lexemesOf, List.append_assoc]
      refine laid_lexemes v _ h.1 (laid_lexemesOf vs ls h.2 hchain.tail hls hblank) fun hv => ?_
      cases vs with
      | nil => exact hblank
      | cons u us =>
          rw [lexemesOf, List.append_assoc]
          exact head?_lexemes_ne_blank ((List.isChain_cons_cons.mp hchain).1 hv) _

end

theorem laid_tidied (text : String) : Laid (lexemesOf (tidied (ofText text))) := by
  have h := laid_lexemesOf (tidied (ofText text)) [] (neatAll_tidied (quotesAll_ofText text)) (isChain_layOut _ _)
    trivial (by rintro ⟨⟩)
  rwa [List.append_nil] at h

theorem carries_legible : Carries Legible Legible where
  blank := trivial
  url _ hu := ⟨show Text.IsName "url" by decide, hu⟩
  opening _ ho := ho
  token _ _ ht := ht

theorem legible_lexemesOf (h : EachOf Legible vs) : ∀ l ∈ lexemesOf vs, l.Legible :=
  forall_mem_lexemesOf (fun b => by cases b <;> trivial) vs h

theorem legible_ofText (text : String) : EachOf Legible (ofText text) := each_ofText (forall_mem_scan legible_next) text

theorem legible_tidied (text : String) : ∀ l ∈ lexemesOf (tidied (ofText text)), l.Legible :=
  legible_lexemesOf (eachOf_tidied carries_legible (legible_ofText text))

/-! ## Values up to the digits of numbers -/

mutual

/-- A value up to the digits of numbers that are no integers. -/
def blur : ComponentValue → ComponentValue
  | .token t => .token t.blurred
  | .block o vs => .block o (blurEach vs)

def blurEach : List ComponentValue → List ComponentValue
  | [] => []
  | v :: vs => blur v :: blurEach vs

end

mutual

theorem blur_eq_respell : ∀ v : ComponentValue, blur v = respell Token.blurred v
  | .token _ => rfl
  | .block o vs => by rw [blur, blurEach_eq_map vs, respell_block]

theorem blurEach_eq_map : ∀ vs : List ComponentValue, blurEach vs = vs.map (respell Token.blurred)
  | [] => rfl
  | v :: vs => by rw [blurEach, blur_eq_respell v, blurEach_eq_map vs, List.map_cons]

end

theorem keepsClosing_blurred : KeepsClosing Token.blurred := by
  intro t b
  cases t <;> first | exact Iff.rfl | exact iff_of_false (by rintro ⟨⟩) (by rintro ⟨⟩)

theorem blurred_eq_respell : Lexeme.blurred = Lexeme.respell Token.blurred := by
  funext l
  cases l <;> rfl

/-- Values are nested from lexemes alike, up to the digits of numbers. -/
theorem nest_blurred (ls : List Lexeme) : nest [] [] (ls.map blurred) = blurEach (nest [] [] ls) := by
  rw [blurEach_eq_map, blurred_eq_respell]
  exact nest_respell keepsClosing_blurred ls [] []

/-! ## Reading back -/

/-- If the lexemes of a text are apart when written, with normalised blanks and quoted URLs, they are read back as
these values, up to the digits of numbers that are no integers. -/
theorem tokens_read_back_of_areApart (text : String) (h : areApart (lexemesOf (tidied (ofText text))) = true) :
    blurEach (ofText (textOf (ofText text))) = blurEach (tidied (ofText text)) := by
  have hread : scan (written (tidied (ofText text))) = (lexemesOf (tidied (ofText text))).map reread :=
    scan_flatMap_write (legible_tidied text) (laid_tidied text) h
  have hblurred := map_blurred_reread (legible_tidied text) h
  calc blurEach (ofText (textOf (ofText text)))
      = blurEach (nest [] [] (scan (written (tidied (ofText text))))) := by rw [ofText, toList_textOf]
    _ = nest [] [] ((scan (written (tidied (ofText text)))).map blurred) := (nest_blurred _).symm
    _ = nest [] [] ((lexemesOf (tidied (ofText text))).map blurred) := by rw [hread, hblurred]
    _ = blurEach (nest [] [] (lexemesOf (tidied (ofText text)))) := nest_blurred _
    _ = blurEach (tidied (ofText text)) := by rw [nest_lexemesOf (sealedAll_tidied (sealedAll_ofText text))]

theorem tokens_read_back_of_areApart_mixed :
    areApart (lexemesOf (tidied (ofText " a/**/ , url( b.png )[ +1.50e1px ]-- "))) = true ∧
      blurEach (ofText (textOf (ofText " a/**/ , url( b.png )[ +1.50e1px ]-- "))) =
        blurEach (tidied (ofText " a/**/ , url( b.png )[ +1.50e1px ]-- ")) :=
  have h : areApart (lexemesOf (tidied (ofText " a/**/ , url( b.png )[ +1.50e1px ]-- "))) = true := by decide +kernel
  ⟨h, tokens_read_back_of_areApart _ h⟩

/-- No string and no address that is broken off. -/
def IsWhole : Lexeme → Prop
  | .token (.badUrl _) | .token (.badString _) => False
  | _ => True

/-- A fraction behind a name is written with a zero in front, which becomes part of the name. -/
theorem not_tokens_read_back : ¬ ∀ text : String, EachOf IsWhole (ofText text) →
    blurEach (ofText (textOf (ofText text))) = blurEach (tidied (ofText text)) := by
  intro h
  have hread : ofText "a.5" =
      [.token (.ident "a"), .token (.number ⟨⟨false, .finite (2 ^ 23) (-24)⟩, none, false⟩)] := by decide +kernel
  have hwhole : EachOf IsWhole (ofText "a.5") := by
    rw [hread]
    exact ⟨trivial, trivial, trivial⟩
  exact absurd (h "a.5" hwhole) (by decide +kernel)

end ComponentValue

end StyleTree
