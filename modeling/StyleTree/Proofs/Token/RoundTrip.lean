/-
# `Proofs.Token.RoundTrip` — lexemes are read as they were written

A lexeme that was read is written so that it is read again, in front of a
text that it does not run together with (`scan_write`).  Which texts these
are is a question of the kind of lexeme and the first characters of the
text (`Lexeme.isApart`):

| lexeme | may not be in front of |
| :-- | :-- |
| a name | another character of a name, an escape |
| an identifier | moreover a parenthesis; `>`, if it is `--` |
| a number | a digit, an identifier, `%`, a point and a digit |
| a delimiter | what makes it part of a longer token, a number or a comment |

Besides, the lexeme itself must keep its meaning in writing
(`Lexeme.keeps`): an integer has at most six significant digits, another
number still shows a fraction or an exponent, and a unit is not taken for
an exponent.  What is read back is the same, but for numbers that are no
integers (`Lexeme.reread`): these have other digits (`Lexeme.blurred_reread`).
-/
import StyleTree.Proofs.Token.Rendering
import StyleTree.Proofs.Token.Strings

namespace StyleTree

open Scan

variable {c : Char} {cs rest : List Char} {n : String} {l : Lexeme}

/-! ## What is written, and what is kept of it -/

/-- A lexeme as text. -/
def Lexeme.write : Lexeme → List Char
  | .token t => t.write
  | .opening o => o.text.toList

/-- A lexeme up to the digits of a number that is no integer. -/
def Token.blurred : Token → Token
  | .number n => .number n.blurred
  | .percentage n => .percentage n.blurred
  | .dimension n unit => .dimension n.blurred unit
  | t => t

def Lexeme.blurred : Lexeme → Lexeme
  | .token t => .token t.blurred
  | l => l

/-- Whether a token is a number, with or without a unit. -/
def Token.isNumeric : Token → Bool
  | .number _ | .percentage _ | .dimension _ _ => true
  | _ => false

/-- What a token is read as from its own text, of which only numbers may be another one. -/
def Token.reread (t : Token) : Token :=
  if t.isNumeric then
    match Lexeme.scan t.write with
    | .token x :: _ => x
    | _ => t
  else t

def Lexeme.reread : Lexeme → Lexeme
  | .token t => .token t.reread
  | l => l

/-- A unit that is written with the letters it was read with and not taken for an exponent. -/
def keepsUnit : List Char → Bool
  | ['E'] | 'E' :: '-' :: _ => false
  | 'e' :: c :: _ | 'E' :: c :: _ => !c.isDigit
  | _ => true

/-- Whether the text of a lexeme, taken alone, shows what it is. -/
def Lexeme.keeps : Lexeme → Bool
  | .token (.number n) => n.keeps n.value
  | .token (.percentage n) => n.keeps n.percent
  | .token (.dimension n unit) => n.keeps n.value && keepsUnit unit.toList
  | .token (.badUrl _) | .token (.badString _) => false
  | _ => true

/-! ## What may follow -/

namespace Scan

/-- Whether a name ends in front of the text. -/
def endsName (rest : List Char) : Bool := rest.head?.all fun c => !isNameChar c && c != '\\'

theorem stops_of_endsName (h : endsName rest = true) : Stops rest := by
  cases rest with
  | nil => trivial
  | cons c cs =>
      have hc : (!isNameChar c && c != '\\') = true := h
      rw [Bool.and_eq_true, Bool.not_eq_true', bne_iff_ne] at hc
      exact hc

theorem ne_cons_of_head? (h : (rest.head? != some c) = true) : ∀ ds, rest ≠ c :: ds := by
  rintro ds rfl
  rw [List.head?_cons, bne_self_eq_false] at h
  cases h

/-- Whether a delimiter stays alone in front of the text. -/
def standsAlone (c : Char) (rest : List Char) : Bool :=
  match c with
  | '#' => !startsIdentifier rest && !startsWithDigit rest && rest.head? != some '-'
  | '@' => !startsIdentifier rest
  | '+' => !startsNumber ('+' :: rest)
  | '-' => !startsNumber ('-' :: rest) && !startsIdentifier ('-' :: rest)
  | '.' => !startsWithDigit rest
  | '<' => !List.isPrefixOf ['!', '-', '-'] rest
  | '/' => rest.head? != some '*'
  | '~' | '|' | '^' | '$' | '*' => rest.head? != some '='
  | '\\' => false
  | _ => true

end Scan

/-- Whether the lexeme ends in front of the text. -/
def Lexeme.isApart (rest : List Char) : Lexeme → Bool
  | .token (.ident n) => endsName rest && rest.head? != some '(' && (n != "--" || rest.head? != some '>')
  | .token (.atKeyword _) | .token (.hash _) | .token (.idHash _) | .token (.dimension _ _) => endsName rest
  | .token (.number _) =>
    !startsWithDigit rest && !startsIdentifier rest && rest.head? != some '%' && (fraction rest).1.isNone
  | .token (.delim c) => standsAlone c rest
  | _ => true

/-! ## Names -/

namespace Scan

theorem name_identifier (h : Text.IsName n) (hrest : Stops rest) :
    name (Text.writeIdentifier n.toList ++ rest) = (n.toList, rest) := by
  have hshown := congrArg String.toList (map_shown h.clean)
  rw [String.toList_ofList] at hshown
  rw [name_writeIdentifier _ hrest, hshown]

theorem scan_ident_write (h : Text.IsName n) (hrest : Stops rest) (hopen : ∀ ds, rest ≠ '(' :: ds)
    (hclose : n = "--" → ∀ ds, rest ≠ '>' :: ds) :
    Lexeme.scan (Text.writeIdentifier n.toList ++ rest) = .token (.ident n) :: Lexeme.scan rest := by
  have hdashes : n.toList = ['-', '-'] → n = "--" := fun hn => by
    rw [← String.toList_inj, hn]
    rfl
  rw [scan_ident (startsIdentifier_writeIdentifier h.toList_ne_nil rest) (name_identifier h hrest) hopen
    fun hn => hclose (hdashes hn), String.ofList_toList]

theorem scan_function_write (h : Text.IsName n) (hurl : Text.sameWord n "url" = true → startsQuoted rest = true) :
    Lexeme.scan (Text.writeIdentifier n.toList ++ '(' :: rest) = .opening (.function n) :: Lexeme.scan rest := by
  have hstarts := startsIdentifier_writeIdentifier h.toList_ne_nil ('(' :: rest)
  have hname := name_identifier h (show Stops ('(' :: rest) from ⟨rfl, by decide⟩)
  obtain ⟨c, cs, hcs⟩ := List.exists_cons_of_ne_nil (l := Text.writeIdentifier n.toList ++ '(' :: rest)
    (fun hnil => by rw [hnil] at hstarts; cases hstarts)
  rw [hcs] at hstarts hname ⊢
  have hnext := next_function hstarts hname (by rwa [String.ofList_toList])
  rw [String.ofList_toList] at hnext
  exact scan_of_next hnext

theorem startsIdentifier_of_isDigit (h : c.isDigit = true) : startsIdentifier (c :: cs) = false := by
  refine Bool.eq_false_iff.mpr fun hstarts => ?_
  have hdigit := startsWithDigit_of_startsIdentifier hstarts
  have hdigit' : c.isDigit = false := hdigit
  rw [h] at hdigit'
  cases hdigit'

theorem isPlainInName_of_isDigit (h : c.isDigit = true) : Text.isPlainInName c = true := by
  unfold Text.isPlainInName Char.isAlphanum
  simp only [h, Bool.or_true, Bool.true_or]

theorem writeNameChar_of_isDigit (h : c.isDigit = true) : Text.writeNameChar c = [c] :=
  if_pos (isPlainInName_of_isDigit h)

/-- A written name that is no identifier is not taken for one. -/
theorem first_of_isNumberName {n : List Char} (h : Text.IsNumberName n) (hrest : Stops rest) :
    startsIdentifier (Text.writeName n ++ rest) = false ∧
      ∃ c cs, Text.writeName n ++ rest = c :: cs ∧ (c.isDigit || c == '-') = true := by
  cases h with
  | @digit c cs hc =>
      have htext : Text.writeName (c :: cs) ++ rest = c :: (Text.writeName cs ++ rest) := by
        rw [Text.writeName, List.flatMap_cons, writeNameChar_of_isDigit hc]
        rfl
      rw [htext]
      exact ⟨startsIdentifier_of_isDigit hc, c, _, rfl, by rw [hc, Bool.true_or]⟩
  | minus =>
      refine ⟨?_, '-', rest, rfl, rfl⟩
      show startsIdentifier ('-' :: rest) = false
      cases rest with
      | nil => rfl
      | cons d ds =>
          show (isNameStart d || d == '-' || d == '\\') = false
          obtain ⟨hchar, hescape⟩ := hrest
          unfold isNameChar at hchar
          rw [Bool.or_eq_false_iff, Bool.or_eq_false_iff] at hchar
          rw [hchar.1.1, hchar.2, beq_eq_false_iff_ne.mpr hescape]
          rfl
  | @minusDigit c cs hc =>
      have htext : Text.writeName ('-' :: c :: cs) ++ rest = '-' :: c :: (Text.writeName cs ++ rest) := by
        rw [Text.writeName, List.flatMap_cons, List.flatMap_cons, writeNameChar_of_isDigit hc]
        rfl
      rw [htext]
      refine ⟨?_, '-', _, rfl, rfl⟩
      show (isNameStart c || c == '-' || c == '\\') = false
      rw [isNameStart_of_isDigit hc, beq_eq_false_iff_ne.mpr, beq_eq_false_iff_ne.mpr]
      · rfl
      all_goals
        rintro rfl
        cases hc

theorem scan_hash_write (h : Text.IsClean n) (hnumber : Text.IsNumberName n.toList) (hrest : Stops rest) :
    Lexeme.scan ('#' :: (Text.writeName n.toList ++ rest)) = .token (.hash n) :: Lexeme.scan rest := by
  obtain ⟨hstarts, c, cs, hcs, hc⟩ := first_of_isNumberName hnumber hrest
  have hname := name_writeName n.toList hrest
  refine scan_of_next ?_
  show (some (Lexeme.token (hashToken (Text.writeName n.toList ++ rest)).1), (hashToken _).2) = _
  unfold hashToken
  rw [hstarts, hname, hcs]
  simp only [Bool.false_eq_true, if_false, if_pos hc, map_shown h]

theorem scan_at_write (h : Text.IsName n) (hrest : Stops rest) :
    Lexeme.scan ('@' :: (Text.writeIdentifier n.toList ++ rest)) = .token (.atKeyword n) :: Lexeme.scan rest := by
  refine scan_of_next ?_
  rw [next_at (startsIdentifier_writeIdentifier h.toList_ne_nil rest), name_identifier h hrest, String.ofList_toList]

/-! ## Units -/

theorem first_of_hexEscape (c : Char) : ∃ ds, Text.hexEscape c = '\\' :: ds := by
  unfold Text.hexEscape
  simp only
  split
  · exact ⟨_, rfl⟩
  · exact ⟨_, rfl⟩

/-- A character of a name is written as it is, or something is in front that goes on no number. -/
theorem first_of_writeNameChar (c : Char) : ∃ d ds, Text.writeNameChar c = d :: ds ∧
    (d = '\\' ∨ d = Text.replacement ∨ d = c ∧ Text.isPlainInName c = true) := by
  unfold Text.writeNameChar
  split
  · next hplain => exact ⟨c, [], rfl, Or.inr (Or.inr ⟨rfl, hplain⟩)⟩
  split
  · exact ⟨_, [], rfl, Or.inr (Or.inl rfl)⟩
  split
  · obtain ⟨ds, hds⟩ := first_of_hexEscape c
    exact ⟨_, _, hds, Or.inl rfl⟩
  · exact ⟨_, _, rfl, Or.inl rfl⟩

theorem first_of_writeIdentifier (c : Char) (cs : List Char) : ∃ d ds, Text.writeIdentifier (c :: cs) = d :: ds ∧
    (d = '\\' ∨ d = Text.replacement ∨ d = c) := by
  have hstart : ∃ d ds, Text.writeNameStart (c :: cs) = d :: ds ∧ (d = '\\' ∨ d = Text.replacement ∨ d = c) := by
    unfold Text.writeNameStart
    simp only
    split
    · obtain ⟨ds, hds⟩ := first_of_hexEscape c
      rw [hds]
      exact ⟨_, _, rfl, Or.inl rfl⟩
    · obtain ⟨d, ds, hds, hd⟩ := first_of_writeNameChar c
      rw [hds]
      exact ⟨d, _, rfl, hd.imp_right (Or.imp_right And.left)⟩
  unfold Text.writeIdentifier
  split
  · exact ⟨_, _, rfl, Or.inl rfl⟩
  · next h =>
      cases h
      exact ⟨_, _, rfl, Or.inr (Or.inr rfl)⟩
  · next h =>
      cases h
      exact ⟨_, _, rfl, Or.inr (Or.inr rfl)⟩
  · exact hstart

theorem exponent_of_sign (h : startsWithDigit (sign cs).2 = false) : exponent (c :: cs) = (none, c :: cs) := by
  simp only [exponent, h, Bool.and_false, Bool.false_eq_true, if_false]

theorem exponent_of_ne (he : c ≠ 'e') (hE : c ≠ 'E') : exponent (c :: cs) = (none, c :: cs) := by
  have hc : (c == 'e' || c == 'E') = false := by
    rw [beq_eq_false_iff_ne.mpr he, beq_eq_false_iff_ne.mpr hE]
    rfl
  simp only [exponent, hc, Bool.false_and, Bool.false_eq_true, if_false]

/-- A unit that begins like an exponent does not go on like one. -/
theorem exponent_unit {d : Char} {ds : List Char} (hdash : d ≠ '-') (hdigit : d.isDigit = false) :
    exponent (c :: (Text.writeName (d :: ds) ++ rest)) = (none, c :: (Text.writeName (d :: ds) ++ rest)) := by
  obtain ⟨x, xs, hxs, hx⟩ := first_of_writeNameChar d
  have hfirst : x.isDigit = false ∧ x ≠ '+' ∧ x ≠ '-' := by
    rcases hx with rfl | rfl | ⟨rfl, hplain⟩
    · decide
    · decide
    · refine ⟨hdigit, ?_, hdash⟩
      rintro rfl
      exact absurd hplain (by decide)
  refine exponent_of_sign ?_
  rw [Text.writeName, List.flatMap_cons, hxs, List.append_assoc, List.cons_append]
  unfold sign
  split
  · next h =>
      cases h
      exact absurd rfl hfirst.2.1
  · next h =>
      cases h
      exact absurd rfl hfirst.2.2
  · exact hfirst.1

theorem endsSpelling_of_startsIdentifier (h : startsIdentifier (c :: cs) = true)
    (hexp : exponent (c :: cs) = (none, c :: cs)) : EndsSpelling (c :: cs) := by
  refine ⟨startsWithDigit_of_startsIdentifier h, ?_, hexp⟩
  unfold fraction
  split
  · next hcs =>
      cases hcs
      rcases first_of_startsIdentifier h with hc | hc | ⟨_, _, hc, -⟩
      all_goals exact absurd hc (by decide)
  · rfl

/-- A unit is read back behind a number. -/
theorem unit_write (h : Text.IsName n) (hk : keepsUnit n.toList = true) (hrest : Stops rest) :
    EndsSpelling (writeUnit n.toList ++ rest) ∧ startsIdentifier (writeUnit n.toList ++ rest) = true ∧
      name (writeUnit n.toList ++ rest) = (n.toList, rest) := by
  have hshown := congrArg String.toList (map_shown h.clean)
  rw [String.toList_ofList] at hshown
  have hescaped : ∀ cs : List Char, n.toList = 'e' :: cs → writeUnit n.toList = Text.hexEscape 'e' ++ Text.writeName cs →
      EndsSpelling (writeUnit n.toList ++ rest) ∧ startsIdentifier (writeUnit n.toList ++ rest) = true ∧
        name (writeUnit n.toList ++ rest) = (n.toList, rest) := by
    intro cs hn htext
    rw [htext, List.append_assoc]
    refine ⟨⟨rfl, rfl, rfl⟩, rfl, ?_⟩
    rw [name_hexEscape (by decide) (by decide), name_writeName cs hrest]
    rw [hn] at hshown ⊢
    exact congrArg (·, rest) hshown
  have hstarts := startsIdentifier_writeIdentifier h.toList_ne_nil rest
  have hname := name_identifier h hrest
  have hnil := h.toList_ne_nil
  generalize n.toList = cs at *
  unfold writeUnit at hescaped ⊢
  split
  · exact hescaped [] rfl rfl
  · cases hk
  · exact hescaped _ rfl rfl
  · cases hk
  next hne hnE hne' hnE' =>
    refine ⟨?_, hstarts, hname⟩
    obtain ⟨c, ds, rfl⟩ := List.exists_cons_of_ne_nil hnil
    by_cases hc : c = 'e' ∨ c = 'E'
    · obtain ⟨d, ds, rfl⟩ : ∃ d ds', ds = d :: ds' := List.exists_cons_of_ne_nil (by
        rintro rfl
        rcases hc with rfl | rfl
        · exact hne rfl
        · exact hnE rfl)
      have hdash : d ≠ '-' := by
        rintro rfl
        rcases hc with rfl | rfl
        · exact hne' _ rfl
        · exact hnE' _ rfl
      have hdigit : d.isDigit = false := by
        rcases hc with rfl | rfl
        all_goals
          unfold keepsUnit at hk
          split at hk <;> simp_all
      have htext : Text.writeIdentifier (c :: d :: ds) = c :: Text.writeName (d :: ds) := by
        rcases hc with rfl | rfl <;> rfl
      rw [htext] at hstarts ⊢
      exact endsSpelling_of_startsIdentifier hstarts (exponent_unit hdash hdigit)
    · obtain ⟨x, xs, hxs, hx⟩ := first_of_writeIdentifier c ds
      rw [not_or] at hc
      rw [hxs] at hstarts ⊢
      refine endsSpelling_of_startsIdentifier hstarts ?_
      rcases hx with rfl | rfl | rfl
      · exact exponent_of_ne (by decide) (by decide)
      · exact exponent_of_ne (by decide) (by decide)
      · exact exponent_of_ne hc.1 hc.2

/-! ## Delimiters -/

theorem fixed_delim (hc : IsDelim c) (h : standsAlone c rest = true) : fixed (c :: rest) = none := by
  cases hfixed : fixed (c :: rest) with
  | none => rfl
  | some x =>
      have hown := hc.fixed
      unfold fixed at hfixed
      split at hfixed
      case h_17 => cases hfixed
      all_goals next hcs =>
        cases hcs
        -- the character is either a token by itself, or one with what follows it
        first
        | exact absurd (show false = true from h) Bool.false_ne_true
        | cases hown

theorem startsNumber_delim (hc : IsDelim c) (h : standsAlone c rest = true) : startsNumber (c :: rest) = false := by
  by_cases hpoint : c = '.'
  · subst hpoint
    exact (Bool.not_eq_true' _).mp h
  by_cases hplus : c = '+'
  · subst hplus
    exact (Bool.not_eq_true' _).mp h
  by_cases hminus : c = '-'
  · subst hminus
    have hboth : (!startsNumber ('-' :: rest) && !startsIdentifier ('-' :: rest)) = true := h
    rw [Bool.and_eq_true, Bool.not_eq_true', Bool.not_eq_true'] at hboth
    exact hboth.1
  · rw [startsNumber_cons hpoint hplus hminus, hc.digit]

theorem startsIdentifier_delim (hc : IsDelim c) (h : standsAlone c rest = true) :
    startsIdentifier (c :: rest) = false := by
  refine Bool.eq_false_iff.mpr fun hstarts => ?_
  rcases first_of_startsIdentifier hstarts with hstart | rfl | ⟨d, ds, rfl, -⟩
  · rw [hc.nameStart] at hstart
    cases hstart
  · cases h
  · have hboth : (!startsNumber ('-' :: rest) && !startsIdentifier ('-' :: rest)) = true := h
    rw [hstarts, Bool.not_true, Bool.and_false] at hboth
    cases hboth

theorem other_delim (h : standsAlone c rest = true) : other c rest = (some (.token (.delim c)), rest) := by
  by_cases hhash : c = '#'
  · subst hhash
    have hboth : (!startsIdentifier rest && !startsWithDigit rest && rest.head? != some '-') = true := h
    simp only [Bool.and_eq_true, Bool.not_eq_true'] at hboth
    obtain ⟨⟨hstarts, hdigit⟩, hdash⟩ := hboth
    show (some (Lexeme.token (hashToken rest).1), (hashToken rest).2) = _
    unfold hashToken
    rw [hstarts, if_neg Bool.false_ne_true]
    cases rest with
    | nil => rfl
    | cons d ds =>
        have hd : (d.isDigit || d == '-') = false := by
          rw [show d.isDigit = false from hdigit, Bool.false_or, beq_eq_false_iff_ne]
          rintro rfl
          exact ne_cons_of_head? hdash _ rfl
        simp only [hd, Bool.false_eq_true, if_false]
  by_cases hat : c = '@'
  · subst hat
    have hstarts : startsIdentifier rest = false := (Bool.not_eq_true' _).mp h
    show (some (Lexeme.token (atToken rest).1), (atToken rest).2) = _
    rw [atToken, hstarts, if_neg Bool.false_ne_true]
  unfold other
  rw [if_neg (by simpa using hhash), if_neg (by simpa using hat)]
  split
  · exact absurd rfl (ne_cons_of_head? h _)
  · rfl

/-- A delimiter that stays alone is read back. -/
theorem scan_delim (hc : IsDelim c) (h : standsAlone c rest = true) :
    Lexeme.scan (c :: rest) = .token (.delim c) :: Lexeme.scan rest := by
  refine scan_of_next ?_
  unfold next
  rw [hc.blank, hc.quote, fixed_delim hc h, startsNumber_delim hc h, startsIdentifier_delim hc h, other_delim h]
  rfl

/-! ## Numbers -/

theorem endsSpelling_of_isApart {n : Numeral} (h : (Lexeme.token (.number n)).isApart rest = true) :
    EndsSpelling rest ∧ startsIdentifier rest = false ∧ ∀ cs, rest ≠ '%' :: cs := by
  unfold Lexeme.isApart at h
  simp only [Bool.and_eq_true, Bool.not_eq_true'] at h
  obtain ⟨⟨⟨hdigit, hstarts⟩, hpercent⟩, hfraction⟩ := h
  refine ⟨⟨hdigit, ?_, ?_⟩, hstarts, ne_cons_of_head? hpercent⟩
  · unfold fraction at hfraction ⊢
    split
    · next cs =>
        simp only at hfraction
        split
        · next hd =>
            rw [if_pos hd] at hfraction
            cases hfraction
        · rfl
    · rfl
  · cases rest with
    | nil => rfl
    | cons c cs =>
        refine exponent_of_ne ?_ ?_
        all_goals
          rintro rfl
          cases hstarts

end Scan

/-! ## Numbers that are read back -/

variable {t : Token}

theorem Token.exists_reread (ht : t.isNumeric = true) (hl : (Lexeme.token t).Legible)
    (hkeeps : (Lexeme.token t).keeps = true) : ∃ x : Token, x.blurred = t.blurred ∧
      ∀ rest, (Lexeme.token t).isApart rest = true →
        Lexeme.scan (t.write ++ rest) = .token x :: Lexeme.scan rest := by
  cases t with
  | number n =>
      obtain ⟨w, rfl⟩ := hl
      obtain ⟨s, htext, hread⟩ := Numeral.exists_number hkeeps
      refine ⟨.number (s.written.numeral s.written.magnitude), congrArg Token.number hread, fun rest hapart => ?_⟩
      obtain ⟨hends, hunit, hpercent⟩ := endsSpelling_of_isApart hapart
      have hwrite : Token.write (.number (w.numeral w.magnitude)) = s.text := htext
      rw [hwrite]
      exact s.scan_number hends hunit hpercent
  | percentage n =>
      obtain ⟨w, rfl⟩ := hl
      obtain ⟨s, htext, hread⟩ := Numeral.exists_percentage hkeeps
      refine ⟨.percentage (s.written.numeral (Number.double.divNat s.written.magnitude 100)),
        congrArg Token.percentage hread, fun rest _ => ?_⟩
      have hwrite : Token.write (.percentage (w.numeral (Number.double.divNat w.magnitude 100))) = s.text ++ ['%'] :=
        congrArg (· ++ ['%']) htext
      rw [hwrite, List.append_assoc]
      exact s.scan_percentage rest
  | dimension n unit =>
      obtain ⟨⟨w, rfl⟩, hname⟩ := hl
      unfold Lexeme.keeps at hkeeps
      rw [Bool.and_eq_true] at hkeeps
      obtain ⟨s, htext, hread⟩ := Numeral.exists_number hkeeps.1
      refine ⟨.dimension (s.written.numeral s.written.magnitude) unit, congrArg (Token.dimension · unit) hread,
        fun rest hapart => ?_⟩
      obtain ⟨hends, hstarts, hunit⟩ := unit_write hname hkeeps.2 (stops_of_endsName hapart)
      have hwrite : Token.write (.dimension (w.numeral w.magnitude) unit) = s.text ++ writeUnit unit.toList :=
        congrArg (· ++ writeUnit unit.toList) htext
      have hscan := s.scan_dimension hends hstarts hunit
      rw [String.ofList_toList] at hscan
      rw [hwrite, List.append_assoc, hscan]
  | _ => cases ht

/-- A number is read back from its text, whatever is behind it, as from the text alone. -/
theorem Token.scan_numeric (ht : t.isNumeric = true) (hl : (Lexeme.token t).Legible)
    (hkeeps : (Lexeme.token t).keeps = true) : t.reread.blurred = t.blurred ∧
      ∀ rest, (Lexeme.token t).isApart rest = true →
        Lexeme.scan (t.write ++ rest) = .token t.reread :: Lexeme.scan rest := by
  obtain ⟨x, hx, hscan⟩ := exists_reread ht hl hkeeps
  have halone : Lexeme.scan (t.write ++ []) = .token x :: Lexeme.scan [] :=
    hscan [] (by cases t <;> first | rfl | cases ht)
  have hreread : t.reread = x := by
    rw [List.append_nil] at halone
    rw [reread, if_pos ht, halone]
  rw [hreread]
  exact ⟨hx, hscan⟩

theorem Lexeme.reread_of_not_isNumeric (h : t.isNumeric = false) : (Lexeme.token t).reread = .token t :=
  congrArg Lexeme.token (if_neg (by rw [h]; exact Bool.false_ne_true))

/-- A lexeme that is read back is the same up to the digits of a number that is no integer. -/
theorem Lexeme.blurred_reread (hl : l.Legible) (hkeeps : l.keeps = true) : l.reread.blurred = l.blurred := by
  cases l with
  | opening o => rfl
  | token t =>
      cases ht : t.isNumeric with
      | true => exact congrArg Lexeme.token (Token.scan_numeric ht hl hkeeps).1
      | false => rw [reread_of_not_isNumeric ht]

/-! ## All lexemes -/

/-- A lexeme that was read, that keeps its meaning and that ends in front of the text is read back.  Blanks moreover
run together, and behind the name of URLs only a string shows that the function is meant. -/
theorem Lexeme.scan_write (hl : l.Legible) (hkeeps : l.keeps = true) (hapart : l.isApart rest = true)
    (hurl : ∀ u, l ≠ .token (.url u))
    (hblank : l = .token .blank → ∀ ls, scan rest ≠ .token .blank :: ls)
    (hfunction : ∀ n, l = .opening (.function n) → Text.sameWord n "url" = true → startsQuoted rest = true) :
    scan (l.write ++ rest) = l.reread :: scan rest := by
  cases l with
  | opening o =>
      cases o with
      | function n =>
          have htext : Lexeme.write (.opening (.function n)) ++ rest = Text.writeIdentifier n.toList ++ '(' :: rest := by
            show (Text.identifier n ++ "(").toList ++ rest = _
            rw [String.toList_append, Text.identifier, String.toList_ofList, List.append_assoc]
            rfl
          rw [htext]
          exact scan_function_write hl (hfunction n rfl)
      | bracket b =>
          obtain ⟨c, htext, hnext⟩ : ∃ c, Lexeme.write (.opening (.bracket b)) = [c] ∧
              next c rest = (some (.opening (.bracket b)), rest) := by
            cases b <;> exact ⟨_, rfl, rfl⟩
          rw [htext]
          exact scan_of_next hnext
  | token t =>
      cases t with
      | ident n =>
          unfold isApart at hapart
          simp only [Bool.and_eq_true, Bool.or_eq_true, bne_iff_ne (a := n)] at hapart
          obtain ⟨⟨hends, hopen⟩, hclose⟩ := hapart
          exact scan_ident_write hl (stops_of_endsName hends) (ne_cons_of_head? hopen)
            fun hn => ne_cons_of_head? (hclose.resolve_left fun hne => hne hn)
      | atKeyword n => exact scan_at_write hl (stops_of_endsName hapart)
      | hash n => exact scan_hash_write hl.1 hl.2 (stops_of_endsName hapart)
      | idHash n =>
          have hscan := scan_idHash hl (stops_of_endsName hapart)
          rw [Text.identifier, String.toList_ofList] at hscan
          exact hscan
      | string s =>
          have hscan := scan_string hl rest
          rw [Text.quoted, String.toList_ofList] at hscan
          exact hscan
      | url u => exact absurd rfl (hurl u)
      | delim c => exact scan_delim hl hapart
      | number n => exact (Token.scan_numeric rfl hl hkeeps).2 rest hapart
      | percentage n => exact (Token.scan_numeric rfl hl hkeeps).2 rest hapart
      | dimension n unit => exact (Token.scan_numeric rfl hl hkeeps).2 rest hapart
      | blank => exact scan_blank (hblank rfl)
      | badUrl raw => cases hkeeps
      | badString s => cases hkeeps
      | close b =>
          obtain ⟨c, htext, hnext⟩ : ∃ c, Lexeme.write (.token (.close b)) = [c] ∧
              next c rest = (some (.token (.close b)), rest) := by
            cases b <;> exact ⟨_, rfl, rfl⟩
          rw [htext]
          exact scan_of_next hnext
      | _ => exact scan_of_next rfl

end StyleTree
