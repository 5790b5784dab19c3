/-
# `Proofs.Selector.Scanning` — the text of a selector is scanned to its values

A selector whose pseudo-classes and pseudo-elements are spelled as they are
read is scanned to its values, in front of anything that may follow it
(`Borders`): the end, a closing parenthesis, or the sign that the rest of a
selector or a list begins with.  By induction on the selector, with one
lemma for each kind of part.
-/
import StyleTree.Proofs.Selector.Values
import StyleTree.Proofs.Selector.First

namespace StyleTree

open ComponentValue
open Scan (EndsName endsName_cons scan_of_next scan_star scan_bar scan_blank scan_plain scan_function scan_identifier
  scan_idHash scan_class scan_string)
open Text (IsName)

/-- A text whose values do not begin with a blank does not begin with one. -/
theorem scan_ne_blank {cs : List Char} {v : ComponentValue} {vs : List ComponentValue} {ls : List Lexeme}
    (h : Lexeme.scan cs = lexemesOf (v :: vs) ++ ls) (hv : v.isBlank = false) :
    ∀ ls', Lexeme.scan cs ≠ .token .blank :: ls' := by
  intro ls' hls
  rw [hls, lexemesOf] at h
  cases v with
  | token t =>
      cases h
      cases hv
  | block o us => cases h

/-- Selectors of a list do not begin with a blank. -/
theorem scan_ne_blank_of_valuesOf {ns : Namespaces} {mode : SelectorMode} {list : List Selector}
    {cs : List Char} {ls : List Lexeme} (hne : list ≠ []) (h : Selector.AllWellFormed ns mode list)
    (hscan : Lexeme.scan cs = lexemesOf (Selector.valuesOf list) ++ ls) :
    ∀ ls', Lexeme.scan cs ≠ .token .blank :: ls' := by
  obtain ⟨s, ss, rfl⟩ := List.exists_cons_of_ne_nil hne
  obtain ⟨v, vs, hvs, hv⟩ := s.exists_valuesOf h.1 ss
  exact scan_ne_blank (hvs ▸ hscan) hv

/-! ## What may follow -/

/-- What may stand behind a selector: nothing, a closing parenthesis, or a sign. -/
def Borders (rest : List Char) : Prop := rest = [] ∨ (∃ ds, rest = ')' :: ds) ∨ Follows rest

section

variable {rest cs X : List Char}

theorem Follows.borders (h : Follows X) (cs : List Char) : Borders (X ++ cs) := .inr (.inr (h.append cs))

theorem Follows.ends (h : Follows cs) : EndsName cs := by
  obtain ⟨c, ds, rfl, hc⟩ := h
  obtain ⟨hstops, hopen, hclose⟩ := behindType_ends hc
  refine ⟨hstops, ?_, ?_⟩
  · rintro _ ⟨⟩
    exact hopen rfl
  · rintro _ ⟨⟩
    exact hclose rfl

theorem Borders.ends (h : Borders rest) : EndsName rest := by
  rcases h with rfl | ⟨ds, rfl⟩ | h
  · exact ⟨trivial, by rintro _ ⟨⟩, by rintro _ ⟨⟩⟩
  · exact endsName_cons (by decide) ds
  · exact h.ends

theorem Borders.ne_equals (h : Borders rest) : ∀ ds, rest ≠ '=' :: ds := by
  rintro ds rfl
  rcases h with h | ⟨_, h⟩ | ⟨c, _, h, hc⟩
  · cases h
  · cases h
  · cases h
    exact absurd hc (by decide)

theorem Simple.borders_textOf (ss : List Simple) (h : Borders rest) :
    Borders ((Simple.textOf ss).toList ++ rest) := by
  cases ss with
  | nil =>
      rw [textOf]
      exact h
  | cons s ss =>
      rw [textOf, String.toList_append, List.append_assoc]
      exact s.follows_text.borders _

theorem PseudoClass.borders_textOf (ps : List PseudoClass) (h : Borders rest) :
    Borders ((PseudoClass.textOf ps).toList ++ rest) := by
  cases ps with
  | nil =>
      rw [textOf]
      exact h
  | cons p ps =>
      rw [textOf, String.toList_append, List.append_assoc]
      exact p.follows_text.borders _

theorem PseudoElement.borders_textOf (es : List PseudoElement) (h : Borders rest) :
    Borders ((PseudoElement.textOf es).toList ++ rest) := by
  cases es with
  | nil =>
      rw [textOf]
      exact h
  | cons e es =>
      rw [textOf, String.toList_append, List.append_assoc]
      exact e.follows_text.borders _

end

/-! ## Scanning types and attributes -/

variable {ns : Namespaces} {rest : List Char}

theorem ne_equals_of_startsIdentifier {cs : List Char} (h : Scan.startsIdentifier cs = true) :
    ∀ ds, cs ≠ '=' :: ds := by
  rintro ds rfl
  cases h

theorem Qualifier.scan_text {q : Option Qualifier} (hq : Qualifier.WellFormed ns q)
    (hrest : ∀ ds, rest ≠ '=' :: ds) :
    Lexeme.scan ((Qualifier.text q).toList ++ rest) = lexemesOf (Qualifier.values q) ++ Lexeme.scan rest := by
  match q with
  | .none => rfl
  | some .any =>
      show Lexeme.scan ('*' :: '|' :: rest) = _
      rw [scan_star (by rintro _ ⟨⟩), scan_bar hrest]
      rfl
  | some .none =>
      show Lexeme.scan ('|' :: rest) = _
      rw [scan_bar hrest]
      rfl
  | some (.named n) =>
      rw [text, String.toList_append, List.append_assoc]
      show Lexeme.scan (_ ++ '|' :: rest) = _
      rw [scan_identifier hq.2 (endsName_cons (by decide) rest), scan_bar hrest]
      rfl

theorem TypeSelector.scan_text {t : TypeSelector} (ht : t.WellFormed ns) (hrest : Borders rest) :
    Lexeme.scan (t.text.toList ++ rest) = lexemesOf t.values ++ Lexeme.scan rest := by
  obtain ⟨q, name⟩ := t
  rw [text, values, String.toList_append, List.append_assoc, lexemesOf_append, List.append_assoc]
  cases name with
  | none =>
      have hstar : "*".toList ++ rest = '*' :: rest := rfl
      show Lexeme.scan (_ ++ ("*".toList ++ rest)) = _
      rw [hstar, Qualifier.scan_text ht.qualifier (by rintro _ ⟨⟩), scan_star hrest.ne_equals]
      rfl
  | some n =>
      have hn := ht.name n rfl
      have hstarts := Scan.startsIdentifier_identifier hn rest
      rw [Qualifier.scan_text ht.qualifier (ne_equals_of_startsIdentifier hstarts),
        scan_identifier hn hrest.ends]
      rfl

theorem Matcher.scan_sign (m : Matcher) (cs : List Char) :
    Lexeme.scan (m.sign.toList ++ cs) = .token m.token :: Lexeme.scan cs := by
  cases m <;> exact scan_of_next rfl

theorem Matcher.ends_sign (m : Matcher) (cs : List Char) : EndsName (m.sign.toList ++ cs) := by
  cases m <;> exact endsName_cons (by decide) _

/-- The letter behind a value. -/
theorem scan_letter {c : Char} (hc : c = 'i' ∨ c = 's') (rest : List Char) :
    Lexeme.scan (' ' :: c :: ']' :: rest) =
      .token .blank :: .token (.ident (String.singleton c)) :: .token (.close .square) :: Lexeme.scan rest := by
  have hclose : Lexeme.scan (']' :: rest) = .token (.close .square) :: Lexeme.scan rest := scan_of_next rfl
  have hletter : Lexeme.scan (c :: ']' :: rest) =
      .token (.ident (String.singleton c)) :: .token (.close .square) :: Lexeme.scan rest := by
    rw [← hclose]
    have hends : EndsName (']' :: rest) := endsName_cons (by decide) rest
    rcases hc with rfl | rfl
    · exact @scan_plain _ "i" (by decide) (by decide) hends
    · exact @scan_plain _ "s" (by decide) (by decide) hends
  rw [scan_blank, hletter]
  rw [hletter]
  rintro _ ⟨⟩

/-- The text of the comparison behind the name of an attribute. -/
def AttributeSelector.testText (a : AttributeSelector) : String :=
  (match a.test with
    | some (m, v) => m.sign ++ Text.quoted v
    | none => "") ++
  match a.flag with
    | some c => " " ++ String.singleton c
    | none => ""

/-- The comparison ends the name, and is scanned to its values. -/
theorem AttributeSelector.scan_testText {a : AttributeSelector} (ha : a.WellFormed ns) (rest : List Char) :
    EndsName (a.testText.toList ++ ']' :: rest) ∧
      Lexeme.scan (a.testText.toList ++ ']' :: rest) =
        lexemesOf a.testValues ++ .token (.close .square) :: Lexeme.scan rest := by
  have hclose : Lexeme.scan (']' :: rest) = .token (.close .square) :: Lexeme.scan rest := scan_of_next rfl
  obtain ⟨q, n, test, flag⟩ := a
  cases test with
  | none =>
      cases flag with
      | none => exact ⟨endsName_cons (by decide) rest, hclose⟩
      | some c => exact absurd (ha.flagged rfl) Bool.false_ne_true
  | some t =>
      obtain ⟨m, v⟩ := t
      have hv := ha.value (m, v) rfl
      cases flag with
      | none =>
          have htext : (testText ⟨q, n, some (m, v), none⟩).toList ++ ']' :: rest =
              m.sign.toList ++ ((Text.quoted v).toList ++ ']' :: rest) := by
            simp [testText]
          rw [htext, m.scan_sign, scan_string hv, hclose]
          exact ⟨m.ends_sign _, rfl⟩
      | some c =>
          have htext : (testText ⟨q, n, some (m, v), some c⟩).toList ++ ']' :: rest =
              m.sign.toList ++ ((Text.quoted v).toList ++ ' ' :: c :: ']' :: rest) := by
            simp [testText]
          rw [htext, m.scan_sign, scan_string hv, scan_letter (ha.flag c rfl)]
          exact ⟨m.ends_sign _, rfl⟩

theorem AttributeSelector.scan_text {a : AttributeSelector} (ha : a.WellFormed ns) (rest : List Char) :
    Lexeme.scan (a.text.toList ++ rest) =
      lexemes (.block (.bracket .square) a.values) ++ Lexeme.scan rest := by
  have hstarts := Scan.startsIdentifier_identifier ha.name
  obtain ⟨hends, htest⟩ := a.scan_testText ha rest
  have htext : a.text.toList ++ rest = '[' :: ((Qualifier.text a.qualifier).toList ++
      ((Text.identifier a.name).toList ++ (a.testText.toList ++ ']' :: rest))) := by
    obtain ⟨q, n, test, flag⟩ := a
    cases test <;> cases flag <;> simp [text, testText]
  rw [htext, scan_of_next (show Scan.next '[' _ = (some (.opening (.bracket .square)), _) from rfl),
    Qualifier.scan_text ha.qualifier (ne_equals_of_startsIdentifier (hstarts _)),
    scan_identifier ha.name hends, htest]
  simp [values, lexemes, lexemesOf_append, lexemesOf, Opener.closer]

/-! ## Names of pseudo-classes and pseudo-elements -/

namespace Selector

/-- The functions that take selectors or count. -/
def functions : List String := Names.matchingClasses ++ "has" :: (Names.filteringClasses ++ Names.countingClasses)

theorem startsIdentifier_of_isVendor {n : String} (h : Names.isVendor n = true) :
    Scan.startsIdentifier n.toList = true := by
  obtain ⟨mark, hmark, hbegins⟩ := List.any_eq_true.mp h
  obtain ⟨tail, htail⟩ := List.isPrefixOf_iff_prefix.mp hbegins
  rw [← htail]
  simp only [Names.vendorMarks, List.mem_cons, List.not_mem_nil, or_false] at hmark
  rcases hmark with rfl | rfl | rfl | rfl <;> rfl

theorem startsIdentifier_of_singleColonName {n : String} {x : Pseudo} (h : singleColonName n = some x) :
    Scan.startsIdentifier n.toList = true := by
  have hknown : ∀ m ∈ Names.singleColonElements ++ Names.plainClasses, Scan.startsIdentifier m.toList = true := by
    decide +kernel
  unfold singleColonName at h
  split at h
  · next hn => exact hknown n (List.mem_append_left _ hn)
  split at h
  · next hn =>
      simp only [Bool.or_eq_true, decide_eq_true_eq] at hn
      rcases hn with hn | hn
      · exact hknown n (List.mem_append_right _ hn)
      · exact startsIdentifier_of_isVendor hn
  · cases h

theorem startsIdentifier_of_element {n : String} (h : n ∈ Names.plainElements ∨ Names.isVendor n = true) :
    Scan.startsIdentifier n.toList = true := by
  have hknown : ∀ m ∈ Names.plainElements, Scan.startsIdentifier m.toList = true := by decide +kernel
  exact h.elim (hknown n) startsIdentifier_of_isVendor

theorem scan_colon (cs : List Char) : Lexeme.scan (':' :: cs) = .token .colon :: Lexeme.scan cs :=
  scan_of_next rfl

/-- A pseudo-class with an argument, up to the argument. -/
theorem scan_opening {n : String} (h : n ∈ functions) (cs : List Char) :
    Lexeme.scan (':' :: (n.toList ++ '(' :: cs)) =
      .token .colon :: .opening (.function n) :: Lexeme.scan cs := by
  have hknown : ∀ m ∈ functions, m.toList.all Text.isPlainInName = true ∧
      Scan.startsIdentifier m.toList = true ∧ Text.sameWord m "url" = false := by
    decide +kernel
  obtain ⟨hplain, hstarts, hurl⟩ := hknown n h
  rw [scan_colon, scan_function hplain hstarts hurl]

theorem mem_functions_of_listMode {n : String} {mode : SelectorMode} (h : listMode? n = some mode) :
    n ∈ functions := by
  unfold listMode? at h
  split at h
  · next hn => exact List.mem_append_left _ hn
  split at h
  · next hn => exact List.mem_append_right _ (List.mem_cons.mpr (.inl hn))
  · cases h

theorem mem_functions_of_counting {n : String} (h : n ∈ Names.filteringClasses ∨ n ∈ Names.countingClasses) :
    n ∈ functions :=
  List.mem_append_right _ (List.mem_cons_of_mem _ (List.mem_append.mpr h))

end Selector

/-! ## Combinators -/

/-- The sign of a combinator with the blank behind it. -/
theorem Combinator.scan_sign {k : Combinator} (hk : k ≠ .descendant)
    (hrest : ∀ ls, Lexeme.scan rest ≠ .token .blank :: ls) :
    Lexeme.scan ((k.sign ++ " ").toList ++ rest) = lexemesOf (k.values.drop 1) ++ Lexeme.scan rest := by
  have hsign : ∀ c : Char, (∀ cs, Lexeme.scan (c :: ' ' :: cs) = .token (.delim c) :: Lexeme.scan (' ' :: cs)) →
      Lexeme.scan (c :: ' ' :: rest) = .token (.delim c) :: .token .blank :: Lexeme.scan rest := by
    intro c hc
    rw [hc, scan_blank hrest]
  cases k with
  | descendant => exact absurd rfl hk
  | child => exact hsign '>' fun _ => scan_of_next rfl
  | nextSibling => exact hsign '+' fun _ => scan_of_next rfl
  | laterSibling => exact hsign '~' fun _ => scan_of_next rfl

theorem Combinator.scan_text (k : Combinator) (hrest : ∀ ls, Lexeme.scan rest ≠ .token .blank :: ls) :
    Lexeme.scan (k.text.toList ++ rest) = lexemesOf k.values ++ Lexeme.scan rest := by
  by_cases hk : k = .descendant
  · subst hk
    exact scan_blank hrest
  · have hsign := scan_sign hk hrest
    have htext : k.text.toList ++ rest = ' ' :: ((k.sign ++ " ").toList ++ rest) := by
      cases k <;> first | exact absurd rfl hk | rfl
    rw [htext, scan_blank, hsign, k.values_eq]
    · rfl
    · rw [hsign]
      cases k <;> first | exact absurd rfl hk | rintro _ ⟨⟩

theorem Combinator.borders_text (k : Combinator) (cs : List Char) : Borders (k.text.toList ++ cs) := by
  cases k <;> exact .inr (.inr ⟨' ', _, rfl, by decide⟩)

/-! ## Selectors -/

theorem scan_parenthesis (cs : List Char) :
    Lexeme.scan (')' :: cs) = .token (.close .round) :: Lexeme.scan cs :=
  scan_of_next rfl

theorem borders_parenthesis (cs : List Char) : Borders (')' :: cs) := .inr (.inl ⟨cs, rfl⟩)

/-- The word between a pair and the selectors it counts. -/
theorem scan_of {cs : List Char} (hcs : ∀ ls, Lexeme.scan cs ≠ .token .blank :: ls) :
    Lexeme.scan (' ' :: 'o' :: 'f' :: ' ' :: cs) =
      .token .blank :: .token (.ident "of") :: .token .blank :: Lexeme.scan cs := by
  have hword : Lexeme.scan ('o' :: 'f' :: ' ' :: cs) = .token (.ident "of") :: Lexeme.scan (' ' :: cs) :=
    @scan_plain _ "of" (by decide) (by decide) (endsName_cons (by decide) cs)
  rw [scan_blank, hword, scan_blank hcs]
  rw [hword]
  rintro _ ⟨⟩

-- One theorem for each kind of part and for each list of parts.  Behind a part stands the text of the next one,
-- which borders it by its first sign, or what stands behind them all.

mutual

theorem Simple.scan_text : ∀ (s : Simple) {rest : List Char}, s.WellFormed ns →
    s.pseudos.all Selector.Pseudo.isSpelled = true → Borders rest →
    Lexeme.scan (s.text.toList ++ rest) = lexemesOf s.values ++ Lexeme.scan rest
  | .nesting, rest, _, _, _ => by
      rw [Simple.text, Simple.values]
      exact scan_of_next rfl
  | .byId n, rest, hs, _, hrest => by
      rw [Simple.text, Simple.values, String.toList_append, List.append_assoc]
      exact scan_idHash hs hrest.ends.stops
  | .byClass n, rest, hs, _, hrest => by
      rw [Simple.text, Simple.values, String.toList_append, List.append_assoc]
      exact scan_class hs hrest.ends
  | .byAttribute a, rest, hs, _, _ => by
      rw [Simple.text, Simple.values, lexemesOf, lexemesOf, List.append_nil]
      exact a.scan_text hs rest
  | .pseudo p, rest, hs, hp, hrest => by
      rw [Simple.text, Simple.values]
      exact p.scan_text hs hp hrest

theorem PseudoClass.scan_text : ∀ (p : PseudoClass) {rest : List Char}, p.WellFormed ns →
    p.pseudos.all Selector.Pseudo.isSpelled = true → Borders rest →
    Lexeme.scan (p.text.toList ++ rest) = lexemesOf [.token .colon, p.value] ++ Lexeme.scan rest
  | .plain n, rest, hs, hp, hrest => by
      have hstarts := Selector.startsIdentifier_of_singleColonName hs.1
      have hplain : n.toList.all Text.isPlainInName = true := by
        simpa [PseudoClass.pseudos, Selector.Pseudo.isSpelled, Selector.Pseudo.isBare, Selector.Pseudo.isPlain] using hp
      rw [PseudoClass.text, PseudoClass.value, String.toList_append, List.append_assoc]
      show Lexeme.scan (':' :: (n.toList ++ rest)) = _
      rw [Selector.scan_colon, scan_plain hplain hstarts hrest.ends]
      rfl
  | .matching n list, rest, ⟨mode, hn, hne, hlist⟩, hp, hrest => by
      rw [PseudoClass.pseudos, List.all_cons, Bool.and_eq_true] at hp
      have hcontents := Selector.scan_listText list hne hlist hp.2 (borders_parenthesis rest)
      have htext : (PseudoClass.matching n list).text.toList ++ rest =
          ':' :: (n.toList ++ '(' :: ((Selector.listText list).toList ++ ')' :: rest)) := by
        simp [PseudoClass.text, Selector.listText]
      rw [htext, Selector.scan_opening (Selector.mem_functions_of_listMode hn), hcontents, scan_parenthesis]
      simp [PseudoClass.value, lexemesOf, lexemes, Opener.closer]
  | .counting n k, rest, ⟨hn, _⟩, _, _ => by
      have hcontents := Nth.scan_write (show Nth.Breaks (')' :: rest) from .inr rfl) k
      have htext : (PseudoClass.counting n k).text.toList ++ rest =
          ':' :: (n.toList ++ '(' :: (k.write ++ ')' :: rest)) := by
        simp [PseudoClass.text, Nth.text]
      rw [htext, Selector.scan_opening (Selector.mem_functions_of_counting hn), hcontents, scan_parenthesis]
      simp [PseudoClass.value, lexemesOf, lexemes, lexemesOf_tokens, Opener.closer]
  | .countingOf n k list, rest, ⟨hn, _, hne, hlist⟩, hp, hrest => by
      rw [PseudoClass.pseudos, List.all_cons, Bool.and_eq_true] at hp
      have hcontents := Selector.scan_listText list hne hlist hp.2 (borders_parenthesis rest)
      have htext : (PseudoClass.countingOf n k list).text.toList ++ rest =
          ':' :: (n.toList ++ '(' :: (k.write ++
            ' ' :: 'o' :: 'f' :: ' ' :: ((Selector.listText list).toList ++ ')' :: rest))) := by
        simp [PseudoClass.text, Nth.text, Selector.listText]
      have hblank := scan_ne_blank_of_valuesOf hne hlist hcontents
      have hbreaks : ∀ cs, Nth.Breaks (' ' :: cs) := fun _ => .inl rfl
      rw [htext, Selector.scan_opening (Selector.mem_functions_of_counting (.inl hn)),
        Nth.scan_write (hbreaks _), scan_of hblank, hcontents, scan_parenthesis]
      simp [PseudoClass.value, lexemesOf, lexemes, lexemesOf_append, lexemesOf_tokens, Opener.closer]
  | .raw n vs, rest, _, hp, _ => by
      cases hp

theorem PseudoElement.scan_text : ∀ (e : PseudoElement) {rest : List Char}, e.WellFormed ns →
    e.pseudos.all Selector.Pseudo.isSpelled = true → Borders rest →
    Lexeme.scan (e.text.toList ++ rest) = lexemesOf e.values ++ Lexeme.scan rest
  | .mk n (some vs) classes, rest, _, hp, _ => by
      cases hp
  | .mk n none classes, rest, hs, hp, hrest => by
      rw [PseudoElement.pseudos, List.all_cons, Bool.and_eq_true] at hp
      have hstarts := Selector.startsIdentifier_of_element (hs.1 rfl).1
      have hplain : n.toList.all Text.isPlainInName = true := by
        simpa [Selector.Pseudo.isSpelled, Selector.Pseudo.isBare, Selector.Pseudo.isPlain] using hp.1
      have hclasses := PseudoClass.scan_textOf classes hs.2 hp.2 hrest
      have htext : (PseudoElement.mk n none classes).text.toList ++ rest =
          ':' :: ':' :: (n.toList ++ ((PseudoClass.textOf classes).toList ++ rest)) := by
        simp [PseudoElement.text]
      rw [htext, Selector.scan_colon, Selector.scan_colon,
        scan_plain hplain hstarts (PseudoClass.borders_textOf classes hrest).ends, hclasses]
      simp [PseudoElement.values, lexemesOf, lexemes]

theorem Simple.scan_textOf : ∀ (ss : List Simple) {rest : List Char}, Simple.AllWellFormed ns ss →
    (Simple.pseudosIn ss).all Selector.Pseudo.isSpelled = true → Borders rest →
    Lexeme.scan ((Simple.textOf ss).toList ++ rest) = lexemesOf (Simple.valuesOf ss) ++ Lexeme.scan rest
  | [], rest, _, _, _ => by
      rw [Simple.textOf, Simple.valuesOf]
      rfl
  | s :: ss, rest, hs, hp, hrest => by
      rw [Simple.pseudosIn, List.all_append, Bool.and_eq_true] at hp
      have hss := Simple.scan_textOf ss hs.2 hp.2 hrest
      rw [Simple.textOf, String.toList_append, List.append_assoc,
        s.scan_text hs.1 hp.1 (Simple.borders_textOf ss hrest), hss, Simple.valuesOf, lexemesOf_append, List.append_assoc]

theorem PseudoClass.scan_textOf : ∀ (ps : List PseudoClass) {rest : List Char}, PseudoClass.AllWellFormed ns ps →
    (PseudoClass.pseudosIn ps).all Selector.Pseudo.isSpelled = true → Borders rest →
    Lexeme.scan ((PseudoClass.textOf ps).toList ++ rest) = lexemesOf (PseudoClass.valuesOf ps) ++ Lexeme.scan rest
  | [], rest, _, _, _ => by
      rw [PseudoClass.textOf, PseudoClass.valuesOf]
      rfl
  | p :: ps, rest, hs, hp, hrest => by
      rw [PseudoClass.pseudosIn, List.all_append, Bool.and_eq_true] at hp
      have hps := PseudoClass.scan_textOf ps hs.2 hp.2 hrest
      have hvalues : PseudoClass.valuesOf (p :: ps) = [.token .colon, p.value] ++ PseudoClass.valuesOf ps := rfl
      rw [PseudoClass.textOf, String.toList_append, List.append_assoc,
        p.scan_text hs.1 hp.1 (PseudoClass.borders_textOf ps hrest), hps, hvalues, lexemesOf_append,
        List.append_assoc]

theorem PseudoElement.scan_textOf : ∀ (es : List PseudoElement) {rest : List Char}, PseudoElement.AllWellFormed ns es →
    (PseudoElement.pseudosIn es).all Selector.Pseudo.isSpelled = true → Borders rest →
    Lexeme.scan ((PseudoElement.textOf es).toList ++ rest) = lexemesOf (PseudoElement.valuesOf es) ++ Lexeme.scan rest
  | [], rest, _, _, _ => by
      rw [PseudoElement.textOf, PseudoElement.valuesOf]
      rfl
  | e :: es, rest, hs, hp, hrest => by
      rw [PseudoElement.pseudosIn, List.all_append, Bool.and_eq_true] at hp
      have hes := PseudoElement.scan_textOf es hs.2 hp.2 hrest
      rw [PseudoElement.textOf, String.toList_append, List.append_assoc,
        e.scan_text hs.1 hp.1 (PseudoElement.borders_textOf es hrest), hes, PseudoElement.valuesOf, lexemesOf_append,
        List.append_assoc]

theorem Compound.scan_text : ∀ (c : Compound) {rest : List Char}, c.WellFormed ns →
    c.pseudos.all Selector.Pseudo.isSpelled = true → Borders rest →
    Lexeme.scan (c.text.toList ++ rest) = lexemesOf c.values ++ Lexeme.scan rest
  | .mk type simple elements, rest, hs, hp, hrest => by
      rw [Compound.pseudos, List.all_append, Bool.and_eq_true] at hp
      have helements := PseudoElement.scan_textOf elements hs.2.2.1 hp.2 hrest
      have hborders := PseudoElement.borders_textOf elements hrest
      have hsimple := Simple.scan_textOf simple hs.2.1 hp.1 hborders
      rw [helements] at hsimple
      cases type with
      | none =>
          have htext : (Compound.mk none simple elements).text.toList ++ rest =
              (Simple.textOf simple).toList ++ ((PseudoElement.textOf elements).toList ++ rest) := by
            simp [Compound.text]
          rw [htext, hsimple]
          simp [Compound.values, lexemesOf_append]
      | some t =>
          have htext : (Compound.mk (some t) simple elements).text.toList ++ rest =
              t.text.toList ++ ((Simple.textOf simple).toList ++ ((PseudoElement.textOf elements).toList ++ rest)) := by
            simp [Compound.text]
          rw [htext, t.scan_text (hs.1 t rfl) (Simple.borders_textOf simple hborders), hsimple]
          simp [Compound.values, lexemesOf_append]

theorem Chain.scan_text : ∀ (k : Chain) {rest : List Char}, k.WellFormed ns →
    k.pseudos.all Selector.Pseudo.isSpelled = true → Borders rest →
    Lexeme.scan (k.text.toList ++ rest) = lexemesOf k.values ++ Lexeme.scan rest
  | .last c, rest, hs, hp, hrest => by
      rw [Chain.text, Chain.values]
      exact c.scan_text hs hp hrest
  | .link c j k, rest, hs, hp, hrest => by
      rw [Chain.pseudos, List.all_append, Bool.and_eq_true] at hp
      have hk := k.scan_text hs.2.2 hp.2 hrest
      obtain ⟨v, vs, hvs, hv⟩ := k.exists_values hs.2.2
      -- The blank of the combinator would take another one with it.
      have hblank : ∀ ls, Lexeme.scan (k.text.toList ++ rest) ≠ .token .blank :: ls :=
        scan_ne_blank (hvs ▸ hk) hv
      rw [Chain.text, Chain.values, String.toList_append, String.toList_append, List.append_assoc, List.append_assoc,
        c.scan_text hs.1 hp.1 (j.borders_text _), j.scan_text hblank, hk, lexemesOf_append, lexemesOf_append,
        List.append_assoc, List.append_assoc]

theorem Selector.scan_text : ∀ (s : Selector) {mode : SelectorMode} {rest : List Char}, s.WellFormed ns mode →
    s.pseudos.all Selector.Pseudo.isSpelled = true → Borders rest →
    Lexeme.scan (s.text.toList ++ rest) = lexemesOf s.values ++ Lexeme.scan rest
  | .mk none k, _, rest, hs, hp, hrest => by
      have htext : (Selector.mk none k).text = k.text := by rw [Selector.text, String.empty_append]
      rw [htext, Selector.values, List.nil_append]
      exact k.scan_text hs.1 hp hrest
  | .mk (some j) k, _, rest, hs, hp, hrest => by
      have hk := k.scan_text hs.1 hp hrest
      obtain ⟨v, vs, hvs, hv⟩ := k.exists_values hs.1
      have hblank : ∀ ls, Lexeme.scan (k.text.toList ++ rest) ≠ .token .blank :: ls :=
        scan_ne_blank (hvs ▸ hk) hv
      have hj : j ≠ .descendant := fun hj => hs.2.1 (congrArg some hj)
      rw [Selector.text, Selector.values, String.toList_append, List.append_assoc, Combinator.scan_sign hj hblank, hk,
        lexemesOf_append, List.append_assoc]

/-- The text of a list is scanned to its values. -/
theorem Selector.scan_listText : ∀ (list : List Selector) {mode : SelectorMode} {rest : List Char}, list ≠ [] →
    Selector.AllWellFormed ns mode list → (Selector.pseudosIn list).all Selector.Pseudo.isSpelled = true → Borders rest →
    Lexeme.scan ((Selector.listText list).toList ++ rest) = lexemesOf (Selector.valuesOf list) ++ Lexeme.scan rest
  | [], _, _, hne, _, _, _ => absurd rfl hne
  | [s], _, rest, _, hs, hp, hrest => by
      rw [Selector.pseudosIn, List.all_append, Bool.and_eq_true] at hp
      have htext : (Selector.listText [s]).toList = s.text.toList := rfl
      rw [htext, Selector.valuesOf]
      exact s.scan_text hs.1 hp.1 hrest
  | s :: s' :: ss, _, rest, _, hs, hp, hrest => by
      rw [Selector.pseudosIn, List.all_append, Bool.and_eq_true] at hp
      have hlist := Selector.scan_listText (s' :: ss) (List.cons_ne_nil _ _) hs.2 hp.2 hrest
      have hblank := scan_ne_blank_of_valuesOf (List.cons_ne_nil _ _) hs.2 hlist
      have htext : (Selector.listText (s :: s' :: ss)).toList ++ rest =
          s.text.toList ++ ',' :: ' ' :: ((Selector.listText (s' :: ss)).toList ++ rest) := by
        simp [Selector.listText, Selector.texts, Text.joined]
      have hcomma : Lexeme.scan (',' :: ' ' :: ((Selector.listText (s' :: ss)).toList ++ rest)) = .token .comma ::
          Lexeme.scan (' ' :: ((Selector.listText (s' :: ss)).toList ++ rest)) := scan_of_next rfl
      rw [htext, s.scan_text hs.1 hp.1 (.inr (.inr ⟨',', _, rfl, by decide⟩)), hcomma, scan_blank hblank, hlist]
      have hvalues : Selector.valuesOf (s :: s' :: ss) =
          s.values ++ ([.token .comma, .token .blank] ++ Selector.valuesOf (s' :: ss)) := rfl
      rw [hvalues, lexemesOf_append, lexemesOf_append, List.append_assoc, List.append_assoc]
      rfl

end

/-- The values of a written list of selectors. -/
theorem Selector.ofText_listText {mode : SelectorMode} {list : List Selector} (hne : list ≠ [])
    (h : AllWellFormed ns mode list) (hp : (pseudosIn list).all Pseudo.isSpelled = true) :
    ofText (listText list) = valuesOf list := by
  have hscan := scan_listText list hne h hp (.inl rfl)
  rw [Lexeme.scan, List.append_nil, List.append_nil] at hscan
  rw [ofText, hscan, nest_lexemesOf (sealedAll_of_closesNothing _ (closesNothing_valuesOf list hp))]

end StyleTree
