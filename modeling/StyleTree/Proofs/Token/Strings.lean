/-
# `Proofs.Token.Strings` — strings are read as they were written

A written string is read back character by character up to its closing
quote, whatever follows (`scan_quoted`); as in names, the only loss is
U+0000.  That character is never read: no name and no string of a lexeme
contains it, and identifiers are not empty (`Lexeme.Clean`, `clean_next`).
So the names and strings of a text are read back exactly from what is
written for them (`scan_identifier`, `scan_string`).
-/
import StyleTree.Text.Quoted
import StyleTree.Proofs.Token.Legible

namespace StyleTree

open Text (replacement isControl hexEscape writeQuotedChar)

theorem Text.toList_joined (ss : List String) : (Text.joined "" ss).toList = ss.flatMap String.toList := by
  induction ss with
  | nil => rfl
  | cons s ss ih =>
      cases ss with
      | nil => rw [Text.joined, List.flatMap_cons, List.flatMap_nil, List.append_nil]
      | cons s' ss =>
          have hstep : Text.joined "" (s :: s' :: ss) = s ++ "" ++ Text.joined "" (s' :: ss) := rfl
          rw [hstep, String.toList_append, ih, String.append_empty]
          rfl

namespace Scan

variable {c : Char} {cs rest : List Char}

/-! ## Strings -/

theorem quoted_escape {d : Char} {ds : List Char} (h : isNewline d = false) :
    quoted '"' ('\\' :: d :: ds) =
      ((escape (d :: ds)).1 :: (quoted '"' (escape (d :: ds)).2).1, (quoted '"' (escape (d :: ds)).2).2) := by
  rw [quoted, if_neg (by decide), if_neg (by decide), if_pos (by decide), if_neg (by rintro ⟨⟩)]
  exact if_neg (Bool.eq_false_iff.mp h)

theorem quoted_cons (hquote : c ≠ '"') (hescape : c ≠ '\\') (hnewline : isNewline c = false) :
    quoted '"' (c :: cs) = (shown c :: (quoted '"' cs).1, (quoted '"' cs).2) := by
  rw [quoted, if_neg (by simpa using hquote), if_neg (Bool.eq_false_iff.mp hnewline),
    if_neg (by simpa using hescape)]
  rfl

theorem isControl_of_isNewline (h : isNewline c = true) : isControl c = true := by
  unfold isNewline at h
  simp only [Bool.or_eq_true, beq_iff_eq] at h
  rcases h with (rfl | rfl) | rfl <;> decide

theorem toNat_lt_of_isControl (h : isControl c = true) : c.toNat ≠ 0 ∧ c.toNat < 128 := by
  unfold isControl at h
  simp only [Bool.or_eq_true, Bool.and_eq_true, decide_eq_true_eq, beq_iff_eq] at h
  rcases h with ⟨hmin, hmax⟩ | h
  · have h1 : 1 ≤ c.toNat := hmin
    have h2 : c.toNat ≤ 31 := hmax
    omega
  · have h1 : c.toNat = 127 := congrArg UInt32.toNat h
    omega

theorem quoted_writeQuotedChar (c : Char) (rest : List Char) :
    quoted '"' (writeQuotedChar c ++ rest) = (shown c :: (quoted '"' rest).1, (quoted '"' rest).2) := by
  unfold writeQuotedChar
  by_cases hmark : (c == '"' || c == '\\') = true
  · rw [if_pos hmark]
    simp only [Bool.or_eq_true, beq_iff_eq] at hmark
    rcases hmark with rfl | rfl
    · exact quoted_escape rfl
    · exact quoted_escape rfl
  rw [if_neg hmark]
  simp only [Bool.or_eq_true, beq_iff_eq, not_or] at hmark
  by_cases h0 : c = '\x00'
  · subst h0
    exact quoted_cons (by decide) (by decide) rfl
  rw [if_neg (by simpa using h0)]
  have hshown : shown c = c := if_neg (by simpa using h0)
  by_cases hcontrol : isControl c = true
  · obtain ⟨hzero, hascii⟩ := toNat_lt_of_isControl hcontrol
    obtain ⟨d, ds, hds, hnewline, hescape⟩ := escape_hexEscape hzero hascii
    rw [if_pos hcontrol, hds, List.cons_append, List.cons_append, quoted_escape hnewline, hescape, hshown]
  · rw [if_neg hcontrol]
    refine quoted_cons hmark.1 hmark.2 (Bool.eq_false_iff.mpr fun h => hcontrol ?_)
    exact isControl_of_isNewline h

/-- A written string is read back, up to its closing quote. -/
theorem quoted_writeQuoted (cs rest : List Char) :
    quoted '"' (cs.flatMap writeQuotedChar ++ '"' :: rest) = (cs.map shown, false, rest) := by
  induction cs with
  | nil => rw [List.flatMap_nil, List.nil_append, quoted, if_pos (by decide), List.map_nil]
  | cons c cs ih =>
      rw [List.flatMap_cons, List.append_assoc, quoted_writeQuotedChar, ih, List.map_cons]

theorem scan_writeQuoted (cs rest : List Char) :
    Lexeme.scan (Text.writeQuoted cs ++ rest) =
      .token (.string (String.ofList (cs.map shown))) :: Lexeme.scan rest := by
  have hnext : next '"' (cs.flatMap writeQuotedChar ++ '"' :: rest) =
      (some (.token (.string (String.ofList (cs.map shown)))), rest) := by
    show (some (Lexeme.token (stringToken '"' _).1), (stringToken '"' _).2) = _
    rw [stringToken, quoted_writeQuoted]
    rfl
  have htext : Text.writeQuoted cs ++ rest = '"' :: (cs.flatMap writeQuotedChar ++ '"' :: rest) := by
    simp [Text.writeQuoted]
  rw [htext, Lexeme.scan_cons, hnext]
  rfl

end Scan

/-! ## U+0000 is not read -/

/-- A lexeme with names and strings that can be written and read back. -/
def Lexeme.Clean : Lexeme → Prop
  | .token (.ident n) => Text.IsName n
  | .token (.idHash n) => Text.IsName n
  | .token (.string s) => Text.IsClean s
  | _ => True

namespace Scan

/-- Every lexeme is clean. -/
theorem clean_next (c : Char) (cs : List Char) (l : Lexeme) (h : (next c cs).1 = some l) : l.Clean := by
  have hl := legible_next c cs l h
  cases l with
  | opening o => trivial
  | token t =>
      cases t with
      | ident n => exact hl
      | idHash n => exact hl
      | string s => exact hl
      | _ => trivial

/-! ## What is written is read back -/

theorem map_shown {s : String} (h : Text.IsClean s) : String.ofList (s.toList.map shown) = s := by
  have hmap : s.toList.map shown = s.toList := by
    refine (List.map_congr_left fun c hc => ?_).trans (List.map_id _)
    refine if_neg fun h0 => h ?_
    rwa [← beq_iff_eq.mp h0]
  rw [hmap, String.ofList_toList]

/-- A written string is read back. -/
theorem scan_string {s : String} (h : Text.IsClean s) (rest : List Char) :
    Lexeme.scan ((Text.quoted s).toList ++ rest) = .token (.string s) :: Lexeme.scan rest := by
  rw [Text.quoted, String.toList_ofList, scan_writeQuoted, map_shown h]

/-- A written identifier is read back where it ends. -/
theorem scan_identifier {n : String} (h : Text.IsName n) (hrest : EndsName rest) :
    Lexeme.scan ((Text.identifier n).toList ++ rest) = .token (.ident n) :: Lexeme.scan rest := by
  have hnil : n.toList ≠ [] := fun hnil => h.nonempty (String.toList_eq_nil_iff.mp hnil)
  rw [Text.identifier, String.toList_ofList, scan_writeIdentifier hnil hrest.stops hrest.opens hrest.closes,
    map_shown h.clean]

theorem startsIdentifier_identifier {n : String} (h : Text.IsName n) (rest : List Char) :
    startsIdentifier ((Text.identifier n).toList ++ rest) = true := by
  rw [Text.identifier, String.toList_ofList]
  exact startsIdentifier_writeIdentifier (fun hnil => h.nonempty (String.toList_eq_nil_iff.mp hnil)) rest

/-- An identifier behind a number sign. -/
theorem scan_idHash {n : String} (h : Text.IsName n) (hrest : Stops rest) :
    Lexeme.scan ('#' :: ((Text.identifier n).toList ++ rest)) = .token (.idHash n) :: Lexeme.scan rest := by
  refine scan_of_next ?_
  rw [next_hash (startsIdentifier_identifier h rest), Text.identifier, String.toList_ofList,
    name_writeIdentifier _ hrest, map_shown h.clean]

theorem startsWithDigit_of_startsIdentifier (h : startsIdentifier cs = true) : startsWithDigit cs = false := by
  cases cs with
  | nil => rfl
  | cons c cs =>
      refine isDigit_of_first ?_
      rcases first_of_startsIdentifier h with hc | rfl | ⟨d, ds, rfl, -⟩
      · exact .inl hc
      · exact .inr (.inr rfl)
      · exact .inr (.inl rfl)

/-- An identifier behind a point. -/
theorem scan_class {n : String} (h : Text.IsName n) (hrest : EndsName rest) :
    Lexeme.scan ('.' :: ((Text.identifier n).toList ++ rest)) =
      .token (.delim '.') :: .token (.ident n) :: Lexeme.scan rest := by
  rw [scan_point (startsWithDigit_of_startsIdentifier (startsIdentifier_identifier h rest)),
    scan_identifier h hrest]

end Scan

end StyleTree
