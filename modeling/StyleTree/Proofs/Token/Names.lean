/-
# `Proofs.Token.Names` — names are read as they were written

A written name is read back, character by character, up to the first
character that cannot belong to a name (`Stops`).  The only loss is U+0000,
which is written and read as the replacement character (`shown`).

An identifier that is not empty is moreover recognised as one where it
starts, whatever its first characters are.
-/
import StyleTree.Token.Scan

namespace StyleTree.Scan

open Text (replacement isBeyondAscii isControl isPlainInName hexDigit hexEscape writeNameChar writeName
  writeNameStart writeIdentifier)

variable {c : Char} {cs rest : List Char}

/-- A name ends here: no character of a name follows, and no escape. -/
def Stops : List Char → Prop
  | [] => True
  | c :: _ => isNameChar c = false ∧ c ≠ '\\'

/-- The character that is read where `c` was written in a name. -/
def shown (c : Char) : Char := if c == '\x00' then replacement else c

theorem name_of_stops (h : Stops rest) : name rest = ([], rest) := by
  cases rest with
  | nil => rw [name]
  | cons c cs => rw [name, if_neg (Bool.eq_false_iff.mp h.1), if_neg (by simp [h.2])]

theorem name_cons (h : isNameChar c = true) :
    name (c :: cs) = (shown c :: (name cs).1, (name cs).2) := by
  rw [name, if_pos h]
  rfl

theorem name_escape (h : startsWithNewline cs = false) :
    name ('\\' :: cs) = ((escape cs).1 :: (name (escape cs).2).1, (name (escape cs).2).2) := by
  rw [name, if_neg (by decide), if_pos (by simp [h])]

/-! ## Escapes -/

theorem isHexDigit_hexDigit : ∀ n < 16, isHexDigit (hexDigit n) = true := by decide

theorem hexValue_hexDigit : ∀ n < 16, hexValue (hexDigit n) = n := by decide

theorem isNewline_hexDigit : ∀ n < 16, isNewline (hexDigit n) = false := by decide

theorem escape_of_isHexDigit (h : isHexDigit c = true) :
    escape (c :: cs) = (charOfCode (hexNumber 6 0 (c :: cs)).1, skipBlank (hexNumber 6 0 (c :: cs)).2) := by
  rw [escape, if_pos h]

theorem hexNumber_blank (fuel n : Nat) : hexNumber fuel n (' ' :: rest) = (n, ' ' :: rest) := by
  cases fuel with
  | zero => rfl
  | succ fuel => rw [hexNumber, if_neg (by decide)]

/-- The escape of an ASCII character by its code is read as the character. -/
theorem escape_hexEscape (h0 : c.toNat ≠ 0) (hc : c.toNat < 128) :
    ∃ d ds, hexEscape c = '\\' :: d :: ds ∧ isNewline d = false ∧
      ∀ rest, escape (d :: (ds ++ rest)) = (c, rest) := by
  have hchar : charOfCode c.toNat = c := by
    rw [charOfCode, if_pos, Char.ofNat_toNat]
    rw [Bool.and_eq_true]
    exact ⟨bne_iff_ne.mpr h0, decide_eq_true (Or.inl (Nat.lt_trans hc (by decide)))⟩
  unfold hexEscape
  by_cases h : c.toNat < 16
  · refine ⟨_, _, if_pos h, isNewline_hexDigit _ h, fun rest => ?_⟩
    have hd := isHexDigit_hexDigit _ h
    show escape (hexDigit c.toNat :: ' ' :: rest) = (c, rest)
    rw [escape_of_isHexDigit hd, hexNumber, if_pos hd, hexNumber_blank, hexValue_hexDigit _ h, Nat.mul_zero,
      Nat.zero_add, hchar]
    rfl
  · have h1 : c.toNat / 16 < 16 := by omega
    have h2 : c.toNat % 16 < 16 := Nat.mod_lt _ (by decide)
    refine ⟨_, _, if_neg h, isNewline_hexDigit _ h1, fun rest => ?_⟩
    have hd1 := isHexDigit_hexDigit _ h1
    have hd2 := isHexDigit_hexDigit _ h2
    show escape (hexDigit (c.toNat / 16) :: hexDigit (c.toNat % 16) :: ' ' :: rest) = (c, rest)
    rw [escape_of_isHexDigit hd1, hexNumber, if_pos hd1, hexNumber, if_pos hd2, hexNumber_blank,
      hexValue_hexDigit _ h1, hexValue_hexDigit _ h2, Nat.mul_zero, Nat.zero_add, Nat.div_add_mod, hchar]
    rfl

theorem name_hexEscape (h0 : c.toNat ≠ 0) (hc : c.toNat < 128) :
    name (hexEscape c ++ rest) = (shown c :: (name rest).1, (name rest).2) := by
  obtain ⟨d, ds, hds, hnewline, hescape⟩ := escape_hexEscape h0 hc
  have hshown : shown c = c := if_neg (by
    rw [beq_iff_eq]
    rintro rfl
    exact h0 rfl)
  replace hnewline : startsWithNewline (d :: (ds ++ rest)) = false := hnewline
  rw [hds, List.cons_append, List.cons_append, name_escape hnewline, hescape, hshown]

/-! ## Characters -/

/-- What holds of all ASCII characters. -/
theorem ascii_forall {P : Char → Prop} (h : ∀ n < 128, P (Char.ofNat n)) (hc : c.toNat < 128) : P c := by
  have := h c.toNat hc
  rwa [Char.ofNat_toNat] at this

theorem toNat_lt_of_not_plain (h : isPlainInName c = false) : c.toNat < 128 := by
  unfold isPlainInName at h
  rw [Bool.or_eq_false_iff] at h
  exact Nat.lt_of_not_le (of_decide_eq_false h.2)

theorem toNat_ne_zero (h : c ≠ '\x00') : c.toNat ≠ 0 := by
  intro h0
  refine h ?_
  rw [← Char.ofNat_toNat c, h0]

theorem isNameChar_of_isPlainInName (h : isPlainInName c = true) : isNameChar c = true := by
  unfold isPlainInName Char.isAlphanum at h
  unfold isNameChar isNameStart
  simp only [Bool.or_eq_true] at h ⊢
  rcases h with (((h | h) | h) | h) | h <;> simp only [h, true_or, or_true]

theorem shown_of_isPlainInName (h : isPlainInName c = true) : shown c = c := by
  rw [shown, if_neg]
  rw [beq_iff_eq]
  rintro rfl
  exact absurd h (by decide)

/-- What takes only a backslash in a name is no line end, no digit and not U+0000. -/
theorem escapable (hplain : isPlainInName c = false) (h0 : c ≠ '\x00') (hcontrol : isControl c = false) :
    isNewline c = false ∧ isHexDigit c = false := by
  have hc := toNat_lt_of_not_plain hplain
  revert hplain h0 hcontrol
  exact ascii_forall (P := fun c => isPlainInName c = false → c ≠ '\x00' → isControl c = false →
    isNewline c = false ∧ isHexDigit c = false) (by decide +kernel) hc

theorem name_writeNameChar (c : Char) (rest : List Char) :
    name (writeNameChar c ++ rest) = (shown c :: (name rest).1, (name rest).2) := by
  unfold writeNameChar
  by_cases hplain : isPlainInName c = true
  · rw [if_pos hplain]
    exact name_cons (isNameChar_of_isPlainInName hplain)
  rw [if_neg hplain]
  rw [Bool.not_eq_true] at hplain
  by_cases h0 : c = '\x00'
  · subst h0
    exact name_cons (by decide)
  rw [if_neg (by simpa using h0)]
  by_cases hcontrol : isControl c = true
  · rw [if_pos hcontrol]
    exact name_hexEscape (toNat_ne_zero h0) (toNat_lt_of_not_plain hplain)
  · rw [if_neg hcontrol]
    obtain ⟨hnewline, hhex⟩ := escapable hplain h0 (Bool.eq_false_iff.mpr hcontrol)
    have hescape : escape (c :: rest) = (c, rest) := by
      rw [escape, if_neg (Bool.eq_false_iff.mp hhex), if_neg (by simpa using h0)]
    have hshown : shown c = c := if_neg (by simpa using h0)
    show name ('\\' :: c :: rest) = _
    rw [name_escape (show startsWithNewline (c :: rest) = false from hnewline), hescape, hshown]

theorem digit_bounds (h : c.isDigit = true) : c.toNat ≠ 0 ∧ c.toNat < 128 := by
  unfold Char.isDigit at h
  rw [Bool.and_eq_true] at h
  have h1 : 48 ≤ c.toNat := of_decide_eq_true h.1
  have h2 : c.toNat ≤ 57 := of_decide_eq_true h.2
  omega

/-! ## Names and identifiers -/

/-- A name of characters that stand for themselves is read as it is, up to where it stops. -/
theorem name_of_plain (hcs : ∀ c ∈ cs, isPlainInName c = true) (h : Stops rest) :
    name (cs ++ rest) = (cs, rest) := by
  induction cs with
  | nil => exact name_of_stops h
  | cons c cs ih =>
      obtain ⟨hc, hcs⟩ := List.forall_mem_cons.mp hcs
      rw [List.cons_append, name_cons (isNameChar_of_isPlainInName hc), ih hcs, shown_of_isPlainInName hc]

/-- A written name is read back, up to where it stops. -/
theorem name_writeName (cs : List Char) (h : Stops rest) :
    name (writeName cs ++ rest) = (cs.map shown, rest) := by
  induction cs with
  | nil => exact name_of_stops h
  | cons c cs ih =>
      rw [writeName, List.flatMap_cons, List.append_assoc, name_writeNameChar, ← writeName, ih]
      rfl

theorem name_writeNameStart (cs : List Char) (h : Stops rest) :
    name (writeNameStart cs ++ rest) = (cs.map shown, rest) := by
  cases cs with
  | nil => exact name_of_stops h
  | cons c cs =>
      rw [writeNameStart, List.append_assoc]
      split
      · next hdigit =>
          rw [name_hexEscape (digit_bounds hdigit).1 (digit_bounds hdigit).2, name_writeName cs h]
          rfl
      · rw [name_writeNameChar, name_writeName cs h]
        rfl

/-- A written identifier is read back, up to where it stops. -/
theorem name_writeIdentifier (cs : List Char) (h : Stops rest) :
    name (writeIdentifier cs ++ rest) = (cs.map shown, rest) := by
  unfold writeIdentifier
  split
  · show name ('\\' :: '-' :: rest) = _
    rw [name_escape (show startsWithNewline ('-' :: rest) = false from rfl)]
    show ('-' :: (name rest).1, (name rest).2) = _
    rw [name_of_stops h]
    rfl
  · next cs =>
      show name ('-' :: '-' :: (writeName cs ++ rest)) = _
      rw [name_cons rfl, name_cons rfl, name_writeName cs h]
      rfl
  · next cs _ _ =>
      show name ('-' :: (writeNameStart cs ++ rest)) = _
      rw [name_cons rfl, name_writeNameStart cs h]
      rfl
  · exact name_writeNameStart _ h

theorem startsIdentifier_cons (h : isNameStart c = true) : startsIdentifier (c :: cs) = true := by
  unfold startsIdentifier
  split
  · next hc =>
      cases hc
      cases h
  · next hc =>
      cases hc
      cases h
  · next hc =>
      cases hc
      exact h
  · next hc => cases hc

/-- The first character of a name is written as one that starts identifiers, or with an escape; but a `-`
is written as it is. -/
theorem writeNameStart_cons (hdash : c ≠ '-') (cs : List Char) :
    ∃ d ds, writeNameStart (c :: cs) = d :: ds ∧
      (isNameStart d = true ∨ d = '\\' ∧ ∃ e es, ds = e :: es ∧ isNewline e = false) := by
  rw [writeNameStart]
  by_cases hdigit : c.isDigit = true
  · obtain ⟨d, ds, hds, hnewline, -⟩ := escape_hexEscape (digit_bounds hdigit).1 (digit_bounds hdigit).2
    rw [if_pos hdigit, hds]
    exact ⟨_, _, rfl, Or.inr ⟨rfl, _, _, rfl, hnewline⟩⟩
  rw [if_neg hdigit]
  unfold writeNameChar
  by_cases hplain : isPlainInName c = true
  · rw [if_pos hplain]
    refine ⟨_, _, rfl, Or.inl ?_⟩
    unfold isPlainInName Char.isAlphanum at hplain
    unfold isNameStart
    simp only [Bool.or_eq_true, beq_iff_eq] at hplain ⊢
    rcases hplain with (((h | h) | h) | h) | h
    · simp only [h, true_or]
    · exact absurd h hdigit
    · simp only [h, true_or, or_true]
    · exact absurd h hdash
    · simp only [h, or_true]
  rw [if_neg hplain]
  rw [Bool.not_eq_true] at hplain
  by_cases h0 : c = '\x00'
  · subst h0
    exact ⟨_, _, rfl, Or.inl (by decide)⟩
  rw [if_neg (by simpa using h0)]
  by_cases hcontrol : isControl c = true
  · obtain ⟨d, ds, hds, hnewline, -⟩ := escape_hexEscape (toNat_ne_zero h0) (toNat_lt_of_not_plain hplain)
    rw [if_pos hcontrol, hds]
    exact ⟨_, _, rfl, Or.inr ⟨rfl, _, _, rfl, hnewline⟩⟩
  · rw [if_neg hcontrol]
    exact ⟨_, _, rfl, Or.inr ⟨rfl, _, _, rfl, (escapable hplain h0 (Bool.eq_false_iff.mpr hcontrol)).1⟩⟩

/-- Where an identifier was written, one starts. -/
theorem startsIdentifier_writeIdentifier (hcs : cs ≠ []) (rest : List Char) :
    startsIdentifier (writeIdentifier cs ++ rest) = true := by
  unfold writeIdentifier
  split
  · rfl
  · rfl
  · next cs hnil hdash =>
      obtain ⟨c, cs, rfl⟩ := List.exists_cons_of_ne_nil (l := cs) (by rintro rfl; exact hnil rfl)
      obtain ⟨d, ds, hds, hd⟩ := writeNameStart_cons (c := c) (by rintro rfl; exact hdash cs rfl) cs
      rw [hds]
      show (isNameStart d || d == '-' || d == '\\') = true
      rcases hd with hd | ⟨rfl, -⟩
      · rw [hd, Bool.true_or, Bool.true_or]
      · rfl
  · next hdash =>
      obtain ⟨c, cs, rfl⟩ := List.exists_cons_of_ne_nil hcs
      obtain ⟨d, ds, hds, hd⟩ := writeNameStart_cons (c := c) (by rintro rfl; exact hdash cs rfl) cs
      rw [hds]
      rcases hd with hd | ⟨rfl, e, es, rfl, he⟩
      · exact startsIdentifier_cons hd
      · show (!isNewline e) = true
        rw [he, Bool.not_false]

end StyleTree.Scan
