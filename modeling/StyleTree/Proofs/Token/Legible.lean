/-
# `Proofs.Token.Legible` — what every lexeme that is read has

The scanner gives no lexeme that its text could not stand for: names are
not empty where an identifier was recognised, U+0000 is in no name, string
or URL, a `#` with a name that is no identifier begins with a digit or a
`-`, a delimiter is a character that begins nothing else, and a number is
made of the parts of a written one (`Lexeme.Legible`, `legible_next`).
-/
import StyleTree.Proofs.Token.First

namespace StyleTree

open Text (replacement)

/-! ## Names, strings and delimiters -/

/-- The text can be written and read back: U+0000 is not in it. -/
def Text.IsClean (s : String) : Prop := '\x00' ∉ s.toList

/-- The text can be written as an identifier and read back. -/
structure Text.IsName (n : String) : Prop where
  nonempty : n ≠ ""
  clean : IsClean n

instance (n : String) : Decidable (Text.IsName n) :=
  decidable_of_iff (n ≠ "" ∧ '\x00' ∉ n.toList) ⟨fun h => ⟨h.1, h.2⟩, fun h => ⟨h.nonempty, h.clean⟩⟩

theorem Text.IsName.toList_ne_nil {n : String} (h : IsName n) : n.toList ≠ [] :=
  fun hnil => h.nonempty (String.toList_eq_nil_iff.mp hnil)

/-- A name that is no identifier: a digit is at its front, or behind a `-`, or it is just a `-`. -/
inductive Text.IsNumberName : List Char → Prop
  | digit {c : Char} {cs : List Char} : c.isDigit = true → IsNumberName (c :: cs)
  | minus : IsNumberName ['-']
  | minusDigit {c : Char} {cs : List Char} : c.isDigit = true → IsNumberName ('-' :: c :: cs)

/-- A character that begins nothing but itself, if the right characters follow it. -/
structure Scan.IsDelim (c : Char) : Prop where
  blank : isBlank c = false
  quote : (c == '"' || c == '\'') = false
  fixed : fixed [c] = none
  digit : c.isDigit = false
  nameStart : isNameStart c = false

/-- What a lexeme that was read has. -/
def Lexeme.Legible : Lexeme → Prop
  | .token (.ident n) | .token (.atKeyword n) | .token (.idHash n) | .opening (.function n) => Text.IsName n
  | .token (.hash n) => Text.IsClean n ∧ Text.IsNumberName n.toList
  | .token (.string s) | .token (.url s) => Text.IsClean s
  | .token (.delim c) => Scan.IsDelim c
  | .token (.number n) => ∃ w : Scan.Written, n = w.numeral w.magnitude
  | .token (.percentage n) => ∃ w : Scan.Written, n = w.numeral (Number.double.divNat w.magnitude 100)
  | .token (.dimension n unit) => (∃ w : Scan.Written, n = w.numeral w.magnitude) ∧ Text.IsName unit
  | _ => True

namespace Scan

variable {c : Char} {cs rest : List Char} {l : Lexeme}

/-! ## U+0000 is not read -/

theorem shown_ne_zero (c : Char) : shown c ≠ '\x00' := by
  unfold shown
  split
  · decide
  · next h => simpa using h

theorem charOfCode_ne_zero (n : Nat) : charOfCode n ≠ '\x00' := by
  unfold charOfCode
  split
  · next h =>
      simp only [Bool.and_eq_true, bne_iff_ne, decide_eq_true_eq] at h
      have hcode : (Char.ofNat n).toNat = n := by
        unfold Char.ofNat
        rw [dif_pos h.2]
        rfl
      intro h0
      rw [h0] at hcode
      exact h.1 hcode.symm
  · decide

theorem escape_ne_zero (cs : List Char) : (escape cs).1 ≠ '\x00' := by
  unfold escape
  split
  · decide
  split
  · exact charOfCode_ne_zero _
  split
  · show replacement ≠ '\x00'
    decide
  · next h => simpa using h

theorem zero_not_mem_name (cs : List Char) : '\x00' ∉ (name cs).1 := by
  fun_induction name cs with
  | case1 => exact List.not_mem_nil
  | case2 c cs _ _ ih =>
      rw [List.mem_cons, not_or]
      exact ⟨(shown_ne_zero c).symm, ih⟩
  | case3 c cs _ _ _ ih =>
      rw [List.mem_cons, not_or]
      exact ⟨(escape_ne_zero cs).symm, ih⟩
  | case4 => exact List.not_mem_nil

theorem zero_not_mem_quoted (quote : Char) (cs : List Char) : '\x00' ∉ (quoted quote cs).1 := by
  fun_induction quoted quote cs with
  | case5 c cs _ _ _ _ _ ih => exact ih
  | case6 c cs _ _ _ _ _ _ ih =>
      rw [List.mem_cons, not_or]
      exact ⟨(escape_ne_zero cs).symm, ih⟩
  | case7 c cs _ _ _ _ ih =>
      rw [List.mem_cons, not_or]
      exact ⟨(shown_ne_zero c).symm, ih⟩
  | _ => exact List.not_mem_nil

theorem zero_not_mem_urlText (cs : List Char) : '\x00' ∉ (urlText cs).1 := by
  fun_induction urlText cs with
  | case6 c cs _ _ _ _ _ _ ih =>
      rw [List.mem_cons, not_or]
      exact ⟨(escape_ne_zero cs).symm, ih⟩
  | case7 c cs _ _ _ _ _ ih =>
      rw [List.mem_cons, not_or]
      exact ⟨(shown_ne_zero c).symm, ih⟩
  | _ => exact List.not_mem_nil

theorem isClean_ofList (h : '\x00' ∉ cs) : Text.IsClean (String.ofList cs) := by
  rwa [Text.IsClean, String.toList_ofList]

theorem name_ne_nil (h : startsIdentifier (c :: cs) = true) : (name (c :: cs)).1 ≠ [] := by
  have hlength := name_length_lt h
  rw [name] at hlength ⊢
  split
  · exact List.cons_ne_nil _ _
  split
  · exact List.cons_ne_nil _ _
  · next hchar hescape =>
      rw [if_neg hchar, if_neg hescape] at hlength
      exact absurd hlength (Nat.not_succ_le_self _)

theorem clean_name (h : startsIdentifier cs = true) : Text.IsName (String.ofList (name cs).1) := by
  obtain ⟨c, ds, rfl⟩ := List.exists_cons_of_ne_nil (l := cs) (by rintro rfl; cases h)
  constructor
  · intro hnil
    have := congrArg String.toList hnil
    rw [String.toList_ofList] at this
    exact name_ne_nil h this
  · exact isClean_ofList (zero_not_mem_name _)

/-! ## The kinds of lexemes -/

theorem legible_fixed (h : fixed cs = some (l, rest)) : l.Legible := by
  unfold fixed at h
  split at h <;> cases h <;> trivial

theorem legible_numeric (cs : List Char) : (Lexeme.token (numeric cs).1).Legible := by
  unfold numeric
  simp only
  split
  · exact ⟨_, rfl⟩
  · split
    · next h => exact ⟨⟨_, rfl⟩, clean_name h⟩
    · exact ⟨_, rfl⟩

theorem legible_identLike (h : startsIdentifier cs = true) : (identLike cs).1.Legible := by
  simp only [identLike]
  split
  · split
    · simp only [unquotedUrl]
      split
      · exact isClean_ofList (zero_not_mem_urlText _)
      · trivial
    · exact clean_name h
  · exact clean_name h

/-- Where no identifier starts, but a digit or a `-` stands, the name there is no identifier either. -/
theorem isNumberName_name (h : startsIdentifier (c :: cs) = false) (hc : (c.isDigit || c == '-') = true) :
    Text.IsNumberName (name (c :: cs)).1 := by
  have hshown : ∀ {d : Char}, d.isDigit = true → isNameChar d = true ∧ shown d = d := fun {d} hd => by
    constructor
    · unfold isNameChar
      rw [hd, Bool.or_true, Bool.true_or]
    · refine if_neg fun h0 => ?_
      rw [beq_iff_eq.mp h0] at hd
      cases hd
  rw [Bool.or_eq_true, beq_iff_eq] at hc
  rcases hc with hc | rfl
  · obtain ⟨hchar, hsame⟩ := hshown hc
    rw [name_cons hchar, hsame]
    exact .digit hc
  · rw [name_cons rfl]
    cases cs with
    | nil =>
        rw [name]
        exact .minus
    | cons d ds =>
        have hd : (isNameStart d || d == '-' || d == '\\') = false := h
        rw [Bool.or_eq_false_iff, Bool.or_eq_false_iff, beq_eq_false_iff_ne, beq_eq_false_iff_ne] at hd
        obtain ⟨⟨hstart, hdash⟩, hescape⟩ := hd
        cases hdigit : d.isDigit with
        | true =>
            obtain ⟨hchar, hsame⟩ := hshown hdigit
            rw [name_cons hchar, hsame]
            exact .minusDigit hdigit
        | false =>
            have hstops : Stops (d :: ds) := by
              refine ⟨?_, hescape⟩
              unfold isNameChar
              rw [hstart, hdigit, beq_eq_false_iff_ne.mpr hdash]
              rfl
            rw [name_of_stops hstops]
            exact .minus

theorem isDelim_hash : IsDelim '#' := ⟨rfl, rfl, rfl, rfl, rfl⟩

theorem isDelim_at : IsDelim '@' := ⟨rfl, rfl, rfl, rfl, rfl⟩

theorem legible_hashToken (cs : List Char) : (Lexeme.token (hashToken cs).1).Legible := by
  simp only [hashToken]
  split
  · next hstarts => exact clean_name hstarts
  next hstarts =>
    split
    · next c cs =>
        split
        · next hc =>
            refine ⟨isClean_ofList (zero_not_mem_name _), ?_⟩
            rw [String.toList_ofList]
            exact isNumberName_name (Bool.not_eq_true _ ▸ hstarts) hc
        · exact isDelim_hash
    · exact isDelim_hash

theorem legible_other (hc : IsDelim c) (h : (other c cs).1 = some l) : l.Legible := by
  unfold other at h
  split at h
  · cases h
    exact legible_hashToken cs
  next hhash =>
    split at h
    · cases h
      simp only [atToken]
      split
      · next hstarts => exact clean_name hstarts
      · exact isDelim_at
    next hat =>
      split at h <;> cases h
      exact hc

/-- A character that begins no longer token, no number, no name, no string and no blank. -/
theorem isDelim_of_first (hblank : ¬ isBlank c = true) (hquote : ¬ (c == '"' || c == '\'') = true)
    (hfixed : fixed (c :: cs) = none) (hnumber : ¬ startsNumber (c :: cs) = true)
    (hident : ¬ startsIdentifier (c :: cs) = true) : IsDelim c where
  blank := Bool.eq_false_iff.mpr hblank
  quote := Bool.eq_false_iff.mpr hquote
  fixed := by
    cases h : Scan.fixed [c] with
    | none => rfl
    | some x =>
        unfold Scan.fixed at h
        split at h
        case h_17 => cases h
        all_goals next hcs => cases hcs <;> cases hfixed
  digit := by
    refine Bool.eq_false_iff.mpr fun hdigit => hnumber ?_
    rw [startsNumber_cons, hdigit]
    all_goals
      rintro rfl
      cases hdigit
  nameStart := Bool.eq_false_iff.mpr fun hstart => hident (startsIdentifier_cons hstart)

/-- Every lexeme is legible. -/
theorem legible_next (c : Char) (cs : List Char) (l : Lexeme) (h : (next c cs).1 = some l) : l.Legible := by
  unfold next at h
  split at h
  · cases h
    trivial
  next hblank =>
  split at h
  · cases h
    simp only [stringToken]
    split
    · trivial
    · exact isClean_ofList (zero_not_mem_quoted c cs)
  next hquote =>
  split at h
  · next l' rest hl =>
      cases h
      exact legible_fixed hl
  next hfixed =>
  split at h
  · cases h
    exact legible_numeric _
  next hnumber =>
  split at h
  · next hstarts =>
      cases h
      exact legible_identLike hstarts
  next hstarts =>
    exact legible_other (isDelim_of_first hblank hquote hfixed hnumber hstarts) h

end Scan

end StyleTree
