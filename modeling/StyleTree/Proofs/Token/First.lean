/-
# `Proofs.Token.First` — what a text begins with

The first characters of a text tell its first lexeme apart, without a look
at the rest: it is an identifier only if one starts there, and a written
identifier is one unless a parenthesis follows it (`scan_writeIdentifier`).
-/
import StyleTree.Proofs.Token.Names

namespace StyleTree

open Scan

variable {c : Char} {cs rest : List Char}

theorem Lexeme.scan_cons (c : Char) (cs : List Char) :
    scan (c :: cs) = (next c cs).1.toList ++ scan (next c cs).2 := by
  rw [scan]

namespace Scan

/-- Where an identifier starts there is a letter, a `-` or a backslash. -/
theorem first_of_startsIdentifier (h : startsIdentifier (c :: cs) = true) :
    isNameStart c = true ∨ c = '\\' ∨
      ∃ d ds, c = '-' ∧ cs = d :: ds ∧ (isNameStart d = true ∨ d = '-' ∨ d = '\\') := by
  unfold startsIdentifier at h
  split at h
  · next d ds hc =>
      cases hc
      simp only [Bool.or_eq_true, beq_iff_eq, or_assoc] at h
      exact Or.inr (Or.inr ⟨_, _, rfl, rfl, h⟩)
  · next hc =>
      cases hc
      exact Or.inr (Or.inl rfl)
  · next hc =>
      cases hc
      exact Or.inl h
  · next hc => cases hc

/-- Where an identifier starts without an escape, it starts whatever follows. -/
theorem startsIdentifier_append_of_plain (h : startsIdentifier (c :: cs) = true)
    (hc : Text.isPlainInName c = true) (ys : List Char) : startsIdentifier (c :: cs ++ ys) = true := by
  rcases first_of_startsIdentifier h with hstart | rfl | ⟨d, ds, rfl, rfl, -⟩
  · exact startsIdentifier_cons hstart
  · exact absurd hc (by decide)
  · exact h

theorem isNameStart_of_isDigit (h : c.isDigit = true) : isNameStart c = false :=
  ascii_forall (P := fun c => c.isDigit = true → isNameStart c = false) (by decide +kernel) (digit_bounds h).2 h

theorem isNameStart_of_isBlank (h : isBlank c = true) : isNameStart c = false ∧ c ≠ '-' ∧ c ≠ '\\' := by
  unfold isBlank isNewline at h
  simp only [Bool.or_eq_true, beq_iff_eq] at h
  rcases h with (rfl | rfl) | (rfl | rfl) | rfl <;> decide

theorem isDigit_of_first (h : isNameStart c = true ∨ c = '-' ∨ c = '\\') : c.isDigit = false := by
  rcases h with h | rfl | rfl
  · cases hdigit : c.isDigit with
    | false => rfl
    | true =>
        rw [isNameStart_of_isDigit hdigit] at h
        cases h
  · rfl
  · rfl

theorem startsNumber_cons (hpoint : c ≠ '.') (hplus : c ≠ '+') (hminus : c ≠ '-') :
    startsNumber (c :: cs) = c.isDigit := by
  unfold startsNumber
  split <;> simp_all [startsWithDigit]

theorem startsNumber_plus (hpoint : c ≠ '.') : startsNumber ('+' :: c :: cs) = c.isDigit := by
  unfold startsNumber
  split <;> simp_all [startsWithDigit]
  next hcs =>
    subst hcs
    rfl

theorem startsNumber_minus (hpoint : c ≠ '.') : startsNumber ('-' :: c :: cs) = c.isDigit := by
  unfold startsNumber
  split <;> simp_all [startsWithDigit]
  next hcs =>
    subst hcs
    rfl

/-- No number starts where an identifier does. -/
theorem startsNumber_of_startsIdentifier (h : startsIdentifier (c :: cs) = true) :
    startsNumber (c :: cs) = false := by
  rcases first_of_startsIdentifier h with hc | rfl | ⟨d, ds, rfl, rfl, hd⟩
  · rw [startsNumber_cons]
    · exact isDigit_of_first (Or.inl hc)
    all_goals
      rintro rfl
      exact absurd hc (by decide)
  · rfl
  · rw [startsNumber_minus]
    · exact isDigit_of_first hd
    · rintro rfl
      exact absurd hd (by decide)

/-- No token with one spelling starts where an identifier does, but for the end of a comment. -/
theorem fixed_of_startsIdentifier (h : startsIdentifier (c :: cs) = true)
    (hclose : ∀ ds, c :: cs ≠ '-' :: '-' :: '>' :: ds) : fixed (c :: cs) = none := by
  have hfirst := first_of_startsIdentifier h
  unfold fixed
  split
  case h_1 hcs => exact absurd hcs (hclose _)
  case h_17 => rfl
  all_goals next hcs =>
    cases hcs
    rcases hfirst with hc | hc | ⟨d, ds, hc, -⟩
    all_goals exact absurd hc (by decide)

/-- A name that starts a text is read as one, unless it closes a comment. -/
theorem next_name (h : startsIdentifier (c :: cs) = true) (hclose : ∀ ds, c :: cs ≠ '-' :: '-' :: '>' :: ds) :
    next c cs = (some (identLike (c :: cs)).1, (identLike (c :: cs)).2) := by
  have hfirst := first_of_startsIdentifier h
  have hblank : isBlank c = false := by
    cases hblank : isBlank c with
    | false => rfl
    | true =>
        obtain ⟨h1, h2, h3⟩ := isNameStart_of_isBlank hblank
        rcases hfirst with hc | rfl | ⟨d, ds, rfl, -⟩
        · rw [h1] at hc
          cases hc
        · exact absurd rfl h3
        · exact absurd rfl h2
  have hquote : (c == '"' || c == '\'') = false := by
    cases hquote : c == '"' || c == '\'' with
    | false => rfl
    | true =>
        rw [Bool.or_eq_true, beq_iff_eq, beq_iff_eq] at hquote
        rcases hquote with rfl | rfl <;> rcases hfirst with hc | hc | ⟨d, ds, hc, -⟩ <;>
          exact absurd hc (by decide)
  unfold next
  rw [hblank, hquote, fixed_of_startsIdentifier h hclose, startsNumber_of_startsIdentifier h, h]
  rfl

/-- A name closes no comment, unless it is `--` in front of a `>`. -/
theorem not_commentClose {text n : List Char} (hname : name text = (n, rest))
    (hclose : n = ['-', '-'] → ∀ ds, rest ≠ '>' :: ds) : ∀ ds, text ≠ '-' :: '-' :: '>' :: ds := by
  intro ds hds
  have hend : name ('-' :: '-' :: '>' :: ds) = (['-', '-'], '>' :: ds) := by
    rw [name_cons rfl, name_cons rfl, name_of_stops (show Stops ('>' :: ds) from ⟨rfl, by decide⟩)]
    rfl
  rw [hds, hend, Prod.mk.injEq] at hname
  exact hclose hname.1.symm ds hname.2.symm

/-- A name is read as an identifier, unless it opens a function or closes a comment. -/
theorem next_ident {n : List Char} (h : startsIdentifier (c :: cs) = true) (hname : name (c :: cs) = (n, rest))
    (hopen : ∀ ds, rest ≠ '(' :: ds) (hclose : n = ['-', '-'] → ∀ ds, rest ≠ '>' :: ds) :
    next c cs = (some (.token (.ident (String.ofList n))), rest) := by
  have hlike : identLike (c :: cs) = (.token (.ident (String.ofList n)), rest) := by
    unfold identLike
    simp only [hname]
  rw [next_name h (not_commentClose hname hclose), hlike]

/-- A name in front of a parenthesis opens a function, unless it is that of URLs and no string follows. -/
theorem next_function {n : List Char} (h : startsIdentifier (c :: cs) = true)
    (hname : name (c :: cs) = (n, '(' :: rest))
    (hurl : Text.sameWord (String.ofList n) "url" = true → startsQuoted rest = true) :
    next c cs = (some (.opening (.function (String.ofList n))), rest) := by
  have hunquoted : (Text.sameWord (String.ofList n) "url" && !startsQuoted rest) = false := by
    cases hsame : Text.sameWord (String.ofList n) "url" with
    | false => rfl
    | true =>
        rw [hurl hsame]
        rfl
  have hlike : identLike (c :: cs) = (.opening (.function (String.ofList n)), rest) := by
    unfold identLike
    simp only [hname, hunquoted, Bool.false_eq_true, if_false]
  rw [next_name h (not_commentClose hname fun _ => by rintro _ ⟨⟩), hlike]

theorem next_blank (h : isBlank c = true) : next c cs = (some (.token .blank), skipBlanks cs) := by
  unfold next
  exact if_pos h

theorem next_at (h : startsIdentifier cs = true) :
    next '@' cs = (some (.token (.atKeyword (String.ofList (name cs).1))), (name cs).2) := by
  show other '@' cs = _
  unfold other atToken
  rw [h]
  rfl

/-- No identifier is read where none starts; and a text that starts with no comment has a first lexeme. -/
theorem next_of_not_startsIdentifier (h : startsIdentifier (c :: cs) = false) (hc : c ≠ '/') :
    ∃ l, (next c cs).1 = some l ∧ ∀ n, l ≠ .token (.ident n) := by
  unfold next
  split
  · exact ⟨_, rfl, by rintro n ⟨⟩⟩
  split
  · refine ⟨_, rfl, fun n => ?_⟩
    simp only [stringToken]
    split <;> rintro ⟨⟩
  split
  · next l rest hl =>
      refine ⟨_, rfl, ?_⟩
      rintro n rfl
      unfold fixed at hl
      split at hl <;> cases hl
  split
  · refine ⟨_, rfl, fun n => ?_⟩
    simp only [numeric]
    split
    · rintro ⟨⟩
    · split <;> rintro ⟨⟩
  split
  · next hi =>
      rw [h] at hi
      cases hi
  · unfold other
    split
    · refine ⟨_, rfl, fun n => ?_⟩
      simp only [hashToken]
      split
      · rintro ⟨⟩
      · split
        · split <;> rintro ⟨⟩
        · rintro ⟨⟩
    split
    · refine ⟨_, rfl, fun n => ?_⟩
      simp only [atToken]
      split <;> rintro ⟨⟩
    · split
      · exact absurd rfl hc
      · exact ⟨_, rfl, by rintro n ⟨⟩⟩

/-! ## Written identifiers -/

/-- A name at the front of a text is its first lexeme, unless it opens a function or closes a comment. -/
theorem scan_ident {text n : List Char} (h : startsIdentifier text = true) (hname : name text = (n, rest))
    (hopen : ∀ ds, rest ≠ '(' :: ds) (hclose : n = ['-', '-'] → ∀ ds, rest ≠ '>' :: ds) :
    Lexeme.scan text = .token (.ident (String.ofList n)) :: Lexeme.scan rest := by
  obtain ⟨c, ds, rfl⟩ := List.exists_cons_of_ne_nil (l := text) (by rintro rfl; cases h)
  rw [Lexeme.scan_cons, next_ident h hname hopen hclose]
  rfl

/-- A written identifier is read as one, unless it opens a function or closes a comment. -/
theorem scan_writeIdentifier (hcs : cs ≠ []) (hstops : Stops rest) (hopen : ∀ ds, rest ≠ '(' :: ds)
    (hclose : ∀ ds, rest ≠ '>' :: ds) :
    Lexeme.scan (Text.writeIdentifier cs ++ rest) =
      .token (.ident (String.ofList (cs.map shown))) :: Lexeme.scan rest :=
  scan_ident (startsIdentifier_writeIdentifier hcs rest) (name_writeIdentifier cs hstops) hopen fun _ => hclose

/-! ## Names as they stand -/

/-- A name ends here, which opens no function and closes no comment. -/
structure EndsName (rest : List Char) : Prop where
  stops : Stops rest
  opens : ∀ ds, rest ≠ '(' :: ds
  closes : ∀ ds, rest ≠ '>' :: ds

theorem endsName_nil : EndsName [] := ⟨trivial, by rintro _ ⟨⟩, by rintro _ ⟨⟩⟩

/-- A name ends at such a sign. -/
theorem endsName_cons {c : Char} (hc : (isNameChar c = false ∧ c ≠ '\\') ∧ c ≠ '(' ∧ c ≠ '>')
    (cs : List Char) : EndsName (c :: cs) := by
  refine ⟨hc.1, ?_, ?_⟩
  · rintro _ ⟨⟩
    exact hc.2.1 rfl
  · rintro _ ⟨⟩
    exact hc.2.2 rfl

/-- An identifier of characters that stand for themselves is read as it is. -/
theorem scan_plain {n : String} (hn : n.toList.all Text.isPlainInName = true)
    (h : startsIdentifier n.toList = true) (hrest : EndsName rest) :
    Lexeme.scan (n.toList ++ rest) = .token (.ident n) :: Lexeme.scan rest := by
  have hplain := List.all_eq_true.mp hn
  have hstarts : startsIdentifier (n.toList ++ rest) = true := by
    obtain ⟨c, cs, hcs⟩ := List.exists_cons_of_ne_nil (l := n.toList) (by intro hnil; rw [hnil] at h; cases h)
    rw [hcs] at h hplain ⊢
    exact startsIdentifier_append_of_plain h (hplain c List.mem_cons_self) rest
  rw [scan_ident hstarts (name_of_plain hplain hrest.stops) hrest.opens fun _ => hrest.closes, String.ofList_toList]

theorem scan_function {n : String} (hn : n.toList.all Text.isPlainInName = true)
    (h : startsIdentifier n.toList = true) (hurl : Text.sameWord n "url" = false) (rest : List Char) :
    Lexeme.scan (n.toList ++ '(' :: rest) = .opening (.function n) :: Lexeme.scan rest := by
  have hplain := List.all_eq_true.mp hn
  obtain ⟨c, cs, hcs⟩ := List.exists_cons_of_ne_nil (l := n.toList) (by intro hnil; rw [hnil] at h; cases h)
  have hname : name (n.toList ++ '(' :: rest) = (n.toList, '(' :: rest) :=
    name_of_plain hplain ⟨rfl, by decide⟩
  have hstarts : startsIdentifier (n.toList ++ '(' :: rest) = true := by
    rw [hcs] at h hplain ⊢
    exact startsIdentifier_append_of_plain h (hplain c List.mem_cons_self) _
  have hunquoted : Text.sameWord (String.ofList n.toList) "url" = true → startsQuoted rest = true := by
    rw [String.ofList_toList, hurl]
    rintro ⟨⟩
  rw [hcs, List.cons_append] at hname hstarts ⊢
  rw [hcs] at hunquoted
  rw [Lexeme.scan_cons, next_function hstarts hname hunquoted, ← hcs, String.ofList_toList]
  rfl

/-! ## Signs -/

theorem scan_of_next {l : Lexeme} (h : next c cs = (some l, rest)) :
    Lexeme.scan (c :: cs) = l :: Lexeme.scan rest := by
  rw [Lexeme.scan_cons, h]
  rfl

/-- A point in front of no digit is one. -/
theorem scan_point (h : startsWithDigit cs = false) :
    Lexeme.scan ('.' :: cs) = .token (.delim '.') :: Lexeme.scan cs := by
  refine scan_of_next ?_
  show (if startsWithDigit cs = true then _ else _) = _
  rw [h]
  rfl

theorem fixed_star (h : ∀ ds, cs ≠ '=' :: ds) : fixed ('*' :: cs) = none := by
  unfold fixed
  split <;> simp_all

theorem fixed_bar (h : ∀ ds, cs ≠ '=' :: ds) : fixed ('|' :: cs) = none := by
  unfold fixed
  split <;> simp_all

theorem scan_star (h : ∀ ds, cs ≠ '=' :: ds) :
    Lexeme.scan ('*' :: cs) = .token (.delim '*') :: Lexeme.scan cs := by
  refine scan_of_next ?_
  unfold next
  rw [fixed_star h]
  rfl

theorem scan_bar (h : ∀ ds, cs ≠ '=' :: ds) :
    Lexeme.scan ('|' :: cs) = .token (.delim '|') :: Lexeme.scan cs := by
  refine scan_of_next ?_
  unfold next
  rw [fixed_bar h]
  rfl

theorem next_hash (h : startsIdentifier cs = true) :
    next '#' cs = (some (.token (.idHash (String.ofList (name cs).1))), (name cs).2) := by
  show (some (Lexeme.token (hashToken cs).1), (hashToken cs).2) = _
  unfold hashToken
  rw [h]
  rfl

/-- A blank in front of anything but a blank. -/
theorem scan_blank (h : ∀ ls, Lexeme.scan cs ≠ .token .blank :: ls) :
    Lexeme.scan (' ' :: cs) = .token .blank :: Lexeme.scan cs := by
  have hskip : skipBlanks cs = cs := by
    cases cs with
    | nil => rfl
    | cons c cs =>
        refine List.dropWhile_cons_of_neg fun hc => ?_
        exact h _ (scan_of_next (next_blank hc))
  refine scan_of_next ?_
  rw [next_blank rfl, hskip]

end Scan

/-! ## Lower case -/

/-- A character that is no ASCII letter has no lower case. -/
theorem toLower_of_le {c : Char} (h : 128 ≤ c.toNat) : c.toLower = c := by
  unfold Char.toLower
  rw [dif_neg]
  rintro ⟨-, h90⟩
  have h90 : c.toNat ≤ 90 := h90
  omega

theorem toLower_toLower (c : Char) : c.toLower.toLower = c.toLower := by
  rcases Nat.lt_or_ge c.toNat 128 with h | h
  · exact Scan.ascii_forall (P := fun c => c.toLower.toLower = c.toLower) (by decide +kernel) h
  · rw [toLower_of_le h, toLower_of_le h]

theorem Text.foldCase_foldCase (s : String) : foldCase (foldCase s) = foldCase s := by
  rw [foldCase, foldCase, String.toList_ofList, List.map_map]
  exact congrArg String.ofList (List.map_congr_left fun c _ => toLower_toLower c)

end StyleTree
