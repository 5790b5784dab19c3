/-
# `Proofs.Token.Locality` — the scanner does not look past a mark

Each function of the scanner takes some characters, and looks at a few more
behind them.  A semicolon and an opening brace end all that it may be looking
for: if such a mark is left, then the same characters are taken whatever
follows the text.  So a text in which the scan comes to a mark at the end
(`endsIn`) is scanned for itself (`scan_append`).
-/
import StyleTree.Proofs.Token.Numbers

namespace StyleTree.Scan

variable {m c : Char} {cs ds ys : List Char}

/-! ## Looking ahead -/

theorem mem_tail (h : m ∈ c :: cs) (hc : c ≠ m) : m ∈ cs :=
  (List.mem_cons.mp h).resolve_left hc.symm

/-- Before the mark, what the longer text begins with is what the text itself begins with. -/
theorem uncons (h : m ∈ cs) (heq : cs ++ ys = c :: ds) :
    ∃ cs', cs = c :: cs' ∧ cs' ++ ys = ds ∧ (c ≠ m → m ∈ cs') := by
  cases cs with
  | nil => cases h
  | cons d cs' =>
      obtain ⟨rfl, rfl⟩ := List.cons.inj heq
      exact ⟨cs', rfl, rfl, mem_tail h⟩

theorem startsWithNewline_append (h : m ∈ cs) (ys : List Char) :
    startsWithNewline (cs ++ ys) = startsWithNewline cs := by
  cases cs with
  | nil => cases h
  | cons c cs => rfl

theorem startsWithDigit_append (h : m ∈ cs) (ys : List Char) :
    startsWithDigit (cs ++ ys) = startsWithDigit cs := by
  cases cs with
  | nil => cases h
  | cons c cs => rfl

theorem dropWhile_append {p : Char → Bool} (h : m ∈ cs.dropWhile p) (ys : List Char) :
    (cs ++ ys).dropWhile p = cs.dropWhile p ++ ys := by
  rw [List.dropWhile_append, if_neg]
  intro hnil
  rw [List.isEmpty_iff.mp hnil] at h
  cases h

theorem skipBlanks_local (h : m ∈ skipBlanks cs) :
    m ∈ cs ∧ ∀ ys, skipBlanks (cs ++ ys) = skipBlanks cs ++ ys :=
  ⟨(List.dropWhile_sublist _).subset h, dropWhile_append h⟩

theorem isEmpty_append (h : m ∈ cs) (ys : List Char) : ¬ (cs ++ ys).isEmpty = true := by
  cases cs with
  | nil => cases h
  | cons c cs => exact Bool.false_ne_true

theorem mem_dropWhile {p : Char → Bool} (hp : p m = false) (h : m ∈ cs) : m ∈ cs.dropWhile p := by
  induction cs with
  | nil => cases h
  | cons c cs ih =>
      rw [List.dropWhile_cons]
      split
      · next hc =>
          refine ih ((List.mem_cons.mp h).resolve_left ?_)
          rintro rfl
          rw [hp] at hc
          cases hc
      · exact h

/-! ## Marks -/

/-- The character ends all that the scanner may be looking for, and is a lexeme by itself. -/
class IsMark (m : Char) : Prop where
  out : m = ';' ∨ m = '\x7b'

instance : IsMark ';' := ⟨Or.inl rfl⟩

instance : IsMark '\x7b' := ⟨Or.inr rfl⟩

theorem IsMark.ne [IsMark m] (h : c ≠ ';' ∧ c ≠ '\x7b') : c ≠ m := by
  rcases IsMark.out (m := m) with rfl | rfl
  · exact h.1
  · exact h.2

theorem IsMark.isBlank_eq [IsMark m] : isBlank m = false := by
  rcases IsMark.out (m := m) with rfl | rfl <;> rfl

theorem IsMark.scan_eq [IsMark m] : ∃ l, ∀ cs, Lexeme.scan (m :: cs) = l :: Lexeme.scan cs := by
  rcases IsMark.out (m := m) with rfl | rfl
  · exact ⟨.token .semicolon, fun cs => scan_of_next rfl⟩
  · exact ⟨.opening (.bracket .curly), fun cs => scan_of_next rfl⟩

theorem startsIdentifier_append [IsMark m] (h : m ∈ cs) (ys : List Char) :
    startsIdentifier (cs ++ ys) = startsIdentifier cs := by
  generalize hcs : cs ++ ys = xs
  unfold startsIdentifier
  split
  · obtain ⟨cs', rfl, h1, hmem⟩ := uncons h hcs
    obtain ⟨ds, rfl, -⟩ := uncons (hmem (IsMark.ne (by decide))) h1
    rfl
  · obtain ⟨cs', rfl, rfl, hmem⟩ := uncons h hcs
    simp only [startsWithNewline_append (hmem (IsMark.ne (by decide)))]
  · next hminus hescape =>
    obtain ⟨cs', rfl, rfl, hmem⟩ := uncons h hcs
    split
    · next hc =>
        cases hc
        exact absurd rfl (hminus _ _ rfl)
    · next hc =>
        cases hc
        exact absurd rfl hescape
    · next hc =>
        cases hc
        rfl
    · next hc => cases hc
  · obtain rfl := (List.append_eq_nil_iff.mp hcs).1
    cases h

theorem startsNumber_append [IsMark m] (h : m ∈ cs) (ys : List Char) :
    startsNumber (cs ++ ys) = startsNumber cs := by
  cases cs with
  | nil => cases h
  | cons c cs =>
      by_cases hpoint : c = '.'
      · subst hpoint
        exact startsWithDigit_append (mem_tail h (IsMark.ne (by decide))) ys
      by_cases hsign : c = '+' ∨ c = '-'
      · have h' := mem_tail h (by rcases hsign with rfl | rfl <;> exact IsMark.ne (by decide))
        cases cs with
        | nil => cases h'
        | cons d cs =>
            by_cases hd : d = '.'
            · subst hd
              have h'' := startsWithDigit_append (mem_tail h' (IsMark.ne (by decide))) ys
              rcases hsign with rfl | rfl
              · exact h''
              · exact h''
            · rcases hsign with rfl | rfl
              · rw [List.cons_append, List.cons_append, startsNumber_plus hd, startsNumber_plus hd]
              · rw [List.cons_append, List.cons_append, startsNumber_minus hd, startsNumber_minus hd]
      · obtain ⟨hplus, hminus⟩ := not_or.mp hsign
        rw [List.cons_append, startsNumber_cons hpoint hplus hminus, startsNumber_cons hpoint hplus hminus]

/-! ## Blanks and escapes -/

theorem skipNewline_cons (h : ∀ ds, c = '\r' → cs ≠ '\n' :: ds) :
    skipNewline (c :: cs) = if isNewline c then cs else c :: cs := by
  rw [skipNewline]
  exact fun ds hc hcs => h ds hc hcs

theorem skipNewline_local (h : m ∈ skipNewline cs) :
    m ∈ cs ∧ ∀ ys, skipNewline (cs ++ ys) = skipNewline cs ++ ys := by
  fun_cases skipNewline cs with
  | case1 cs => exact ⟨List.mem_cons_of_mem _ (List.mem_cons_of_mem _ h), fun ys => rfl⟩
  | case2 c cs hcr hc =>
      have hcs : ∀ ds, c = '\r' → cs ≠ '\n' :: ds := fun ds h1 h2 => hcr ds h1 h2
      rw [skipNewline_cons hcs, if_pos hc] at h
      refine ⟨List.mem_cons_of_mem _ h, fun ys => ?_⟩
      rw [List.cons_append, skipNewline_cons, if_pos hc]
      intro ds h1 h2
      obtain ⟨cs', rfl, -⟩ := uncons h h2
      exact hcs cs' h1 rfl
  | case3 c cs hcr hc =>
      have hcs : ∀ ds, c = '\r' → cs ≠ '\n' :: ds := fun ds h1 h2 => hcr ds h1 h2
      rw [skipNewline_cons hcs, if_neg hc] at h
      refine ⟨h, fun ys => ?_⟩
      rw [List.cons_append, skipNewline_cons, if_neg hc]
      rintro ds rfl -
      exact hc rfl
  | case4 => cases h

theorem skipBlank_local (h : m ∈ skipBlank cs) :
    m ∈ cs ∧ ∀ ys, skipBlank (cs ++ ys) = skipBlank cs ++ ys := by
  fun_cases skipBlank cs with
  | case1 cs => exact ⟨List.mem_cons_of_mem _ h, fun ys => rfl⟩
  | case2 cs => exact ⟨List.mem_cons_of_mem _ h, fun ys => rfl⟩
  | case3 cs hspace htab =>
      have heq : skipBlank cs = skipNewline cs := skipBlank.eq_3 cs hspace htab
      rw [heq] at h
      obtain ⟨hcs, happend⟩ := skipNewline_local h
      refine ⟨hcs, fun ys => ?_⟩
      rw [← happend, skipBlank.eq_3]
      · intro ds hds
        obtain ⟨cs', rfl, -⟩ := uncons hcs hds
        exact hspace cs' rfl
      · intro ds hds
        obtain ⟨cs', rfl, -⟩ := uncons hcs hds
        exact htab cs' rfl

theorem hexNumber_local (fuel n : Nat) (cs : List Char) (h : m ∈ (hexNumber fuel n cs).2) :
    m ∈ cs ∧ ∀ ys, hexNumber fuel n (cs ++ ys) =
      ((hexNumber fuel n cs).1, (hexNumber fuel n cs).2 ++ ys) := by
  induction fuel generalizing n cs with
  | zero => exact ⟨h, fun ys => rfl⟩
  | succ fuel ih =>
      cases cs with
      | nil => cases h
      | cons c cs =>
          rw [hexNumber] at h ⊢
          by_cases hc : isHexDigit c = true
          · rw [if_pos hc] at h ⊢
            obtain ⟨hmem, happend⟩ := ih _ _ h
            refine ⟨List.mem_cons_of_mem _ hmem, fun ys => ?_⟩
            rw [List.cons_append, hexNumber, if_pos hc, happend]
          · rw [if_neg hc] at h ⊢
            refine ⟨h, fun ys => ?_⟩
            rw [List.cons_append, hexNumber, if_neg hc]

theorem escape_local (h : m ∈ (escape cs).2) :
    m ∈ cs ∧ ∀ ys, escape (cs ++ ys) = ((escape cs).1, (escape cs).2 ++ ys) := by
  cases cs with
  | nil => cases h
  | cons c cs =>
      by_cases hc : isHexDigit c = true
      · rw [escape_of_isHexDigit hc] at h ⊢
        obtain ⟨hrest, hskip⟩ := skipBlank_local h
        obtain ⟨hmem, happend⟩ := hexNumber_local _ _ _ hrest
        refine ⟨hmem, fun ys => ?_⟩
        rw [List.cons_append, escape_of_isHexDigit hc, ← List.cons_append, happend, hskip]
      · rw [escape, if_neg hc] at h ⊢
        have hcs : m ∈ cs := by
          split at h <;> exact h
        refine ⟨List.mem_cons_of_mem _ hcs, fun ys => ?_⟩
        rw [List.cons_append, escape, if_neg hc]
        split <;> rfl

/-! ## Names, strings and comments -/

theorem name_local [IsMark m] (h : m ∈ (name cs).2) :
    m ∈ cs ∧ ∀ ys, name (cs ++ ys) = ((name cs).1, (name cs).2 ++ ys) := by
  fun_induction name cs with
  | case1 => cases h
  | case2 c cs hc r ih =>
      obtain ⟨hmem, happend⟩ := ih h
      refine ⟨List.mem_cons_of_mem _ hmem, fun ys => ?_⟩
      rw [List.cons_append, name_cons hc, happend]
      rfl
  | case3 c cs hname hc r ih =>
      obtain ⟨hrest, happend⟩ := ih h
      obtain ⟨hmem, hescape⟩ := escape_local hrest
      refine ⟨List.mem_cons_of_mem _ hmem, fun ys => ?_⟩
      rw [List.cons_append, name, if_neg hname, startsWithNewline_append hmem, if_pos hc, hescape, happend]
  | case4 c cs hname hc =>
      refine ⟨h, fun ys => ?_⟩
      have hc' : ¬ (c == '\\' && !startsWithNewline (cs ++ ys)) = true := by
        by_cases hescape : c = '\\'
        · subst hescape
          rwa [startsWithNewline_append (mem_tail h (IsMark.ne (by decide)))]
        · simp [hescape]
      rw [List.cons_append, name, if_neg hname, if_neg hc']

theorem quoted_local {quote : Char} (h : m ∈ (quoted quote cs).2.2) :
    m ∈ cs ∧ ∀ ys, quoted quote (cs ++ ys) =
      ((quoted quote cs).1, (quoted quote cs).2.1, (quoted quote cs).2.2 ++ ys) := by
  fun_induction quoted quote cs with
  | case1 => cases h
  | case2 c cs hc =>
      refine ⟨List.mem_cons_of_mem _ h, fun ys => ?_⟩
      rw [List.cons_append, quoted, if_pos hc]
  | case3 c cs hq hc =>
      refine ⟨h, fun ys => ?_⟩
      rw [List.cons_append, quoted, if_neg hq, if_pos hc]
  | case4 => cases h
  | case5 c cs hq hn hc hne hnl ih =>
      obtain ⟨hrest, happend⟩ := ih h
      obtain ⟨hmem, hskip⟩ := skipNewline_local hrest
      refine ⟨List.mem_cons_of_mem _ hmem, fun ys => ?_⟩
      rw [List.cons_append, quoted, if_neg hq, if_neg hn, if_pos hc, if_neg (isEmpty_append hmem ys),
        startsWithNewline_append hmem, if_pos hnl, hskip, happend]
  | case6 c cs hq hn hc hne hnl r ih =>
      obtain ⟨hrest, happend⟩ := ih h
      obtain ⟨hmem, hescape⟩ := escape_local hrest
      refine ⟨List.mem_cons_of_mem _ hmem, fun ys => ?_⟩
      rw [List.cons_append, quoted, if_neg hq, if_neg hn, if_pos hc, if_neg (isEmpty_append hmem ys),
        startsWithNewline_append hmem, if_neg hnl, hescape, happend]
  | case7 c cs hq hn hc r ih =>
      obtain ⟨hmem, happend⟩ := ih h
      refine ⟨List.mem_cons_of_mem _ hmem, fun ys => ?_⟩
      rw [List.cons_append, quoted, if_neg hq, if_neg hn, if_neg hc, happend]

theorem commentEnd_local (h : m ∈ commentEnd cs) :
    m ∈ cs ∧ ∀ ys, commentEnd (cs ++ ys) = commentEnd cs ++ ys := by
  fun_induction commentEnd cs with
  | case1 => cases h
  | case2 cs => exact ⟨List.mem_cons_of_mem _ (List.mem_cons_of_mem _ h), fun ys => rfl⟩
  | case3 c cs hend ih =>
      obtain ⟨hmem, happend⟩ := ih h
      refine ⟨List.mem_cons_of_mem _ hmem, fun ys => ?_⟩
      rw [List.cons_append, commentEnd, happend]
      intro ds hc hds
      obtain ⟨cs', rfl, -⟩ := uncons hmem hds
      exact hend cs' hc rfl

/-! ## URLs -/

theorem urlEnd_of_ne (hcs : skipBlanks cs = c :: ds) (hc : c ≠ ')') : urlEnd cs = (false, ds) := by
  unfold urlEnd
  rw [hcs]
  split <;> simp_all

theorem urlEnd_local (h : m ∈ (urlEnd cs).2) :
    m ∈ cs ∧ ∀ ys, urlEnd (cs ++ ys) = ((urlEnd cs).1, (urlEnd cs).2 ++ ys) := by
  cases hcs : skipBlanks cs with
  | nil =>
      unfold urlEnd at h
      rw [hcs] at h
      cases h
  | cons c ds =>
      have hds : m ∈ ds := by
        by_cases hc : c = ')'
        · subst hc
          unfold urlEnd at h
          rw [hcs] at h
          exact h
        · rwa [urlEnd_of_ne hcs hc] at h
      obtain ⟨hmem, happend⟩ := skipBlanks_local (hcs ▸ List.mem_cons_of_mem c hds)
      refine ⟨hmem, fun ys => ?_⟩
      have hcs' : skipBlanks (cs ++ ys) = c :: (ds ++ ys) := by rw [happend, hcs, List.cons_append]
      by_cases hc : c = ')'
      · subst hc
        unfold urlEnd
        rw [hcs, hcs']
        rfl
      · rw [urlEnd_of_ne hcs hc, urlEnd_of_ne hcs' hc]

theorem urlText_local (h : m ∈ (urlText cs).2.2) :
    m ∈ cs ∧ ∀ ys, urlText (cs ++ ys) =
      ((urlText cs).1, (urlText cs).2.1, (urlText cs).2.2 ++ ys) := by
  fun_induction urlText cs with
  | case1 => cases h
  | case2 c cs hc =>
      obtain ⟨hmem, happend⟩ := urlEnd_local h
      refine ⟨List.mem_cons_of_mem _ hmem, fun ys => ?_⟩
      rw [List.cons_append, urlText, if_pos hc, happend]
  | case3 c cs hb hc =>
      refine ⟨List.mem_cons_of_mem _ h, fun ys => ?_⟩
      rw [List.cons_append, urlText, if_neg hb, if_pos hc]
  | case4 c cs hb hp hc =>
      refine ⟨List.mem_cons_of_mem _ h, fun ys => ?_⟩
      rw [List.cons_append, urlText, if_neg hb, if_neg hp, if_pos hc]
  | case5 c cs hb hp hf hc hn =>
      refine ⟨List.mem_cons_of_mem _ h, fun ys => ?_⟩
      rw [List.cons_append, urlText, if_neg hb, if_neg hp, if_neg hf, if_pos hc,
        startsWithNewline_append h, if_pos hn]
  | case6 c cs hb hp hf hc hn r ih =>
      obtain ⟨hrest, happend⟩ := ih h
      obtain ⟨hmem, hescape⟩ := escape_local hrest
      refine ⟨List.mem_cons_of_mem _ hmem, fun ys => ?_⟩
      rw [List.cons_append, urlText, if_neg hb, if_neg hp, if_neg hf, if_pos hc,
        startsWithNewline_append hmem, if_neg hn, hescape, happend]
  | case7 c cs hb hp hf hc r ih =>
      obtain ⟨hmem, happend⟩ := ih h
      refine ⟨List.mem_cons_of_mem _ hmem, fun ys => ?_⟩
      rw [List.cons_append, urlText, if_neg hb, if_neg hp, if_neg hf, if_neg hc, happend]

theorem badUrlEnd_local (h : m ∈ (badUrlEnd cs).2) :
    m ∈ cs ∧ ∀ ys, badUrlEnd (cs ++ ys) = ((badUrlEnd cs).1, (badUrlEnd cs).2 ++ ys) := by
  fun_induction badUrlEnd cs with
  | case1 => cases h
  | case2 cs => exact ⟨List.mem_cons_of_mem _ h, fun ys => rfl⟩
  | case3 cs r ih | case4 cs r ih =>
      obtain ⟨hmem, happend⟩ := ih h
      refine ⟨List.mem_cons_of_mem _ (List.mem_cons_of_mem _ hmem), fun ys => ?_⟩
      rw [List.cons_append, List.cons_append, badUrlEnd, happend]
  | case5 c cs hclose hparen hslash r ih =>
      obtain ⟨hmem, happend⟩ := ih h
      refine ⟨List.mem_cons_of_mem _ hmem, fun ys => ?_⟩
      rw [List.cons_append, badUrlEnd, happend]
      · exact hclose
      · intro ds hc hds
        obtain ⟨cs', rfl, -⟩ := uncons hmem hds
        exact hparen cs' hc rfl
      · intro ds hc hds
        obtain ⟨cs', rfl, -⟩ := uncons hmem hds
        exact hslash cs' hc rfl

theorem unquotedUrl_local (h : m ∈ (unquotedUrl cs).2) :
    m ∈ cs ∧ ∀ ys, unquotedUrl (cs ++ ys) = ((unquotedUrl cs).1, (unquotedUrl cs).2 ++ ys) := by
  have htext : m ∈ (urlText (skipBlanks cs)).2.2 := by
    unfold unquotedUrl at h
    simp only at h
    split at h
    · exact h
    · exact (badUrlEnd_local h).1
  obtain ⟨hskip, htext'⟩ := urlText_local htext
  obtain ⟨hmem, hskip'⟩ := skipBlanks_local hskip
  refine ⟨hmem, fun ys => ?_⟩
  unfold unquotedUrl at h ⊢
  simp only at h ⊢
  rw [hskip', htext']
  simp only
  split at h
  · next hgood => rw [if_pos hgood, if_pos hgood]
  · next hbad =>
      have hlen := urlText_length (skipBlanks cs)
      rw [if_neg hbad, if_neg hbad, (badUrlEnd_local h).2, List.length_append, List.length_append,
        Nat.add_sub_add_right, List.take_append_of_le_length (Nat.sub_le _ _)]

/-! ## Names that open a function -/

theorem startsQuoted_append [IsMark m] (h : m ∈ cs) (ys : List Char) :
    startsQuoted (cs ++ ys) = startsQuoted cs := by
  have hskip : m ∈ skipBlanks cs := mem_dropWhile IsMark.isBlank_eq h
  unfold startsQuoted
  rw [(skipBlanks_local hskip).2]
  cases hcs : skipBlanks cs with
  | nil =>
      rw [hcs] at hskip
      cases hskip
  | cons c ds => rfl

theorem identLike_of_ne (h : ∀ ds, (name cs).2 ≠ '(' :: ds) :
    identLike cs = (.token (.ident (String.ofList (name cs).1)), (name cs).2) := by
  unfold identLike
  simp only

theorem identLike_local [IsMark m] (h : m ∈ (identLike cs).2) :
    m ∈ cs ∧ ∀ ys, identLike (cs ++ ys) = ((identLike cs).1, (identLike cs).2 ++ ys) := by
  by_cases hopen : ∃ ds, (name cs).2 = '(' :: ds
  · obtain ⟨ds, hds⟩ := hopen
    have hrest : m ∈ ds := by
      unfold identLike at h
      simp only [hds] at h
      split at h
      · exact (unquotedUrl_local h).1
      · exact h
    obtain ⟨hmem, hname⟩ := name_local (hds ▸ List.mem_cons_of_mem '(' hrest)
    refine ⟨hmem, fun ys => ?_⟩
    unfold identLike at h ⊢
    simp only [hds, hname, List.cons_append, startsQuoted_append hrest] at h ⊢
    split at h
    · next hurl => rw [if_pos hurl, if_pos hurl, (unquotedUrl_local h).2]
    · next hurl => rw [if_neg hurl, if_neg hurl]
  · have hne := not_exists.mp hopen
    rw [identLike_of_ne hne] at h
    obtain ⟨hmem, hname⟩ := name_local h
    refine ⟨hmem, fun ys => ?_⟩
    rw [identLike_of_ne hne, identLike_of_ne, hname]
    intro ds hds
    rw [hname] at hds
    obtain ⟨cs', hcs', -⟩ := uncons h hds
    exact hne cs' hcs'

/-! ## Numbers -/

theorem digits_append (h : m ∈ afterDigits cs) (ys : List Char) : digits (cs ++ ys) = digits cs := by
  unfold digits
  rw [List.takeWhile_append, if_neg]
  intro hlen
  have hcs := congrArg List.length (List.takeWhile_append_dropWhile (p := Char.isDigit) (l := cs))
  rw [List.length_append, hlen, Nat.add_eq_left, List.length_eq_zero_iff] at hcs
  rw [afterDigits, hcs] at h
  cases h

theorem afterDigits_local (h : m ∈ afterDigits cs) :
    m ∈ cs ∧ ∀ ys, afterDigits (cs ++ ys) = afterDigits cs ++ ys :=
  ⟨(List.dropWhile_sublist _).subset h, dropWhile_append h⟩

theorem sign_local (h : m ∈ (sign cs).2) :
    m ∈ cs ∧ ∀ ys, sign (cs ++ ys) = ((sign cs).1, (sign cs).2 ++ ys) := by
  fun_cases sign cs with
  | case1 cs => exact ⟨List.mem_cons_of_mem _ h, fun ys => rfl⟩
  | case2 cs => exact ⟨List.mem_cons_of_mem _ h, fun ys => rfl⟩
  | case3 cs hplus hminus =>
      rw [sign.eq_3 cs hplus hminus] at h
      refine ⟨h, fun ys => sign.eq_3 _ (fun ds hds => ?_) fun ds hds => ?_⟩
      · obtain ⟨cs', hcs', -⟩ := uncons h hds
        exact hplus cs' hcs'
      · obtain ⟨cs', hcs', -⟩ := uncons h hds
        exact hminus cs' hcs'

theorem mem_sign [IsMark m] (h : m ∈ cs) : m ∈ (sign cs).2 := by
  fun_cases sign cs with
  | case1 cs => exact mem_tail h (IsMark.ne (by decide))
  | case2 cs => exact mem_tail h (IsMark.ne (by decide))
  | case3 cs hplus hminus => exact h

theorem fraction_local [IsMark m] (h : m ∈ (fraction cs).2) :
    m ∈ cs ∧ ∀ ys, fraction (cs ++ ys) = ((fraction cs).1, (fraction cs).2 ++ ys) := by
  fun_cases fraction cs with
  | case1 cs hc =>
      rw [fraction, if_pos hc] at h
      obtain ⟨hmem, happend⟩ := afterDigits_local h
      refine ⟨List.mem_cons_of_mem _ hmem, fun ys => ?_⟩
      rw [List.cons_append, fraction, startsWithDigit_append hmem, if_pos hc, digits_append h, happend]
  | case2 cs hc =>
      rw [fraction, if_neg hc] at h
      refine ⟨h, fun ys => ?_⟩
      rw [List.cons_append, fraction, startsWithDigit_append (mem_tail h (IsMark.ne (by decide))), if_neg hc]
  | case3 cs hpoint =>
      rw [fraction.eq_2 cs hpoint] at h
      refine ⟨h, fun ys => fraction.eq_2 _ fun ds hds => ?_⟩
      obtain ⟨cs', hcs', -⟩ := uncons h hds
      exact hpoint cs' hcs'

theorem exponent_local [IsMark m] (h : m ∈ (exponent cs).2) :
    m ∈ cs ∧ ∀ ys, exponent (cs ++ ys) = ((exponent cs).1, (exponent cs).2 ++ ys) := by
  cases cs with
  | nil => cases h
  | cons c cs =>
      by_cases hc : ((c == 'e' || c == 'E') && startsWithDigit (sign cs).2) = true
      · rw [exponent] at h ⊢
        simp only [if_pos hc] at h ⊢
        obtain ⟨hrest, hdigits⟩ := afterDigits_local h
        obtain ⟨hmem, hsign⟩ := sign_local hrest
        refine ⟨List.mem_cons_of_mem _ hmem, fun ys => ?_⟩
        rw [List.cons_append, exponent]
        simp only [hsign, startsWithDigit_append hrest, if_pos hc, digits_append h, hdigits]
      · rw [exponent] at h ⊢
        simp only [if_neg hc] at h ⊢
        refine ⟨h, fun ys => ?_⟩
        have hc' : ¬ ((c == 'e' || c == 'E') && startsWithDigit (sign (cs ++ ys)).2) = true := by
          by_cases he : c = 'e' ∨ c = 'E'
          · have hrest := mem_sign (mem_tail h (by rcases he with rfl | rfl <;> exact IsMark.ne (by decide)))
            rwa [(sign_local hrest).2, startsWithDigit_append hrest]
          · obtain ⟨h1, h2⟩ := not_or.mp he
            simp [h1, h2]
        rw [List.cons_append, exponent]
        simp only [if_neg hc']

theorem number_local [IsMark m] (h : m ∈ (number cs).2) :
    m ∈ cs ∧ ∀ ys, number (cs ++ ys) = ((number cs).1, (number cs).2 ++ ys) := by
  obtain ⟨hf, hexponent⟩ := exponent_local h
  obtain ⟨hd, hfraction⟩ := fraction_local hf
  obtain ⟨hs, hdigits⟩ := afterDigits_local hd
  obtain ⟨hmem, hsign⟩ := sign_local hs
  refine ⟨hmem, fun ys => ?_⟩
  unfold number
  simp only [hsign, hdigits, hfraction, hexponent, digits_append hd]

theorem numeric_local [IsMark m] (h : m ∈ (numeric cs).2) :
    m ∈ cs ∧ ∀ ys, numeric (cs ++ ys) = ((numeric cs).1, (numeric cs).2 ++ ys) := by
  by_cases hpercent : ∃ ds, (number cs).2 = '%' :: ds
  · obtain ⟨ds, hds⟩ := hpercent
    have hrest : m ∈ ds := by
      unfold numeric at h
      simp only [hds] at h
      exact h
    obtain ⟨hmem, hnumber⟩ := number_local (hds ▸ List.mem_cons_of_mem '%' hrest)
    refine ⟨hmem, fun ys => ?_⟩
    unfold numeric
    simp only [hds, hnumber, List.cons_append]
  · have hne := not_exists.mp hpercent
    have hrest : m ∈ (number cs).2 := by
      rw [numeric_of_ne hne] at h
      split at h
      · exact (name_local h).1
      · exact h
    obtain ⟨hmem, hnumber⟩ := number_local hrest
    refine ⟨hmem, fun ys => ?_⟩
    rw [numeric_of_ne hne] at h ⊢
    rw [numeric_of_ne, hnumber]
    · simp only [startsIdentifier_append hrest]
      split at h
      · next hunit => rw [if_pos hunit, if_pos hunit, (name_local h).2]
      · next hunit => rw [if_neg hunit, if_neg hunit]
    · intro ds hds
      rw [hnumber] at hds
      obtain ⟨cs', hcs', -⟩ := uncons hrest hds
      exact hne cs' hcs'

/-! ## Lexemes -/

/-- What has one spelling is read whatever follows. -/
theorem fixed_some {l : Lexeme} (h : fixed cs = some (l, ds)) :
    (m ∈ ds → m ∈ cs) ∧ ∀ ys, fixed (cs ++ ys) = some (l, ds ++ ys) := by
  unfold fixed at h
  split at h
  case h_17 => cases h
  all_goals
    cases h
    exact ⟨fun h => by simp only [List.mem_cons, h, or_true], fun ys => rfl⟩

theorem fixed_none [IsMark m] (h : fixed cs = none) (hmem : m ∈ cs) (ys : List Char) : fixed (cs ++ ys) = none := by
  generalize hxs : cs ++ ys = xs
  unfold fixed
  -- a spelling in the longer text would be one in the text itself
  split
  case h_1 | h_3 | h_4 | h_5 | h_6 | h_7 | h_2 =>
    obtain ⟨cs₁, rfl, h₁, hmem₁⟩ := uncons hmem hxs
    obtain ⟨cs₂, rfl, h₂, hmem₂⟩ := uncons (hmem₁ (IsMark.ne (by decide))) h₁
    first
      | cases h
      | obtain ⟨cs₃, rfl, h₃, hmem₃⟩ := uncons (hmem₂ (IsMark.ne (by decide))) h₂
        first
          | cases h
          | obtain ⟨cs₄, rfl, -⟩ := uncons (hmem₃ (IsMark.ne (by decide))) h₃
            cases h
  case h_17 => rfl
  all_goals
    obtain ⟨cs₁, rfl, -⟩ := uncons hmem hxs
    cases h

/-! ## Lexemes -/

theorem stringToken_local (h : m ∈ (stringToken c cs).2) :
    m ∈ cs ∧ ∀ ys, stringToken c (cs ++ ys) = ((stringToken c cs).1, (stringToken c cs).2 ++ ys) := by
  have h : m ∈ (quoted c cs).2.2 := h
  obtain ⟨hmem, happend⟩ := quoted_local h
  refine ⟨hmem, fun ys => ?_⟩
  unfold stringToken
  simp only [happend]

theorem hashToken_local [IsMark m] (h : m ∈ (hashToken cs).2) :
    m ∈ cs ∧ ∀ ys, hashToken (cs ++ ys) = ((hashToken cs).1, (hashToken cs).2 ++ ys) := by
  cases cs with
  | nil => cases h
  | cons d ds =>
      unfold hashToken at h ⊢
      by_cases hi : startsIdentifier (d :: ds) = true
      · simp only [if_pos hi] at h ⊢
        obtain ⟨hmem, happend⟩ := name_local h
        refine ⟨hmem, fun ys => ?_⟩
        simp only [startsIdentifier_append hmem, if_pos hi, happend]
      · simp only [if_neg hi] at h ⊢
        by_cases hd : (d.isDigit || d == '-') = true
        · simp only [if_pos hd] at h ⊢
          obtain ⟨hmem, happend⟩ := name_local h
          refine ⟨hmem, fun ys => ?_⟩
          rw [startsIdentifier_append hmem, if_neg hi, happend]
          simp only [List.cons_append, if_pos hd]
        · simp only [if_neg hd] at h ⊢
          refine ⟨h, fun ys => ?_⟩
          rw [startsIdentifier_append h, if_neg hi]
          simp only [List.cons_append, if_neg hd]

theorem atToken_local [IsMark m] (h : m ∈ (atToken cs).2) :
    m ∈ cs ∧ ∀ ys, atToken (cs ++ ys) = ((atToken cs).1, (atToken cs).2 ++ ys) := by
  unfold atToken at h ⊢
  by_cases hi : startsIdentifier cs = true
  · simp only [if_pos hi] at h ⊢
    obtain ⟨hmem, happend⟩ := name_local h
    refine ⟨hmem, fun ys => ?_⟩
    rw [startsIdentifier_append hmem, if_pos hi, happend]
  · simp only [if_neg hi] at h ⊢
    refine ⟨h, fun ys => ?_⟩
    rw [startsIdentifier_append h, if_neg hi]

theorem other_of_ne (hhash : c ≠ '#') (hat : c ≠ '@') (h : ∀ ds, c = '/' → cs ≠ '*' :: ds) :
    other c cs = (some (.token (.delim c)), cs) := by
  unfold other
  rw [if_neg (by simpa using hhash), if_neg (by simpa using hat)]
  split
  · exact absurd rfl (h _ rfl)
  · rfl

theorem other_local [IsMark m] (h : m ∈ (other c cs).2) :
    m ∈ cs ∧ ∀ ys, other c (cs ++ ys) = ((other c cs).1, (other c cs).2 ++ ys) := by
  -- what a token makes of the two texts
  let lexeme (r : Token × List Char) : Option Lexeme × List Char := (some (.token r.1), r.2)
  by_cases hhash : c = '#'
  · subst hhash
    have h : m ∈ (hashToken cs).2 := h
    obtain ⟨hmem, happend⟩ := hashToken_local h
    exact ⟨hmem, fun ys => congrArg lexeme (happend ys)⟩
  by_cases hat : c = '@'
  · subst hat
    have h : m ∈ (atToken cs).2 := h
    obtain ⟨hmem, happend⟩ := atToken_local h
    exact ⟨hmem, fun ys => congrArg lexeme (happend ys)⟩
  by_cases hcomment : ∃ ds, c = '/' ∧ cs = '*' :: ds
  · obtain ⟨ds, rfl, rfl⟩ := hcomment
    have h : m ∈ commentEnd ds := h
    obtain ⟨hmem, happend⟩ := commentEnd_local h
    exact ⟨List.mem_cons_of_mem _ hmem, fun ys => congrArg (Prod.mk none) (happend ys)⟩
  · have hne : ∀ ds, c = '/' → cs ≠ '*' :: ds := fun ds hc hcs => hcomment ⟨ds, hc, hcs⟩
    rw [other_of_ne hhash hat hne] at h ⊢
    refine ⟨h, fun ys => other_of_ne hhash hat fun ds hc hds => ?_⟩
    obtain ⟨cs', rfl, -⟩ := uncons h hds
    exact hne cs' hc rfl

/-- The next lexeme is the same whatever follows the text, if a mark is left behind it. -/
theorem next_local [IsMark m] (h : m ∈ (next c cs).2) :
    m ∈ c :: cs ∧ ∀ ys, next c (cs ++ ys) = ((next c cs).1, (next c cs).2 ++ ys) := by
  unfold next at h ⊢
  by_cases hblank : isBlank c = true
  · simp only [if_pos hblank] at h ⊢
    obtain ⟨hmem, happend⟩ := skipBlanks_local h
    exact ⟨List.mem_cons_of_mem c hmem, fun ys => by rw [happend]⟩
  simp only [if_neg hblank] at h ⊢
  by_cases hquote : (c == '"' || c == '\'') = true
  · simp only [if_pos hquote] at h ⊢
    obtain ⟨hmem, happend⟩ := stringToken_local h
    exact ⟨List.mem_cons_of_mem c hmem, fun ys => by rw [happend]⟩
  simp only [if_neg hquote] at h ⊢
  cases hfixed : fixed (c :: cs) with
  | some r =>
      obtain ⟨hmem, happend⟩ := fixed_some hfixed
      simp only [hfixed] at h ⊢
      exact ⟨hmem h, fun ys => by rw [← List.cons_append, happend]⟩
  | none =>
      simp only [hfixed] at h ⊢
      by_cases hnumber : startsNumber (c :: cs) = true
      · simp only [if_pos hnumber] at h ⊢
        obtain ⟨hmem, happend⟩ := numeric_local h
        refine ⟨hmem, fun ys => ?_⟩
        rw [← List.cons_append, fixed_none hfixed hmem, startsNumber_append hmem, if_pos hnumber, happend]
      simp only [if_neg hnumber] at h ⊢
      by_cases hname : startsIdentifier (c :: cs) = true
      · simp only [if_pos hname] at h ⊢
        obtain ⟨hmem, happend⟩ := identLike_local h
        refine ⟨hmem, fun ys => ?_⟩
        rw [← List.cons_append, fixed_none hfixed hmem, startsNumber_append hmem, if_neg hnumber,
          startsIdentifier_append hmem, if_pos hname, happend]
      · simp only [if_neg hname] at h ⊢
        obtain ⟨hmem, happend⟩ := other_local h
        have hmem' := List.mem_cons_of_mem c hmem
        refine ⟨hmem', fun ys => ?_⟩
        rw [← List.cons_append, fixed_none hfixed hmem', startsNumber_append hmem', if_neg hnumber,
          startsIdentifier_append hmem', if_neg hname, happend]

/-! ## Texts that end in a mark -/

/-- The scan comes to the last character by itself, and that is the mark. -/
def endsIn (m : Char) : List Char → Bool
  | [] => false
  | c :: cs => (c == m && cs.isEmpty) || endsIn m (next c cs).2
termination_by cs => cs.length
decreasing_by exact Nat.lt_succ_of_le (next_length c cs)

theorem endsIn_cons (h : endsIn m (c :: cs) = true) : c = m ∧ cs = [] ∨ endsIn m (next c cs).2 = true := by
  rw [endsIn, Bool.or_eq_true, Bool.and_eq_true, beq_iff_eq, List.isEmpty_iff] at h
  exact h

theorem endsIn_of_next (h : endsIn m (next c cs).2 = true) : endsIn m (c :: cs) = true := by
  rw [endsIn, h, Bool.or_true]

theorem endsIn_skipBlanks [IsMark m] (h : endsIn m cs = true) : endsIn m (skipBlanks cs) = true := by
  cases cs with
  | nil => exact h
  | cons c cs =>
      rw [skipBlanks, List.dropWhile_cons]
      split
      · next hc =>
          rcases endsIn_cons h with ⟨rfl, -⟩ | h
          · rw [IsMark.isBlank_eq (m := c)] at hc
            cases hc
          · rwa [next_blank hc] at h
      · exact h

theorem mem_of_endsIn [IsMark m] (h : endsIn m cs = true) : m ∈ cs := by
  fun_induction endsIn m cs with
  | case1 => cases h
  | case2 c cs ih =>
      rcases endsIn_cons (by rwa [endsIn]) with ⟨rfl, -⟩ | h
      · exact List.mem_cons_self
      · exact (next_local (ih h)).1

/-- Behind a mark that the scan comes to, what follows is scanned for itself. -/
theorem scan_append [IsMark m] (h : endsIn m cs = true) (ys : List Char) :
    Lexeme.scan (cs ++ ys) = Lexeme.scan cs ++ Lexeme.scan ys := by
  fun_induction endsIn m cs with
  | case1 => cases h
  | case2 c cs ih =>
      rcases endsIn_cons (by rwa [endsIn]) with ⟨rfl, rfl⟩ | h
      · obtain ⟨l, hl⟩ := IsMark.scan_eq (m := c)
        rw [List.singleton_append, hl, hl, Lexeme.scan, List.singleton_append]
      · rw [List.cons_append, Lexeme.scan_cons, Lexeme.scan_cons, (next_local (mem_of_endsIn h)).2, ih h,
          List.append_assoc]

/-- The lexeme of the mark is the last one. -/
theorem exists_scan_of_endsIn (h : endsIn m cs = true) : ∃ ls, Lexeme.scan cs = ls ++ Lexeme.scan [m] := by
  fun_induction endsIn m cs with
  | case1 => cases h
  | case2 c cs ih =>
      rcases endsIn_cons (by rwa [endsIn]) with ⟨rfl, rfl⟩ | h
      · exact ⟨[], rfl⟩
      · obtain ⟨ls, hls⟩ := ih h
        exact ⟨(next c cs).1.toList ++ ls, by rw [Lexeme.scan_cons, hls, List.append_assoc]⟩

/-- The scan comes to the last character by itself, and that is a semicolon. -/
def endsInSemicolon : List Char → Bool
  | [] => false
  | c :: cs => (c == ';' && cs.isEmpty) || endsInSemicolon (next c cs).2
termination_by cs => cs.length
decreasing_by exact Nat.lt_succ_of_le (next_length c cs)

theorem endsInSemicolon_eq (cs : List Char) : endsInSemicolon cs = endsIn ';' cs := by
  fun_induction endsInSemicolon cs with
  | case1 => rw [endsIn]
  | case2 c cs ih => rw [endsIn, ih]

end StyleTree.Scan
