/-
# `Proofs.Statement.Texts` — texts that are read as items, side by side

A text that spells some items (`Spells`) can stand anywhere among others: it
is scanned to values of its own, which close nothing but what they open
(`Enclosable`), and what stands behind these values is split for itself.
Such texts may be joined by blanks (`exists_spells_joined`) and put between
braces (`exists_contents`), and the items are those of the parts.

A text that opens a statement (`Opens`) waits for the contents of a block,
whatever these are.  There are two ways to know that a text is of this kind:

    an at-keyword with a prelude     by what is written (`Introduces.opens`)
    any other text                   by reading it alone: the scan comes to
                                     the brace at its end by itself, and all
                                     that it reads is one statement with an
                                     empty block (`OpensAlone.exists_opens`)

The same holds of a text that is to end in a semicolon (`Introduces.spells`,
`EndsAlone.spells`).
-/
import StyleTree.Proofs.ComponentValue.Closing
import StyleTree.Proofs.Statement.Preludes
import StyleTree.Proofs.Token.Locality

namespace StyleTree

open ComponentValue Scan

variable {form : ContentForm} {s t kw : String} {st : Statement} {us vs ws pre : List ComponentValue}
variable {items items' : List Item} {rest : List Char}

/-! ## Blanks and braces -/

namespace Scan

theorem scan_of_isBlank {d : Char} (hd : isBlank d = true) (cs : List Char) :
    Lexeme.scan (d :: cs) = Lexeme.scan (' ' :: cs) := by
  rw [scan_of_next (next_blank hd), scan_of_next (next_blank rfl)]

theorem scan_opening (cs : List Char) :
    Lexeme.scan (' ' :: '\x7b' :: cs) = .token .blank :: .opening (.bracket .curly) :: Lexeme.scan cs := by
  have hcurly : Lexeme.scan ('\x7b' :: cs) = .opening (.bracket .curly) :: Lexeme.scan cs := scan_of_next rfl
  rw [scan_blank (by rw [hcurly]; rintro _ ⟨⟩), hcurly]

theorem scan_closing (cs : List Char) :
    Lexeme.scan ('\x7d' :: cs) = .token (.close .curly) :: Lexeme.scan cs := scan_of_next rfl

end Scan

namespace ComponentValue

/-! ## Values between braces -/

/-- Closes the braces around it. -/
def closesBlock : ComponentValue → Bool
  | .token (.close .curly) => true
  | _ => false

theorem enclosable_ofText (h : (ofText s).all (!·.closesBlock) = true) : Enclosable (ofText s) :=
  ⟨sealedAll_ofText s, fun hmem => by cases List.all_eq_true.mp h _ hmem⟩

/-- A block in braces with nothing in it. -/
def isEmptyBlock : ComponentValue → Bool
  | .block (.bracket .curly) [] => true
  | _ => false

theorem exists_append_emptyBlock (h : vs.getLast?.any isEmptyBlock = true) :
    ∃ us, vs = us ++ [.block (.bracket .curly) []] := by
  obtain ⟨v, hv, hempty⟩ := (Option.any_eq_true _ _).mp h
  unfold isEmptyBlock at hempty
  split at hempty
  · exact List.getLast?_eq_some_iff.mp hv
  · cases hempty

end ComponentValue

namespace Statement

/-! ## Texts that spell items -/

/-- Wherever a name ends behind the text, it is scanned to the values, which do not begin with a blank; and in front of
other values these are split into the items. -/
structure Spells (form : ContentForm) (s : String) (vs : List ComponentValue) (items : List Item) : Prop where
  reads : ReadsAs s vs
  first : ∃ l ∈ (lexemesOf vs).head?, l ≠ .token .blank
  closed : Enclosable vs
  split : ∀ us, Statement.split form (vs ++ us) = items ++ Statement.split form us

theorem split_blank_cons (form : ContentForm) (vs : List ComponentValue) :
    split form (.token .blank :: vs) = split form vs := by
  have hblank : Piece form [.token .blank] none := .skipped rfl
  exact split_piece hblank vs

theorem Spells.ofText_eq (h : Spells form s vs items) : ofText s = vs := by
  have hscan := h.reads [] endsName_nil
  rw [List.append_nil, Lexeme.scan, List.append_nil] at hscan
  rw [ofText, hscan, nest_lexemesOf h.closed.1]

theorem Spells.split_ofText (h : Spells form s vs items) : Statement.split form (ofText s) = items := by
  have hsplit := h.split []
  rw [List.append_nil] at hsplit
  rw [h.ofText_eq, hsplit, Statement.split, List.append_nil]

/-- Two such texts with a blank between them. -/
theorem Spells.append (hs : Spells form s us items) (ht : Spells form t vs items') {sep : String}
    (hsep : sep = " " ∨ sep = "\n") :
    Spells form (s ++ sep ++ t) (us ++ .token .blank :: vs) (items ++ items') where
  reads rest hrest := by
    have hblank : Lexeme.scan (sep.toList ++ (t.toList ++ rest)) =
        .token .blank :: (lexemesOf vs ++ Lexeme.scan rest) := by
      have hscan := scan_blank_of_readsAs ht.reads ht.first hrest
      rcases hsep with rfl | rfl
      · exact hscan
      · exact (scan_of_isBlank (d := '\n') rfl _).trans hscan
    have hends : EndsName (sep.toList ++ (t.toList ++ rest)) := by
      rcases hsep with rfl | rfl
      · exact @endsName_cons ' ' (by decide) _
      · exact @endsName_cons '\n' (by decide) _
    rw [String.toList_append, String.toList_append, List.append_assoc, List.append_assoc, hs.reads _ hends, hblank,
      lexemesOf_append, List.append_assoc]
    rfl
  first := by
    obtain ⟨l, hl, hne⟩ := hs.first
    rw [lexemesOf_append]
    exact ⟨l, List.mem_head?_append_of_mem_head? hl, hne⟩
  closed := enclosable_append.mpr ⟨hs.closed, enclosable_cons.mpr ⟨enclosable_token (by rintro ⟨⟩), ht.closed⟩⟩
  split ws := by
    rw [List.append_assoc, hs.split, List.cons_append, split_blank_cons, ht.split, List.append_assoc]

/-- The text of one item. -/
def SpellsItem (form : ContentForm) (s : String) (item : Item) : Prop := ∃ vs, Spells form s vs [item]

theorem exists_spells_joined {sep : String} {ss : List String} (h : List.Forall₂ (SpellsItem form) ss items)
    (hne : ss ≠ []) (hsep : sep = " " ∨ sep = "\n") : ∃ vs, Spells form (Text.joined sep ss) vs items := by
  induction h with
  | nil => exact absurd rfl hne
  | cons hs hss ih =>
      obtain ⟨us, hs⟩ := hs
      cases hss with
      | nil => exact ⟨us, hs⟩
      | cons ht hts =>
          obtain ⟨vs, hvs⟩ := ih (List.cons_ne_nil _ _)
          exact ⟨_, hs.append hvs hsep⟩

/-! ## The contents of a block -/

/-- Parts as they are written behind an opening brace, with the brace that closes it. -/
def contentText (parts : List String) : String :=
  if parts.isEmpty then "\x7d" else " " ++ Text.joined " " parts ++ " \x7d"

/-- The contents of a block are split into the items of its parts. -/
theorem exists_contents {ss : List String} (h : List.Forall₂ (SpellsItem form) ss items) :
    ∃ ws, Enclosable ws ∧ split form ws = items ∧
      ∀ rest, Lexeme.scan ((contentText ss).toList ++ rest) =
        lexemesOf ws ++ .token (.close .curly) :: Lexeme.scan rest := by
  by_cases hne : ss = []
  · subst hne
    cases h
    exact ⟨[], enclosable_nil, by rw [split], scan_closing⟩
  have hblank : Enclosable [.token .blank] := enclosable_token (by rintro ⟨⟩)
  obtain ⟨vs, hvs⟩ := exists_spells_joined h hne (.inl rfl)
  refine ⟨.token .blank :: (vs ++ [.token .blank]), ?_, ?_, fun rest => ?_⟩
  · exact enclosable_cons.mpr ⟨hblank, enclosable_append.mpr ⟨hvs.closed, hblank⟩⟩
  · rw [split_blank_cons, hvs.split, split_blank_cons, split, List.append_nil]
  · have hclose : Lexeme.scan (' ' :: '\x7d' :: rest) =
        .token .blank :: .token (.close .curly) :: Lexeme.scan rest := by
      rw [scan_blank (by rw [scan_closing]; rintro _ ⟨⟩), scan_closing]
    have htext : (contentText ss).toList ++ rest =
        ' ' :: ((Text.joined " " ss).toList ++ ' ' :: '\x7d' :: rest) := by
      rw [contentText, if_neg fun hnil => hne (List.isEmpty_iff.mp hnil), String.toList_append, String.toList_append,
        List.append_assoc, List.append_assoc]
      rfl
    have hends : EndsName (' ' :: '\x7d' :: rest) := endsName_cons (by decide) _
    rw [htext, scan_blank_of_readsAs hvs.reads hvs.first hends, hclose]
    simp only [lexemesOf, lexemes, lexemesOf_append, List.cons_append, List.append_assoc, List.nil_append]

/-! ## Texts in front of a block -/

/-- With a brace behind it the text is scanned to the values and the opening of a block, and with any block behind
them these are one statement. -/
structure Opens (form : ContentForm) (s : String) (pre : List ComponentValue) (st : Statement) : Prop where
  reads : ∀ rest, Lexeme.scan ((s ++ " \x7b").toList ++ rest) =
    lexemesOf pre ++ .opening (.bracket .curly) :: Lexeme.scan rest
  first : pre.head? ≠ some (.token .blank)
  closed : Enclosable pre
  block : st.block = some []
  piece : ∀ contents, Piece form (pre ++ [.block (.bracket .curly) contents])
    (some (.rule { st with block := some contents }))

theorem exists_head?_lexemesOf {v : ComponentValue} (h : (v :: vs).head? ≠ some (.token .blank)) :
    ∃ l ∈ (lexemesOf (v :: vs)).head?, l ≠ .token .blank := by
  cases v with
  | token t => exact ⟨_, rfl, fun ht => h (by rw [Lexeme.token.inj ht]; rfl)⟩
  | block o us => exact ⟨_, rfl, by rintro ⟨⟩⟩

/-- Such a text and a block with some items are one statement. -/
theorem Opens.exists_spells {inner : ContentForm} {ss : List String} (h : Opens form s pre st)
    (hss : List.Forall₂ (SpellsItem inner) ss items) :
    ∃ ws, split inner ws = items ∧
      SpellsItem form (s ++ " \x7b" ++ contentText ss) (.rule { st with block := some ws }) := by
  obtain ⟨ws, hclosed, hitems, hreads⟩ := exists_contents hss
  refine ⟨ws, hitems, pre ++ [.block (.bracket .curly) ws], fun rest hrest => ?_, ?_, ?_, split_piece (h.piece ws)⟩
  · have hcloser : Opener.closer (.bracket .curly) = .curly := rfl
    rw [String.toList_append, List.append_assoc, h.reads, hreads, lexemesOf_append, List.append_assoc]
    simp only [lexemesOf, lexemes, hcloser, List.cons_append, List.append_assoc, List.nil_append]
  · have hfirst := h.first
    cases pre with
    | nil => exact ⟨_, rfl, by rintro ⟨⟩⟩
    | cons v vs => exact exists_head?_lexemesOf hfirst
  · exact enclosable_append.mpr ⟨h.closed, hclosed.block⟩

/-! ### At-keywords with a prelude -/

theorem enclosable_introduced (h : Introduces kw s vs) : Enclosable (.token (.atKeyword kw) :: behindBlank vs) :=
  enclosable_cons.mpr ⟨enclosable_token (by rintro ⟨⟩), h.closed⟩

theorem Introduces.opens (hkw : IsKeyword kw) (h : Introduces kw s vs) (form : ContentForm) :
    Opens form s (.token (.atKeyword kw) :: behindBlank vs ++ [.token .blank]) (statementOf kw vs false) where
  reads rest := by
    have hends : EndsName (' ' :: '\x7b' :: rest) := endsName_cons (by decide) _
    have htext : (s ++ " \x7b").toList ++ rest = s.toList ++ ' ' :: '\x7b' :: rest := by
      rw [String.toList_append, List.append_assoc]
      rfl
    rw [htext, scan_introduced hkw h hends, scan_opening]
    simp only [lexemesOf, lexemes, lexemesOf_append, List.cons_append, List.append_assoc, List.nil_append]
  first := by rintro ⟨⟩
  closed := enclosable_append.mpr ⟨enclosable_introduced h, enclosable_token (by rintro ⟨⟩)⟩
  block := rfl
  piece contents := by
    have hblank : Plain true [ComponentValue.token .blank] :=
      List.forall_mem_singleton.mpr ⟨by rintro _ ⟨⟩, rfl⟩
    have hpiece : Piece form _ _ :=
      @Piece.atBlock form kw _ contents (List.forall_mem_append.mpr ⟨plain_introduced h, hblank⟩)
    rw [trim_concat_of_isBlank rfl, trim_introduced h] at hpiece
    exact hpiece

theorem Introduces.spells (hkw : IsKeyword kw) (h : Introduces kw s vs) (form : ContentForm) :
    Spells form (s ++ ";") (.token (.atKeyword kw) :: behindBlank vs ++ [.token .semicolon])
      [.rule (statementOf kw vs true)] where
  reads rest _ := by
    have hends : EndsName (';' :: rest) := endsName_cons (by decide) _
    have hsemicolon : Lexeme.scan (';' :: rest) = .token .semicolon :: Lexeme.scan rest := scan_of_next rfl
    have htext : (s ++ ";").toList ++ rest = s.toList ++ ';' :: rest := by
      rw [String.toList_append, List.append_assoc]
      rfl
    rw [htext, scan_introduced hkw h hends, hsemicolon]
    simp only [lexemesOf, lexemes, lexemesOf_append, List.cons_append, List.append_assoc, List.nil_append]
  first := ⟨_, rfl, by rintro ⟨⟩⟩
  closed := enclosable_append.mpr ⟨enclosable_introduced h, enclosable_token (by rintro ⟨⟩)⟩
  split us := by
    have hpiece : Piece form _ _ := @Piece.atSemicolon form kw _ (plain_introduced h)
    rw [trim_introduced h] at hpiece
    exact split_piece hpiece us

/-! ### Texts that are read alone -/

/-- The statement that all of the values are, if they are one. -/
def sole? (form : ContentForm) (vs : List ComponentValue) : Option Statement :=
  match turn form vs with
  | (some (.rule st), []) => some st
  | _ => none

theorem sole?_eq_some : sole? form vs = some st ↔ turn form vs = (some (.rule st), []) := by
  unfold sole?
  split
  · next h => rw [h]; simp
  · next h => simpa using fun h' => h _ h'

/-- Ends of statements: a block, or a semicolon. -/
def IsEnd (v : ComponentValue) : Prop := v = .token .semicolon ∨ ∃ contents, v = .block (.bracket .curly) contents

/-- A run that ends in a block or a semicolon and is one statement, is one whatever follows. -/
theorem piece_of_sole? {w : ComponentValue} (h : sole? form (us ++ [w]) = some st) (hw : IsEnd w) :
    Piece form (us ++ [w]) (some (.rule st)) := by
  rw [sole?_eq_some] at h
  obtain ⟨v, vs, hvs⟩ := List.exists_cons_of_ne_nil (l := us ++ [w]) (by simp)
  have hmem : w ∈ v :: vs := hvs ▸ List.mem_append_right _ (List.mem_singleton_self w)
  rw [hvs] at h ⊢
  replace h : nextItem form v vs = (some (.rule st), []) := h
  rcases starts_cases form v with hskip | ⟨name, rfl⟩ | ⟨rfl, name, rfl⟩ | hv
  · rw [nextItem_skipped hskip] at h
    cases h
  · have he := ends_preludeOf true vs
    rw [nextItem_atRule, atRule_eq he] at h
    generalize preludeOf true vs = r at h he
    cases he with
    | block hp =>
        cases h
        exact .atBlock hp
    | semicolon _ hp =>
        cases h
        exact .atSemicolon hp
    | nothing hp =>
        -- the end of the run would have ended the prelude
        rcases List.mem_cons.mp hmem with rfl | hmem
        · rcases hw with hw | ⟨_, hw⟩ <;> cases hw
        · rcases hw with rfl | ⟨contents, rfl⟩
          · cases (hp _ hmem).2
          · exact absurd rfl ((hp _ hmem).1 contents)
  · rw [nextItem_declaration] at h
    obtain ⟨d, -, hd⟩ := Option.map_eq_some_iff.mp (congrArg Prod.fst h)
    cases hd
  · have he := ends_preludeOf (form != .stylesheet) (v :: vs)
    rw [nextItem_qualified hv, qualifiedRule_eq he] at h
    generalize hws : v :: vs = ws at h he
    generalize preludeOf (form != .stylesheet) ws = r at h he
    cases he with
    | block hp =>
        cases h
        exact hws ▸ .qualified hv hws hp
    | semicolon _ _ => cases h
    | nothing _ => cases h

/-- The block at the end of a statement is its block. -/
theorem Piece.block_of_concat {contents : List ComponentValue}
    (h : Piece form (us ++ [.block (.bracket .curly) contents]) (some (.rule st))) : st.block = some contents := by
  generalize hvs : us ++ [ComponentValue.block (.bracket .curly) contents] = vs at h
  generalize hi : some (Item.rule st) = item at h
  cases h with
  | atBlock _ =>
      cases hi
      rw [← List.cons_append] at hvs
      cases (List.append_inj' hvs rfl).2
      rfl
  | atSemicolon _ =>
      rw [← List.cons_append] at hvs
      cases (List.append_inj' hvs rfl).2
  | qualified _ hus _ =>
      cases hi
      cases (List.append_inj' (hvs.trans hus) rfl).2
      rfl
  | declaration _ _ =>
      obtain ⟨d, -, hd⟩ := Option.map_eq_some_iff.mp hi.symm
      cases hd
  | _ => cases hi

theorem head?_of_sole? {w : ComponentValue} (h : sole? form (us ++ [w]) = some st) :
    us.head? ≠ some (.token .blank) := by
  intro hblank
  obtain ⟨ws, rfl⟩ := List.head?_eq_some_iff.mp hblank
  rw [sole?_eq_some] at h
  cases h

/-- The scan of the text comes by itself to a brace behind it, which opens a block outside of all others; and nothing in
front of the brace closes a block around the text. -/
structure OpensAlone (s : String) : Prop where
  ends : endsIn '\x7b' (s ++ " \x7b").toList = true
  last : (ofText (s ++ " \x7b")).getLast?.any isEmptyBlock = true
  inside : (ofText (s ++ " \x7b")).all (!·.closesBlock) = true

instance (s : String) : Decidable (OpensAlone s) :=
  decidable_of_iff (_ ∧ _ ∧ _) ⟨fun h => ⟨h.1, h.2.1, h.2.2⟩, fun h => ⟨h.ends, h.last, h.inside⟩⟩

/-- If such a text, with an empty block, is one statement, then it is so with every block and wherever it stands. -/
theorem OpensAlone.exists_opens (h : OpensAlone s) (hsole : sole? form (ofText (s ++ " \x7b")) = some st) :
    ∃ pre, Opens form s pre st := by
  obtain ⟨ls, hls⟩ := exists_scan_of_endsIn h.ends
  obtain ⟨pre, hpre⟩ := exists_append_emptyBlock h.last
  have hscan : Lexeme.scan (s ++ " \x7b").toList = ls ++ [.opening (.bracket .curly)] := by
    rw [hls]
    exact congrArg _ ((scan_of_next rfl).trans (by rw [Lexeme.scan]))
  have hnest := hpre
  rw [ofText, hscan] at hnest
  obtain ⟨hstack, hread⟩ := stack_of_opening_concat hnest
  have hlexemes : lexemesOf pre = ls := by
    have hunclosed := unclosed_stack ls
    rwa [hstack, unclosed, ← hread] at hunclosed
  have hclosed := enclosable_ofText h.inside
  rw [hpre] at hclosed hsole
  have hpiece := piece_of_sole? hsole (.inr ⟨[], rfl⟩)
  refine ⟨pre, fun rest => ?_, head?_of_sole? hsole, (enclosable_append.mp hclosed).1, hpiece.block_of_concat,
    fun contents => ?_⟩
  · rw [scan_append h.ends, hscan, hlexemes, List.append_assoc]
    rfl
  · have hblock := hpiece.withBlock hpiece.block_of_concat contents
    rwa [List.dropLast_concat] at hblock

/-- The scan of the text comes by itself to a semicolon behind it, which stands outside of all blocks; and nothing in
front of it closes a block around the text. -/
structure EndsAlone (s : String) : Prop where
  ends : endsIn ';' (s ++ ";").toList = true
  last : (ofText (s ++ ";")).getLast?.any isSemicolon = true
  inside : (ofText (s ++ ";")).all (!·.closesBlock) = true

instance (s : String) : Decidable (EndsAlone s) :=
  decidable_of_iff (_ ∧ _ ∧ _) ⟨fun h => ⟨h.1, h.2.1, h.2.2⟩, fun h => ⟨h.ends, h.last, h.inside⟩⟩

/-- If such a text is one statement, then it is so wherever it stands. -/
theorem EndsAlone.spells (h : EndsAlone s) (hsole : sole? form (ofText (s ++ ";")) = some st) :
    SpellsItem form (s ++ ";") (.rule st) := by
  obtain ⟨v, hv, hsemicolon⟩ := (Option.any_eq_true _ _).mp h.last
  obtain rfl := eq_semicolon hsemicolon
  obtain ⟨us, hus⟩ := List.getLast?_eq_some_iff.mp hv
  have hlexemes : lexemesOf (us ++ [.token .semicolon]) = Lexeme.scan (s ++ ";").toList := by
    rw [← hus]
    exact lexemesOf_nest_of_stack (stack_of_concat hus)
  have hclosed := enclosable_ofText h.inside
  rw [hus] at hclosed hsole
  refine ⟨us ++ [.token .semicolon], fun rest _ => ?_, ?_, hclosed, split_piece (piece_of_sole? hsole (.inl rfl))⟩
  · rw [scan_append h.ends, hlexemes]
  · have hfirst := head?_of_sole? hsole
    cases us with
    | nil => exact ⟨_, rfl, by rintro ⟨⟩⟩
    | cons v vs => exact exists_head?_lexemesOf hfirst

end Statement

end StyleTree
