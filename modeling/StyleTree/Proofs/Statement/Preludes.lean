/-
# `Proofs.Statement.Preludes` — what is written in front of a block reads back

`ReadsAs s vs` says that the text `s` is scanned to the lexemes of the
values `vs` wherever a name ends behind it.  It goes from the parts of a
prelude to lists of them over every separator (`readsAs_joined`).  Escapes do
not interfere: one that ends in a blank has taken that blank
(`scan_identifier`).

A text that can stand in front of a block or a semicolon is a prelude
(`IsPrelude`).  Behind an at-keyword (`Introduces`) it is split off as the
prelude of one statement (`split_introduced`, `single_introduced`).
-/
import StyleTree.Proofs.ComponentValue.Lexemes
import StyleTree.Proofs.ComponentValue.Runs
import StyleTree.Proofs.Statement.Splitting
import StyleTree.Proofs.Token.RoundTrip

namespace StyleTree

open ComponentValue Scan

variable {s t kw : String} {vs us ws : List ComponentValue} {rest : List Char}

/-! ## Texts that are read as values -/

namespace ComponentValue

/-- Wherever a name ends behind the text, the text is scanned to the lexemes of the values. -/
def ReadsAs (s : String) (vs : List ComponentValue) : Prop :=
  ∀ rest, EndsName rest → Lexeme.scan (s.toList ++ rest) = lexemesOf vs ++ Lexeme.scan rest

theorem readsAs_identifier (h : Text.IsName s) : ReadsAs (Text.identifier s) [.token (.ident s)] :=
  fun _ hrest => scan_identifier h hrest

theorem readsAs_quoted (h : Text.IsClean s) : ReadsAs (Text.quoted s) [.token (.string s)] :=
  fun rest _ => scan_string h rest

theorem readsAs_url (h : Text.IsClean s) : ReadsAs (Text.url s) [.block (.function "url") [.token (.string s)]] := by
  intro rest _
  have htext : (Text.url s).toList ++ rest = "url".toList ++ '(' :: ((Text.quoted s).toList ++ ')' :: rest) := by
    rw [Text.url, String.toList_append, String.toList_append, List.append_assoc, List.append_assoc]
    rfl
  have hquoted : startsQuoted ((Text.quoted s).toList ++ ')' :: rest) = true := by
    rw [Text.quoted, String.toList_ofList]
    rfl
  have hfunction := scan_function_write (n := "url") (by decide) fun _ => hquoted
  have hclose : Lexeme.scan (')' :: rest) = .token (.close .round) :: Lexeme.scan rest := scan_of_next rfl
  rw [htext]
  refine hfunction.trans ?_
  rw [scan_string h, hclose]
  rfl

/-- A text in front of another, whose first character ends a name. -/
theorem ReadsAs.append (hs : ReadsAs s us) (ht : ReadsAs t vs) (h : ∀ rest, EndsName rest → EndsName (t.toList ++ rest)) :
    ReadsAs (s ++ t) (us ++ vs) := by
  intro rest hrest
  rw [String.toList_append, List.append_assoc, hs _ (h rest hrest), ht rest hrest, lexemesOf_append, List.append_assoc]

/-- A blank in front of a text that does not begin with one. -/
theorem scan_blank_of_readsAs (h : ReadsAs s vs) (hfirst : ∃ l ∈ (lexemesOf vs).head?, l ≠ .token .blank)
    (hrest : EndsName rest) :
    Lexeme.scan (' ' :: (s.toList ++ rest)) = .token .blank :: (lexemesOf vs ++ Lexeme.scan rest) := by
  obtain ⟨l, hl, hne⟩ := hfirst
  obtain ⟨ls, hls⟩ := List.head?_eq_some_iff.mp hl
  rw [scan_blank (fun ms hms => ?_), h rest hrest]
  rw [h rest hrest, hls] at hms
  exact hne (List.cons.inj hms).1

variable {α : Type} {a : α → String} {b : α → List ComponentValue} {sep : String} {ws : List ComponentValue} {xs : List α}

/-- Texts with a separator between neighbours, if the separator ends a name and is read in front of each of the texts. -/
theorem readsAs_joined (hxs : ∀ x ∈ xs, ReadsAs (a x) (b x)) (hne : xs ≠ [])
    (hends : ∀ rest, EndsName (sep.toList ++ rest))
    (hsep : ∀ x ∈ xs, ∀ rest, EndsName rest →
      Lexeme.scan (sep.toList ++ ((a x).toList ++ rest)) = lexemesOf ws ++ Lexeme.scan ((a x).toList ++ rest)) :
    ReadsAs (Text.joined sep (xs.map a)) (ws.intercalate (xs.map b)) := by
  induction xs with
  | nil => exact absurd rfl hne
  | cons x xs ih =>
      obtain ⟨hx, hxs⟩ := List.forall_mem_cons.mp hxs
      cases xs with
      | nil =>
          rw [List.map_singleton, List.map_singleton, List.intercalate_singleton]
          exact hx
      | cons y ys =>
          intro rest hrest
          have htail := ih hxs (List.cons_ne_nil y ys) fun z hz => hsep z (List.mem_cons_of_mem x hz)
          -- the text of the others begins with that of `y`
          obtain ⟨more, hmore, hmoreEnds⟩ : ∃ more, (Text.joined sep ((y :: ys).map a)).toList ++ rest =
              (a y).toList ++ more ∧ EndsName more := by
            cases ys with
            | nil => exact ⟨rest, rfl, hrest⟩
            | cons z zs =>
                refine ⟨sep.toList ++ ((Text.joined sep ((z :: zs).map a)).toList ++ rest), ?_, hends _⟩
                show (a y ++ sep ++ Text.joined sep ((z :: zs).map a)).toList ++ rest = _
                rw [String.toList_append, String.toList_append]
                simp only [List.append_assoc]
          have htext : (Text.joined sep ((x :: y :: ys).map a)).toList ++ rest =
              (a x).toList ++ (sep.toList ++ ((Text.joined sep ((y :: ys).map a)).toList ++ rest)) := by
            show (a x ++ sep ++ Text.joined sep ((y :: ys).map a)).toList ++ rest = _
            rw [String.toList_append, String.toList_append]
            simp only [List.append_assoc]
          rw [htext, hx _ (hends _), hmore, hsep y (List.mem_cons_of_mem x List.mem_cons_self) more hmoreEnds, ← hmore,
            htail rest hrest]
          show _ = lexemesOf (ws.intercalate (b x :: b y :: ys.map b)) ++ _
          rw [List.intercalate_cons_cons, lexemesOf_append, lexemesOf_append]
          simp only [List.append_assoc, List.map_cons]

theorem intercalate_cons {β : Type} (ms : List β) (v : List β) (vss : List (List β)) :
    ms.intercalate (v :: vss) = v ++ vss.flatMap (ms ++ ·) := by
  induction vss generalizing v with
  | nil => rw [List.intercalate_singleton, List.flatMap_nil, List.append_nil]
  | cons u vss ih => rw [List.intercalate_cons_cons, ih, List.flatMap_cons, List.append_assoc, List.append_assoc]

theorem mem_intercalate {v : ComponentValue} {parts : List (List ComponentValue)} (h : v ∈ ws.intercalate parts) :
    v ∈ ws ∨ ∃ p ∈ parts, v ∈ p := by
  cases parts with
  | nil => cases h
  | cons p ps =>
      rw [intercalate_cons] at h
      rcases List.mem_append.mp h with h | h
      · exact .inr ⟨p, List.mem_cons_self, h⟩
      obtain ⟨q, hq, h⟩ := List.mem_flatMap.mp h
      rcases List.mem_append.mp h with h | h
      · exact .inl h
      · exact .inr ⟨q, List.mem_cons_of_mem p hq, h⟩

/-! ## Preludes -/

/-- The text is read as these values wherever it stands before a block or a semicolon. -/
structure IsPrelude (s : String) (vs : List ComponentValue) : Prop where
  reads : ReadsAs s vs
  nonempty : vs ≠ []
  trimmed : trim vs = vs
  closed : Enclosable vs
  plain : Statement.Plain true vs

theorem IsPrelude.ofText_eq (h : IsPrelude s vs) : ofText s = vs := by
  have hscan := h.reads [] endsName_nil
  rw [List.append_nil, Lexeme.scan, List.append_nil] at hscan
  rw [ofText, hscan, nest_lexemesOf h.closed.1]

theorem IsPrelude.head?_ne_blank (h : IsPrelude s vs) : vs.head? ≠ some (.token .blank) := by
  intro hblank
  rw [← h.trimmed] at hblank
  cases isBlank_of_head?_trim hblank

theorem IsPrelude.exists_first (h : IsPrelude s vs) : ∃ l ∈ (lexemesOf vs).head?, l ≠ .token .blank := by
  have hblank := h.head?_ne_blank
  cases vs with
  | nil => exact absurd rfl h.nonempty
  | cons v vs =>
      cases v with
      | token t => exact ⟨_, rfl, fun ht => hblank (by rw [Lexeme.token.inj ht]; rfl)⟩
      | block o us => exact ⟨_, rfl, by rintro ⟨⟩⟩

/-- A token that begins no block and ends no prelude, and is no blank. -/
theorem isPrelude_tokens (ts : List Token) (h : ReadsAs s (ts.map .token)) (hne : ts ≠ [])
    (hts : ∀ t ∈ ts, t ≠ .blank ∧ t ≠ .semicolon ∧ t ≠ .close .curly) : IsPrelude s (ts.map .token) where
  reads := h
  nonempty hnil := hne (List.map_eq_nil_iff.mp hnil)
  trimmed := by
    have hblank : ∀ v ∈ ts.map ComponentValue.token, v.isBlank = false := by
      intro v hv
      obtain ⟨t, ht, rfl⟩ := List.mem_map.mp hv
      exact Bool.eq_false_iff.mpr fun hb => (hts t ht).1 (ComponentValue.token.inj (isBlank_iff.mp hb))
    exact trim_of_ends (fun v hv => hblank v (List.mem_of_mem_head? hv)) fun v hv =>
      hblank v (List.mem_of_mem_getLast? hv)
  closed := by
    refine enclosable_iff.mpr fun v hv => ?_
    obtain ⟨t, ht, rfl⟩ := List.mem_map.mp hv
    exact ⟨trivial, fun hclose => (hts t ht).2.2 (ComponentValue.token.inj hclose)⟩
  plain v hv := by
    obtain ⟨t, ht, rfl⟩ := List.mem_map.mp hv
    refine ⟨by rintro _ ⟨⟩, ?_⟩
    rw [Bool.true_and]
    exact Bool.eq_false_iff.mpr fun hs => (hts t ht).2.1 (ComponentValue.token.inj (Statement.eq_semicolon hs))

theorem isPrelude_identifier (h : Text.IsName s) : IsPrelude (Text.identifier s) [.token (.ident s)] :=
  isPrelude_tokens [.ident s] (readsAs_identifier h) (List.cons_ne_nil _ _)
    (List.forall_mem_singleton.mpr ⟨by rintro ⟨⟩, by rintro ⟨⟩, by rintro ⟨⟩⟩)

theorem isPrelude_quoted (h : Text.IsClean s) : IsPrelude (Text.quoted s) [.token (.string s)] :=
  isPrelude_tokens [.string s] (readsAs_quoted h) (List.cons_ne_nil _ _)
    (List.forall_mem_singleton.mpr ⟨by rintro ⟨⟩, by rintro ⟨⟩, by rintro ⟨⟩⟩)

theorem isPrelude_url (h : Text.IsClean s) : IsPrelude (Text.url s) [.block (.function "url") [.token (.string s)]] where
  reads := readsAs_url h
  nonempty := List.cons_ne_nil _ _
  trimmed := rfl
  closed := by
    refine ⟨⟨⟨fun hmem => ?_, trivial, trivial⟩, trivial⟩, fun hmem => ?_⟩
    all_goals cases List.mem_singleton.mp hmem
  plain := List.forall_mem_singleton.mpr ⟨by rintro _ ⟨⟩, rfl⟩

/-- The first of the parts begins the run. -/
theorem head?_intercalate {p : List ComponentValue} (hp : p ≠ []) (parts : List (List ComponentValue)) :
    (ws.intercalate (p :: parts)).head? = p.head? := by
  rw [intercalate_cons, List.head?_append_of_ne_nil _ hp]

/-- A run of parts ends as one of them does. -/
theorem exists_getLast?_intercalate (ws : List ComponentValue) {parts : List (List ComponentValue)}
    (hparts : ∀ p ∈ parts, p ≠ []) (hne : parts ≠ []) :
    ∃ p ∈ parts, (ws.intercalate parts).getLast? = p.getLast? := by
  induction parts with
  | nil => exact absurd rfl hne
  | cons p ps ih =>
      cases ps with
      | nil => exact ⟨p, List.mem_cons_self, by rw [List.intercalate_singleton]⟩
      | cons q qs =>
          obtain ⟨hp, hps⟩ := List.forall_mem_cons.mp hparts
          obtain ⟨r, hr, hlast⟩ := ih hps (List.cons_ne_nil q qs)
          refine ⟨r, List.mem_cons_of_mem p hr, ?_⟩
          have hsome : ws.intercalate (q :: qs) ≠ [] := by
            rw [intercalate_cons]
            exact List.append_ne_nil_of_left_ne_nil (hps q List.mem_cons_self) _
          rw [List.intercalate_cons_cons, List.getLast?_append_of_ne_nil _ hsome, hlast]

/-- Preludes with blanks, or with commas and blanks, between neighbours. -/
theorem isPrelude_joined (hxs : ∀ x ∈ xs, IsPrelude (a x) (b x)) (hne : xs ≠ [])
    (hsep : sep = " " ∧ ws = [.token .blank] ∨ sep = ", " ∧ ws = [.token .comma, .token .blank]) :
    IsPrelude (Text.joined sep (xs.map a)) (ws.intercalate (xs.map b)) := by
  have hparts : ∀ p ∈ xs.map b, p ≠ [] ∧ trim p = p := by
    intro p hp
    obtain ⟨x, hx, rfl⟩ := List.mem_map.mp hp
    exact ⟨(hxs x hx).nonempty, (hxs x hx).trimmed⟩
  have hnil : xs.map b ≠ [] := fun hnil => hne (List.map_eq_nil_iff.mp hnil)
  have hmark : ∀ v ∈ ws, v = .token .blank ∨ v = .token .comma := by
    intro v hv
    rcases hsep with ⟨-, rfl⟩ | ⟨-, rfl⟩
    · exact .inl (List.mem_singleton.mp hv)
    · rcases List.mem_cons.mp hv with hv | hv
      · exact .inr hv
      · exact .inl (List.mem_singleton.mp hv)
  refine ⟨readsAs_joined (fun x hx => (hxs x hx).reads) hne ?_ ?_, ?_, ?_, enclosable_iff.mpr fun v hv => ?_, ?_⟩
  · rcases hsep with ⟨rfl, -⟩ | ⟨rfl, -⟩
    · exact endsName_cons (by decide)
    · exact fun rest => endsName_cons (by decide) (' ' :: rest)
  · intro x hx rest hrest
    have hblank := scan_blank_of_readsAs (hxs x hx).reads (hxs x hx).exists_first hrest
    rw [← (hxs x hx).reads rest hrest] at hblank
    rcases hsep with ⟨rfl, rfl⟩ | ⟨rfl, rfl⟩
    · exact hblank
    · have hcomma : Lexeme.scan (',' :: ' ' :: ((a x).toList ++ rest)) =
          .token .comma :: Lexeme.scan (' ' :: ((a x).toList ++ rest)) := scan_of_next rfl
      rw [hblank] at hcomma
      exact hcomma
  · obtain ⟨p, ps, hps⟩ := List.exists_cons_of_ne_nil hnil
    rw [hps, intercalate_cons]
    exact List.append_ne_nil_of_left_ne_nil (hparts p (hps ▸ List.mem_cons_self)).1 _
  · refine trim_of_ends (fun v hv => ?_) fun v hv => ?_
    · obtain ⟨p, ps, hps⟩ := List.exists_cons_of_ne_nil hnil
      obtain ⟨hp, htrim⟩ := hparts p (hps ▸ List.mem_cons_self)
      rw [hps, head?_intercalate hp, ← htrim] at hv
      exact isBlank_of_head?_trim hv
    · obtain ⟨p, hp, hlast⟩ := exists_getLast?_intercalate ws (fun p hp => (hparts p hp).1) hnil
      rw [hlast, ← (hparts p hp).2] at hv
      exact isBlank_of_getLast?_trim hv
  · rcases mem_intercalate hv with hv | ⟨p, hp, hv⟩
    · rcases hmark v hv with rfl | rfl <;> exact ⟨trivial, by rintro ⟨⟩⟩
    · obtain ⟨x, hx, rfl⟩ := List.mem_map.mp hp
      exact enclosable_iff.mp (hxs x hx).closed v hv
  · intro v hv
    rcases mem_intercalate hv with hv | ⟨p, hp, hv⟩
    · rcases hmark v hv with rfl | rfl
      all_goals exact ⟨by rintro _ ⟨⟩, rfl⟩
    · obtain ⟨x, hx, rfl⟩ := List.mem_map.mp hp
      exact (hxs x hx).plain v hv

/-- A prelude in two parts. -/
theorem IsPrelude.spaced (hs : IsPrelude s us) (ht : IsPrelude t vs) :
    IsPrelude (s ++ " " ++ t) (us ++ .token .blank :: vs) := by
  have hparts : ∀ x ∈ [(s, us), (t, vs)], IsPrelude (Prod.fst x) (Prod.snd x) :=
    List.forall_mem_cons.mpr ⟨hs, List.forall_mem_singleton.mpr ht⟩
  have h := isPrelude_joined hparts (List.cons_ne_nil _ _) (.inl ⟨rfl, rfl⟩)
  rw [List.map_cons, List.map_singleton, List.map_cons, List.map_singleton, List.intercalate_cons_cons,
    List.intercalate_singleton, List.append_assoc] at h
  exact h

end ComponentValue

/-! ## Texts of at-rules -/

namespace Statement

/-- The text is an at-keyword, with values behind a blank if there are any. -/
inductive Introduces (kw : String) : String → List ComponentValue → Prop
  | bare : Introduces kw ("@" ++ kw) []
  | followed {t : String} {vs : List ComponentValue} : IsPrelude t vs → Introduces kw ("@" ++ kw ++ " " ++ t) vs

theorem Introduces.trim (h : Introduces kw s vs) : trim vs = vs := by
  cases h with
  | bare => rfl
  | followed ht => exact ht.trimmed

/-- A name that is written as it stands. -/
structure IsKeyword (kw : String) : Prop where
  name : Text.IsName kw
  plain : Text.identifier kw = kw

instance (kw : String) : Decidable (IsKeyword kw) :=
  decidable_of_iff (Text.IsName kw ∧ Text.identifier kw = kw) ⟨fun h => ⟨h.1, h.2⟩, fun h => ⟨h.name, h.plain⟩⟩

theorem scan_keyword (h : IsKeyword kw) {rest : List Char} (hrest : Stops rest) :
    Lexeme.scan (("@" ++ kw).toList ++ rest) = .token (.atKeyword kw) :: Lexeme.scan rest := by
  have hplain : Text.writeIdentifier kw.toList = kw.toList :=
    (String.toList_ofList ..).symm.trans (congrArg String.toList h.plain)
  have hscan := scan_at_write h.name hrest
  rw [hplain] at hscan
  rw [String.toList_append, List.append_assoc]
  exact hscan

/-- The values behind a blank; nothing if there are none. -/
def behindBlank (vs : List ComponentValue) : List ComponentValue := if vs.isEmpty then [] else .token .blank :: vs

theorem scan_introduced (hkw : IsKeyword kw) (h : Introduces kw s vs) {rest : List Char} (hrest : EndsName rest) :
    Lexeme.scan (s.toList ++ rest) = .token (.atKeyword kw) :: (lexemesOf (behindBlank vs) ++ Lexeme.scan rest) := by
  cases h with
  | bare => exact scan_keyword hkw hrest.stops
  | @followed t vs ht =>
      have htext : ("@" ++ kw ++ " " ++ t).toList ++ rest = ("@" ++ kw).toList ++ ' ' :: (t.toList ++ rest) := by
        rw [String.toList_append, String.toList_append, List.append_assoc, List.append_assoc]
        rfl
      have hbehind : behindBlank vs = .token .blank :: vs := if_neg fun hnil => ht.nonempty (List.isEmpty_iff.mp hnil)
      rw [htext, scan_keyword hkw (endsName_cons (by decide) _).stops,
        scan_blank_of_readsAs ht.reads ht.exists_first hrest, hbehind]
      rfl

theorem Introduces.closed (h : Introduces kw s vs) : Enclosable (behindBlank vs) := by
  cases h with
  | bare => exact enclosable_nil
  | followed ht =>
      unfold behindBlank
      split
      · exact enclosable_nil
      · exact enclosable_cons.mpr ⟨enclosable_token (by rintro ⟨⟩), ht.closed⟩

theorem plain_introduced (h : Introduces kw s vs) : Plain true (behindBlank vs) := by
  cases h with
  | bare => exact List.forall_mem_nil _
  | followed ht =>
      unfold behindBlank
      split
      · exact List.forall_mem_nil _
      · exact List.forall_mem_cons.mpr ⟨⟨by rintro _ ⟨⟩, rfl⟩, ht.plain⟩

theorem trim_introduced (h : Introduces kw s vs) : trim (behindBlank vs) = vs := by
  cases h with
  | bare => rfl
  | followed ht =>
      rw [behindBlank, if_neg fun hnil => ht.nonempty (List.isEmpty_iff.mp hnil)]
      have hblank : ∀ v ∈ [ComponentValue.token .blank], v.isBlank = true := List.forall_mem_singleton.mpr rfl
      exact (trim_append_of_isBlank hblank _).trans ht.trimmed

/-- What an empty block or the end of a statement is written as. -/
def endText (isStatement : Bool) : String := if isStatement then ";" else " \x7b\x7d"

def endValues (isStatement : Bool) : List ComponentValue :=
  if isStatement then [.token .semicolon] else [.token .blank, .block (.bracket .curly) []]

theorem scan_endText (b : Bool) : Lexeme.scan (endText b).toList = lexemesOf (endValues b) := by
  cases b <;> decide +kernel

theorem ofText_introduced (hkw : IsKeyword kw) (h : Introduces kw s vs) (b : Bool) :
    ofText (s ++ endText b) = .token (.atKeyword kw) :: (behindBlank vs ++ endValues b) := by
  have hends : EndsName (endText b).toList := by
    cases b with
    | true => exact @endsName_cons ';' (by decide) []
    | false => exact @endsName_cons ' ' (by decide) ['\x7b', '\x7d']
  have hscan : Lexeme.scan (s ++ endText b).toList =
      lexemesOf (.token (.atKeyword kw) :: (behindBlank vs ++ endValues b)) := by
    rw [String.toList_append, scan_introduced hkw h hends, scan_endText, lexemesOf, lexemesOf_append]
    rfl
  have hsealed : SealedAll (.token (.atKeyword kw) :: (behindBlank vs ++ endValues b)) := by
    refine ⟨trivial, sealedAll_iff.mpr fun v hv => ?_⟩
    rcases List.mem_append.mp hv with hv | hv
    · exact sealedAll_iff.mp h.closed.1 v hv
    · cases b with
      | true =>
          rw [List.mem_singleton.mp hv]
          trivial
      | false =>
          rcases List.mem_cons.mp hv with rfl | hv
          · trivial
          · rw [List.mem_singleton.mp hv]
            exact ⟨List.not_mem_nil, trivial⟩
  rw [ofText, hscan, nest_lexemesOf hsealed]

/-- The statement that such a text is. -/
def statementOf (kw : String) (vs : List ComponentValue) (isStatement : Bool) : Statement :=
  ⟨some kw, vs, if isStatement then none else some []⟩

theorem atRule_introduced (h : Introduces kw s vs) (b : Bool) :
    atRule kw (behindBlank vs ++ endValues b) = (statementOf kw vs b, []) := by
  cases b with
  | true =>
      have hends : Ends true (behindBlank vs ++ .token .semicolon :: []) (behindBlank vs, .semicolon, []) :=
        .semicolon rfl (plain_introduced h)
      have hrule := @atRule_eq _ kw _ hends
      rw [trim_introduced h] at hrule
      exact hrule
  | false =>
      have hblank : Plain true [ComponentValue.token .blank] :=
        List.forall_mem_singleton.mpr ⟨by rintro _ ⟨⟩, rfl⟩
      have hplain : Plain true (behindBlank vs ++ [.token .blank]) :=
        List.forall_mem_append.mpr ⟨plain_introduced h, hblank⟩
      have hends : Ends true ((behindBlank vs ++ [.token .blank]) ++ .block (.bracket .curly) [] :: [])
          (behindBlank vs ++ [.token .blank], .block [], []) := .block hplain
      have hrule := @atRule_eq _ kw _ hends
      rw [trim_concat_of_isBlank rfl, trim_introduced h, List.append_assoc] at hrule
      exact hrule

theorem split_introduced (hkw : IsKeyword kw) (h : Introduces kw s vs) (b : Bool) (form : ContentForm) :
    split form (ofText (s ++ endText b)) = [.rule (statementOf kw vs b)] := by
  rw [ofText_introduced hkw h, split, nextItem_atRule, atRule_introduced h, split]
  rfl

theorem single_introduced (hkw : IsKeyword kw) (h : Introduces kw s vs) (b : Bool) :
    single (ofText (s ++ endText b)) = .ok (statementOf kw vs b) := by
  rw [ofText_introduced hkw h]
  show alone (atRule kw _).1 (atRule kw _).2 = _
  rw [atRule_introduced h]
  rfl

end Statement

end StyleTree
