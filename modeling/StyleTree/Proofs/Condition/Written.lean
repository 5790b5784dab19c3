/-
# `Proofs.Condition.Written` — the text of a condition shows its values

The text of a condition is put together from pieces: words, names of
features and declarations, and the texts of values.  Lexeme by lexeme it is
the text of the canonical values (`shows_term`, `shows_condition`), but for
one thing: names are written as they stand, not as identifiers.  So the
names that the text takes over (`bareNames`) must be such as need no escape
(`ArePlain`).

What is behind the colon of a feature or a declaration is written as values
are, with its escapes.
-/
import StyleTree.Proofs.ComponentValue.Writable
import StyleTree.Proofs.Condition.Enclosed

namespace StyleTree

open ComponentValue

variable {n s t : String} {vs us ws : List ComponentValue}

/-! ## Texts that show values -/

namespace ComponentValue

theorem Shows.append (hs : Shows s us) (ht : Shows t vs) : Shows (s ++ t) (us ++ vs) := by
  rw [Shows, String.toList_append, hs, ht, written_append]

theorem shows_nil : Shows "" [] := rfl

theorem shows_blank : Shows " " [.token .blank] := rfl

theorem shows_ident (h : Text.identifier n = n) : Shows n [.token (.ident n)] := by
  have hwritten := congrArg String.toList h
  rw [Text.identifier, String.toList_ofList] at hwritten
  rw [Shows, written_token]
  exact hwritten.symm

theorem shows_textOf (vs : List ComponentValue) : Shows (textOf vs) (tidied vs) := toList_textOf vs

theorem Shows.block (h : Shows t vs) (o : Opener) : Shows (o.text ++ t ++ o.closer.closingText) [.block o vs] := by
  have hclose : o.closer.closingText.toList = Token.write (.close o.closer) := by
    cases o.closer <;> rfl
  rw [Shows, written_block, String.toList_append, String.toList_append, h, hclose]

theorem Shows.round (h : Shows t vs) : Shows ("(" ++ t ++ ")") [.block (.bracket .round) vs] :=
  h.block (.bracket .round)

theorem shows_text (v : ComponentValue) : Shows (text v) [tidy v] := by
  rw [Shows, text_tidy, String.toList_ofList]

end ComponentValue

namespace Condition

variable {g : Vocabulary} {e : List ComponentValue → List ComponentValue} {allowOr : Bool} {k : String}
  {T : ComponentValue → Option String} {ts ks : List String} {c : ComponentValue → ComponentValue} {v : ComponentValue}

/-- An address without quotes has the same text as one with quotes. -/
theorem written_tidyInside (v : ComponentValue) : written [tidyInside v] = written [tidy v] := by
  cases v with
  | block o vs => rfl
  | token t =>
      have htext := text_tidy (.token t)
      rw [text, Token.text, String.ofList_inj] at htext
      exact (written_token t).trans htext

theorem piece_tidyInside (v : ComponentValue) : piece (tidyInside v) = piece (tidy v) := by
  rw [piece, piece, written_tidyInside]
  cases v with
  | block o vs => rfl
  | token t => cases t <;> rfl

theorem shows_tidiedInside (vs : List ComponentValue) : Shows (textOf vs) (tidiedInside vs) := by
  have hpieces : (tidyEach vs).map piece = (vs.map tidyInside).map piece := by
    rw [tidyEach_eq_map, List.map_map, List.map_map]
    exact List.map_congr_left fun v _ => (piece_tidyInside v).symm
  rw [Shows, textOf, pieces_tidyEach, hpieces, spaced_pieces, String.toList_ofList]
  rfl

/-! ## The names in a text -/

/-- The name that a feature or a declaration begins with. -/
def leadingName? : List ComponentValue → Option String
  | [.token (.ident n)] => some n
  | .token (.ident n) :: .token .colon :: _ => some n
  | _ => none

mutual

/-- The words and the names of features and declarations that the text of a condition takes over as they stand; `e`
gives the contents of parentheses that the vocabulary understands. -/
def bareNames (g : Vocabulary) (e : List ComponentValue → List ComponentValue) : ComponentValue → List String
  | .token (.ident n) => [Text.foldCase n]
  | .block (.bracket .round) vs =>
    if (ofValues? g true vs).isSome then bareNamesEach g e vs
    else if (g.enclosed vs).isSome then (leadingName? (e vs)).toList
    else []
  | _ => []

def bareNamesEach (g : Vocabulary) (e : List ComponentValue → List ComponentValue) : List ComponentValue → List String
  | [] => []
  | v :: vs => bareNames g e v ++ bareNamesEach g e vs

end

theorem mem_bareNamesEach (hv : v ∈ vs) (hn : n ∈ bareNames g e v) : n ∈ bareNamesEach g e vs := by
  induction vs with
  | nil => cases hv
  | cons u vs ih =>
      rcases List.mem_cons.mp hv with rfl | hv
      · exact List.mem_append_left _ hn
      · exact List.mem_append_right _ (ih hv)

/-- The names need no escape. -/
def ArePlain (names : List String) : Prop := ∀ n ∈ names, Text.identifier n = n

instance (names : List String) : Decidable (ArePlain names) :=
  inferInstanceAs (Decidable (∀ n ∈ names, Text.identifier n = n))

/-! ## Runs of terms -/

theorem spread_cons (v : ComponentValue) (ws : List ComponentValue) :
    spread (v :: ws) = v :: ws.flatMap fun u => [.token .blank, u] := by
  induction ws generalizing v with
  | nil => rfl
  | cons u ws ih =>
      show v :: .token .blank :: spread (u :: ws) = _
      rw [ih, List.flatMap_cons]
      rfl

/-- Values behind others, with a blank in front of each. -/
theorem shows_behind (h : Shows t (spread (v :: ws))) :
    Shows (" " ++ t) ((v :: ws).flatMap fun u => [.token .blank, u]) := by
  rw [spread_cons] at h
  exact shows_blank.append h

/-- What stands for a word in a text, and for a term. -/
structure Depicts (T : ComponentValue → Option String) (c : ComponentValue → ComponentValue)
    (ws : List ComponentValue) : Prop where
  word : ∀ v ∈ ws, ∀ k, v.isWord k = true → c v = .token (.ident (Text.foldCase k))
  term : ∀ v ∈ ws, ∀ t, T v = some t → Shows t [c v]

theorem Depicts.tail (h : Depicts T c (v :: ws)) : Depicts T c ws :=
  ⟨fun u hu => h.word u (List.mem_cons_of_mem v hu), fun u hu => h.term u (List.mem_cons_of_mem v hu)⟩

/-- A word in lower case shows where it is read, if it needs no escape. -/
theorem Depicts.shows_word (hc : Depicts T c ws) (hv : v ∈ ws) (hword : v.isWord k = true)
    (hfold : Text.foldCase k = k) (hplain : Text.identifier k = k) : Shows k [c v] := by
  rw [hc.word v hv k hword, hfold]
  exact shows_ident hplain

theorem Depicts.shows_keyword (hc : Depicts T c ws) (hv : v ∈ ws) (hword : v.isWord k = true)
    (hk : k ∈ keywords allowOr) : Shows k [c v] := by
  have hcases : k = "and" ∨ k = "or" := by
    cases allowOr with
    | false => exact .inl (List.mem_singleton.mp hk)
    | true => simpa [keywords] using hk
  rcases hcases with rfl | rfl
  · exact hc.shows_word hv hword (by decide) (by decide)
  · exact hc.shows_word hv hword (by decide) (by decide)

/-- The terms behind the first show with their keywords. -/
theorem Joined.shows (hk : k ∈ keywords allowOr) (h : Joined T k ws ts) (hc : Depicts T c ws) :
    Shows (behind k ts) ((ws.map c).flatMap fun u => [.token .blank, u]) := by
  induction h with
  | nil => exact shows_nil
  | @cons j x ws t ts hj hx _ ih =>
      have hkeyword : Shows k [c j] := hc.shows_keyword List.mem_cons_self hj hk
      have hterm : Shows t [c x] := hc.tail.term x List.mem_cons_self t hx
      exact (((shows_blank.append hkeyword).append shows_blank).append hterm).append (ih hc.tail.tail)

/-- A condition shows the values that stand for its words and terms, with single blanks in between. -/
theorem IsCondition.shows (h : IsCondition T (keywords allowOr) ws t) (hc : Depicts T c ws) :
    Shows t (spread (ws.map c)) := by
  cases h with
  | @negated n x t hn hx =>
      have hnot : Shows "not" [c n] := hc.shows_word List.mem_cons_self hn (by decide) (by decide)
      exact (hnot.append shows_blank).append (hc.tail.term x List.mem_cons_self t hx)
  | @joined k x ws t ts hk hx hjoined =>
      rw [joined_eq_behind, List.map_cons, spread_cons]
      have hterm : Shows t [c x] := hc.term x List.mem_cons_self t hx
      exact hterm.append (hjoined.shows hk hc.tail)

theorem IsCondition.ne_nil (h : IsCondition T ks ws t) : ws ≠ [] := by
  cases h with
  | negated hn hx => exact List.cons_ne_nil _ _
  | joined hk hx hw => exact List.cons_ne_nil _ _

/-! ## Conditions -/

/-- What the vocabulary reads in parentheses or in a function shows what it is written as. -/
structure Portrays (g : Vocabulary) (e : List ComponentValue → List ComponentValue) : Prop where
  enclosed : ∀ {vs t}, g.enclosed vs = some t → ArePlain (leadingName? (e vs)).toList →
    Shows t [.block (.bracket .round) (e vs)]
  function : ∀ {n vs t}, g.function n vs = some t → Shows t [.block (.function (Text.foldCase n)) (tidied vs)]

theorem canon_of_isWord (h : v.isWord k = true) : canon g e v = .token (.ident (Text.foldCase k)) := by
  obtain ⟨n, rfl, hn⟩ := isWord_eq_true_iff.mp h
  rw [canon, (Text.sameWord_iff n k).mp hn]

theorem shows_function (he : Portrays g e) (h : term g (.block (.function n) vs) = some t) :
    Shows t [canon g e (.block (.function n) vs)] := by
  rw [canon]
  rw [term] at h
  cases hf : g.function n vs with
  | some u =>
      rw [hf] at h
      cases h
      exact he.function hf
  | none =>
      rw [hf] at h
      cases h
      exact shows_text (.block (.function n) vs)

theorem shows_round (he : Portrays g e) (hnames : ArePlain (bareNames g e (.block (.bracket .round) vs)))
    (hrun : ∀ c, ofValues? g true vs = some c → ArePlain (bareNamesEach g e vs) → Shows c (spread (canonEach g e vs)))
    (h : term g (.block (.bracket .round) vs) = some t) : Shows t [canon g e (.block (.bracket .round) vs)] := by
  rw [bareNames] at hnames
  rw [canon]
  rw [term_round] at h
  cases hc : ofValues? g true vs with
  | some c =>
      rw [hc] at h hnames
      cases h
      exact (hrun c hc hnames).round
  | none =>
      rw [hc] at h hnames
      rw [Option.isSome_none, if_neg Bool.false_ne_true] at hnames ⊢
      cases henclosed : g.enclosed vs with
      | some u =>
          rw [henclosed] at h hnames
          cases h
          exact he.enclosed henclosed hnames
      | none =>
          rw [henclosed] at h
          cases h
          exact (shows_tidiedInside vs).round

theorem depicts_canon (hterm : ∀ v ∈ vs, ∀ t, term g v = some t → Shows t [canon g e v]) (hws : ws ⊆ vs) :
    Depicts (term g) (canon g e) ws :=
  ⟨fun _ _ _ hk => canon_of_isWord hk, fun v hv => hterm v (hws hv)⟩

theorem shows_of_term (hterm : ∀ v ∈ vs, ∀ t, term g v = some t → Shows t [canon g e v])
    (h : ofValues? g allowOr vs = some t) : Shows t (spread (canonEach g e vs)) := by
  rw [canonEach_eq_map]
  exact (ofValues?_eq_some_iff.mp h).shows (depicts_canon hterm fun _ hv => List.mem_of_mem_filter hv)

mutual

/-- A term shows its canonical value. -/
theorem shows_term (he : Portrays g e) : ∀ v : ComponentValue, ArePlain (bareNames g e v) →
    ∀ t, term g v = some t → Shows t [canon g e v]
  | .token _ => fun _ _ h => by cases h
  | .block o vs => fun hnames t h => by
      cases o with
      | function n => exact shows_function he h
      | bracket b =>
          cases b with
          | round => exact shows_round he hnames (fun c hc hvs => shows_of_term (shows_termEach he vs hvs) hc) h
          | square => cases h
          | curly => cases h

theorem shows_termEach (he : Portrays g e) : ∀ vs : List ComponentValue, ArePlain (bareNamesEach g e vs) →
    ∀ v ∈ vs, ∀ t, term g v = some t → Shows t [canon g e v]
  | [] => fun _ _ hv => absurd hv List.not_mem_nil
  | v :: vs => fun hnames => by
      obtain ⟨hv, hvs⟩ := List.forall_mem_append.mp hnames
      exact List.forall_mem_cons.mpr ⟨shows_term he v hv, shows_termEach he vs hvs⟩

end

/-- A condition shows its canonical values. -/
theorem shows_condition (he : Portrays g e) (hnames : ArePlain (bareNamesEach g e vs))
    (h : ofValues? g allowOr vs = some t) : Shows t (spread (canonEach g e vs)) :=
  shows_of_term (shows_termEach he vs hnames) h

/-! ## What parentheses and functions hold -/

theorem shows_declared (hname : Text.identifier n = n) (d : WrittenDeclaration) :
    Shows (n ++ ": " ++ textOf d.value ++ if d.important then " !important" else "") (declared n d) := by
  have hcolon : Shows ": " [.token .colon, .token .blank] := rfl
  have himportance :
      Shows (if d.important then " !important" else "") (if d.important then importance else []) := by
    cases d.important with
    | true => exact (show " !important".toList = written importance by decide)
    | false => exact shows_nil
  have hdeclared := (((shows_ident hname).append hcolon).append (shows_textOf d.value)).append himportance
  rwa [List.append_assoc] at hdeclared

theorem shows_declaration (h : declaration vs = some t) (hnames : ArePlain (leadingName? (declarationValues vs)).toList) :
    Shows t (declarationValues vs) := by
  obtain ⟨d, hd, rfl⟩ := Option.map_eq_some_iff.mp h
  unfold declarationValues at *
  rw [hd] at hnames ⊢
  exact shows_declared (hnames _ (List.mem_singleton_self _)) d

theorem portrays_supports : Portrays supports declarationValues where
  enclosed h hnames := by
    obtain ⟨t, ht, rfl⟩ := Option.map_eq_some_iff.mp h
    exact (shows_declaration ht hnames).round
  function h := by cases h

theorem shows_feature (h : feature vs = some t) (hnames : ArePlain (leadingName? (featureValues vs)).toList) :
    Shows t [.block (.bracket .round) (featureValues vs)] := by
  by_cases hone : ∃ n, trim vs = [.token (.ident n)]
  · obtain ⟨n, hn⟩ := hone
    have hvalues : featureValues vs = [.token (.ident (Text.foldCase n))] := by rw [featureValues, hn]
    rw [feature, hn] at h
    rw [hvalues] at hnames ⊢
    cases h
    exact (shows_ident (hnames _ (List.mem_singleton_self _))).round
  cases hd : WrittenDeclaration.ofValues? (trim vs) with
  | some d =>
      have hvalues : featureValues vs = declared (Text.foldCase d.name) d := by
        unfold featureValues
        split
        · next n hn => exact absurd ⟨n, hn⟩ hone
        · rw [hd]
      rw [hvalues] at hnames ⊢
      rw [feature_of_some hd, featureValue] at h
      split at h
      · cases h
      · next hkept =>
          rw [Bool.or_eq_true, not_or, Bool.not_eq_true] at hkept
          have hdeclared := shows_declared (hnames _ (List.mem_singleton_self _)) d
          rw [hkept.1, if_neg Bool.false_ne_true, String.append_empty] at hdeclared
          cases h
          simpa only [String.append_assoc] using hdeclared.round
  | none =>
      have hvalues : featureValues vs = tidied (trim vs) := by
        unfold featureValues
        split
        · next n hn => exact absurd ⟨n, hn⟩ hone
        · rw [hd]
      have hrange := isRange_of_feature (Option.isSome_iff_exists.mpr ⟨t, h⟩) (not_exists.mp hone) hd
      rw [feature_of_isRange hd hrange] at h
      cases h
      rw [hvalues]
      exact (shows_textOf (trim vs)).round

theorem portrays_media : Portrays media featureValues where
  enclosed := shows_feature
  function h := by cases h

/-- The functions that are terms of their own have names that need no escape. -/
theorem shows_stateFunction (h : stateFunction n vs = some t) :
    Shows t [.block (.function (Text.foldCase n)) (tidied vs)] := by
  unfold stateFunction at h
  split at h
  · next hstate =>
      rw [Bool.and_eq_true, Bool.or_eq_true, Text.sameWord_iff, Text.sameWord_iff] at hstate
      have hplain : Text.identifier (Text.foldCase n) = Text.foldCase n := by
        rcases hstate.1 with hn | hn <;> rw [hn] <;> decide
      have hblock := (shows_textOf vs).block (.function (Text.foldCase n))
      rw [Opener.text, hplain] at hblock
      cases h
      exact hblock
  · cases h

theorem portrays_container : Portrays container featureValues where
  enclosed := shows_feature
  function := shows_stateFunction

end Condition

end StyleTree
