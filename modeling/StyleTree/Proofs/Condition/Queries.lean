/-
# `Proofs.Condition.Queries` — media queries and their text

A media query is written as values too (`MediaQuery.values`): a condition,
or a type with a word in front of it and a condition behind it, or `not all`
if it could not be read.  Queries are written with commas between them
(`MediaList.values`).  These values read as the same queries
(`text_values`, `ofValues_values`), they can be written and read back
(`writable_values`), and the text of the queries shows them if the names in
it need no escape (`shows_text`).
-/
import StyleTree.Proofs.Condition.Respelling
import StyleTree.Proofs.Condition.Writable
import StyleTree.Proofs.Condition.Written

namespace StyleTree

open ComponentValue

variable {f : Token → Token} {vs us ws : List ComponentValue} {t : String}

/-! ## Media queries -/

namespace MediaQuery

open Condition

variable {p q : ComponentValue → Operand}

theorem furtherCondition_congr (h : ∀ v ∈ ws, (p v).Matches (q v)) :
    furtherCondition (ws.map p) = furtherCondition (ws.map q) := by
  cases ws with
  | nil => rfl
  | cons v ws =>
      obtain ⟨hv, hws⟩ := List.forall_mem_cons.mp h
      simp only [List.map_cons, furtherCondition, hv.isWord, conditionText_congr hws]

/-- A media type and what is behind it. -/
def namedBy (m : Option String) : List Operand → Option String
  | p :: rest => do
    let t := Text.foldCase (← p.value.ident?)
    if t ∈ reservedTypes then none
    else
      let more ← furtherCondition rest
      some ((m.map (· ++ " ")).getD "" ++ t ++ more)
  | [] => none

theorem typed_eq (ps : List Operand) : typed ps = namedBy (modifier ps).1 (modifier ps).2 := by
  unfold typed namedBy
  rfl

theorem namedBy_congr (h : ∀ v ∈ ws, (p v).Matches (q v)) (m : Option String) :
    namedBy m (ws.map p) = namedBy m (ws.map q) := by
  cases ws with
  | nil => rfl
  | cons v ws =>
      obtain ⟨hv, hws⟩ := List.forall_mem_cons.mp h
      have hword := hv.word
      simp only [List.map_cons, namedBy, furtherCondition_congr hws]
      cases hp : (p v).value.ident? with
      | none =>
          rw [hp, Option.map_none] at hword
          rw [Option.map_eq_none_iff.mp hword.symm]
      | some n =>
          rw [hp, Option.map_some] at hword
          obtain ⟨m, hq, hfold⟩ := Option.map_eq_some_iff.mp hword.symm
          simp only [hq, Option.bind_eq_bind, Option.bind_some, hfold]

theorem typed_congr (h : ∀ v ∈ ws, (p v).Matches (q v)) : typed (ws.map p) = typed (ws.map q) := by
  rw [typed_eq, typed_eq]
  cases ws with
  | nil => rfl
  | cons v us =>
      obtain ⟨hv, hus⟩ := List.forall_mem_cons.mp h
      simp only [List.map_cons, modifier, hv.isWord]
      split
      · exact namedBy_congr hus _
      split
      · exact namedBy_congr hus _
      · rw [← List.map_cons, ← List.map_cons]
        exact namedBy_congr h none

theorem ofValues_congr {r : ComponentValue → ComponentValue} {us : List ComponentValue}
    (h : withoutBlanks us = (withoutBlanks vs).map r)
    (hr : ∀ v ∈ withoutBlanks vs, (operandOf media (r v)).Matches (operandOf media v)) : ofValues us = ofValues vs := by
  unfold ofValues
  simp only [dense_operands, h, List.map_map]
  rw [show operandOf media ∘ r = fun v => operandOf media (r v) from rfl, conditionText_congr hr, typed_congr hr]

/-- The values of a media query; an invalid one matches nothing. -/
def values (vs : List ComponentValue) : List ComponentValue :=
  match ofValues vs with
  | .valid _ => spread (canonEach media featureValues vs)
  | .invalid => spread [.token (.ident "not"), .token (.ident "all")]

theorem ofValues_canon (vs : List ComponentValue) :
    ofValues (spread (canonEach media featureValues vs)) = ofValues vs := by
  refine ofValues_congr (withoutBlanks_canon vs) fun v _ => ⟨term_canon steady_media v, ?_⟩
  show (canon media featureValues v).ident?.map Text.foldCase = v.ident?.map Text.foldCase
  rw [ident?_canon, Option.map_map]
  exact congrArg (Option.map · v.ident?) (funext Text.foldCase_foldCase)

theorem text_values (vs : List ComponentValue) : (ofValues (values vs)).text = (ofValues vs).text := by
  unfold values
  split
  · rw [ofValues_canon]
  · next hinvalid =>
      rw [hinvalid]
      rfl

theorem ofValues_respell (hf : Token.Respells f) (vs : List ComponentValue) :
    ofValues (vs.map (respell f)) = ofValues vs :=
  ofValues_congr (withoutBlanks_respell hf vs) fun v _ =>
    matches_respell hf (term_respell hf (media_ignoresSpelling hf) v)

theorem writable_values (h : ∀ v ∈ vs, Fresh v) (hclear : Clear (lexemesOf (values vs))) :
    ∀ v ∈ values vs, Writable v := by
  unfold values at *
  split at hclear
  · exact (replaces_canon renders_featureValues h hclear).writable
  · refine writable_spread fun v hv => ?_
    have hcases : v = .token (.ident "not") ∨ v = .token (.ident "all") := by simpa using hv
    rcases hcases with rfl | rfl
    · exact writable_ident (by decide)
    · exact writable_ident (by decide)

/-- A media query is never written as nothing. -/
theorem withoutBlanks_values_ne_nil (vs : List ComponentValue) : withoutBlanks (values vs) ≠ [] := by
  unfold values
  split
  · next hvalid =>
      rw [withoutBlanks_canon, Ne, List.map_eq_nil_iff]
      intro hnil
      unfold ofValues at hvalid
      rw [dense_operands, hnil] at hvalid
      cases hvalid
  · exact List.cons_ne_nil _ _

/-! ### Their text -/

/-- The names that the text of a media query takes over. -/
def names (vs : List ComponentValue) : List String :=
  match ofValues vs with
  | .valid _ => bareNamesEach media featureValues vs
  | .invalid => []

variable {c : ComponentValue → ComponentValue}

theorem shows_furtherCondition (hc : Depicts (term media) c ws)
    (h : furtherCondition (ws.map (operandOf media)) = some t) :
    Shows t ((ws.map c).flatMap fun u => [.token .blank, u]) := by
  cases ws with
  | nil =>
      cases h
      exact shows_nil
  | cons a ws =>
      rw [List.map_cons, furtherCondition] at h
      split at h
      · next hand =>
          obtain ⟨s, hs, rfl⟩ := Option.map_eq_some_iff.mp h
          have hcondition := conditionText_operands_iff.mp hs
          obtain ⟨x, us, rfl⟩ := List.exists_cons_of_ne_nil hcondition.ne_nil
          have hfirst : Shows "and" [c a] := hc.shows_word List.mem_cons_self hand (by decide) (by decide)
          exact (shows_blank.append hfirst).append (shows_behind (hcondition.shows hc.tail))
      · cases h

/-- A media type and what is behind it show their values. -/
theorem shows_namedBy {m : Option String} (hc : Depicts (term media) c ws)
    (htype : ∀ n, .token (.ident n) ∈ ws → Shows (Text.foldCase n) [c (.token (.ident n))])
    (h : namedBy m (ws.map (operandOf media)) = some t) :
    ∃ s, t = (m.map (· ++ " ")).getD "" ++ s ∧ ws ≠ [] ∧ Shows s (spread (ws.map c)) := by
  cases ws with
  | nil => cases h
  | cons v ws =>
      rw [List.map_cons, namedBy] at h
      obtain ⟨n, hn, hrest⟩ := Option.bind_eq_some_iff.mp h
      have hv : v = .token (.ident n) := ident?_eq_some_iff.mp hn
      subst hv
      simp only at hrest
      split at hrest
      · cases hrest
      · obtain ⟨more, hmore, ht⟩ := Option.bind_eq_some_iff.mp hrest
        cases ht
        refine ⟨Text.foldCase n ++ more, String.append_assoc .., List.cons_ne_nil _ _, ?_⟩
        rw [List.map_cons, spread_cons]
        exact (htype n List.mem_cons_self).append (shows_furtherCondition hc.tail hmore)

theorem shows_modified {v : ComponentValue} {k : String} (hc : Depicts (term media) c (v :: ws))
    (hfirst : Shows k [c v])
    (htype : ∀ n, .token (.ident n) ∈ ws → Shows (Text.foldCase n) [c (.token (.ident n))])
    (h : namedBy (some k) (ws.map (operandOf media)) = some t) : Shows t (spread ((v :: ws).map c)) := by
  obtain ⟨s, rfl, hne, hs⟩ := shows_namedBy hc.tail htype h
  obtain ⟨x, us, rfl⟩ := List.exists_cons_of_ne_nil hne
  rw [List.map_cons, spread_cons, show (some k).map (· ++ " ") = some (k ++ " ") from rfl, Option.getD_some,
    String.append_assoc]
  exact hfirst.append (shows_behind hs)

theorem shows_typed (hc : Depicts (term media) c ws)
    (htype : ∀ n, .token (.ident n) ∈ ws → Shows (Text.foldCase n) [c (.token (.ident n))])
    (h : typed (ws.map (operandOf media)) = some t) : Shows t (spread (ws.map c)) := by
  rw [typed_eq] at h
  cases ws with
  | nil => cases h
  | cons v ws =>
      have hbehind : ∀ n, .token (.ident n) ∈ ws → Shows (Text.foldCase n) [c (.token (.ident n))] :=
        fun n hn => htype n (List.mem_cons_of_mem v hn)
      rw [List.map_cons, modifier] at h
      split at h
      · next hnot =>
          exact shows_modified hc (hc.shows_word List.mem_cons_self hnot (by decide) (by decide)) hbehind h
      split at h
      · next honly =>
          exact shows_modified hc (hc.shows_word List.mem_cons_self honly (by decide) (by decide)) hbehind h
      · obtain ⟨s, hs, -, hshows⟩ := shows_namedBy hc htype h
        rw [hs, Option.map_none, Option.getD_none, String.empty_append]
        exact hshows

theorem shows_text (vs : List ComponentValue) (hnames : ArePlain (names vs)) :
    Shows (ofValues vs).text (values vs) := by
  unfold names values at *
  cases hquery : ofValues vs with
  | invalid => exact show "not all".toList = written (spread [.token (.ident "not"), .token (.ident "all")]) by decide
  | valid t =>
      rw [hquery] at hnames
      have hterm := shows_termEach portrays_media vs hnames
      unfold ofValues at hquery
      simp only [dense_operands] at hquery
      split at hquery
      · next s hs =>
          cases hquery
          exact shows_of_term hterm (by rwa [ofValues?, dense_operands])
      split at hquery
      · next s hs =>
          cases hquery
          have hws : withoutBlanks vs ⊆ vs := fun _ hv => List.mem_of_mem_filter hv
          rw [canonEach_eq_map]
          refine shows_typed (depicts_canon hterm hws) (fun n hn => shows_ident ?_) hs
          exact hnames _ (mem_bareNamesEach (hws hn) (List.mem_singleton_self _))
      · cases hquery

end MediaQuery

namespace MediaList

open Condition

/-- Parts with a comma and a blank between neighbours. -/
def separated : List (List ComponentValue) → List ComponentValue
  | [] => []
  | [p] => p
  | p :: q :: ps => p ++ .token .comma :: .token .blank :: separated (q :: ps)

/-- The values of media queries. -/
def values (vs : List ComponentValue) : List ComponentValue :=
  if vs.all isBlank then [] else separated ((commaParts vs).map MediaQuery.values)

theorem infix_separated {p : List ComponentValue} {parts : List (List ComponentValue)} (hp : p ∈ parts) :
    p <:+: separated parts := by
  induction parts with
  | nil => cases hp
  | cons q parts ih =>
      cases parts with
      | nil => exact List.mem_singleton.mp hp ▸ List.infix_rfl
      | cons r parts =>
          rcases List.mem_cons.mp hp with rfl | hp
          · exact List.infix_append_left ..
          · obtain ⟨before, behind, hsplit⟩ := ih hp
            refine ⟨q ++ .token .comma :: .token .blank :: before, behind, ?_⟩
            rw [separated, ← hsplit]
            simp only [List.append_assoc, List.cons_append]

theorem mem_separated {v : ComponentValue} {parts : List (List ComponentValue)} (h : v ∈ separated parts) :
    (∃ p ∈ parts, v ∈ p) ∨ v = .token .comma ∨ v = .token .blank := by
  induction parts with
  | nil => cases h
  | cons p parts ih =>
      cases parts with
      | nil => exact .inl ⟨p, List.mem_cons_self, h⟩
      | cons q parts =>
          rcases List.mem_append.mp h with h | h
          · exact .inl ⟨p, List.mem_cons_self, h⟩
          rcases List.mem_cons.mp h with h | h
          · exact .inr (.inl h)
          rcases List.mem_cons.mp h with h | h
          · exact .inr (.inr h)
          · exact (ih h).imp_left fun ⟨r, hr, hv⟩ => ⟨r, List.mem_cons_of_mem p hr, hv⟩

theorem writable_values (h : ∀ v ∈ vs, Fresh v) (hclear : Clear (lexemesOf (values vs))) :
    ∀ v ∈ values vs, Writable v := by
  unfold values at *
  by_cases hall : vs.all isBlank = true
  · rw [if_pos hall]
    exact fun v hv => absurd hv List.not_mem_nil
  · rw [if_neg hall] at hclear ⊢
    intro v hv
    rcases mem_separated hv with ⟨p, hp, hv⟩ | rfl | rfl
    · have hpart := hclear.of_infix (infix_lexemesOf (infix_separated hp))
      obtain ⟨part, hmem, rfl⟩ := List.mem_map.mp hp
      obtain ⟨raw, hraw, rfl⟩ := List.mem_map.mp hmem
      have hfresh : ∀ v ∈ trim raw, Fresh v := fun v hv => h v (mem_of_mem_splitOn hraw (mem_of_mem_trim hv))
      exact MediaQuery.writable_values hfresh hpart v hv
    · exact writable_token trivial (by rintro u ⟨⟩)
    · exact writable_blank

theorem commaParts_separated : ∀ {parts : List (List ComponentValue)}, parts ≠ [] →
    (∀ p ∈ parts, trim p = p ∧ ∀ v ∈ p, v.isComma = false) → commaParts (separated parts) = parts
  | [], h => absurd rfl h
  | [p], _ => fun h => by
      obtain ⟨htrim, hcomma⟩ := h p List.mem_cons_self
      rw [separated, commaParts, splitOn_of_forall hcomma, List.map_singleton, htrim]
  | p :: q :: ps, _ => fun h => by
      obtain ⟨⟨htrim, hcomma⟩, hps⟩ := List.forall_mem_cons.mp h
      rw [separated, commaParts, splitOn_append_cons hcomma rfl, List.map_cons, htrim]
      exact congrArg (p :: ·) ((commaParts_blank _).trans (commaParts_separated (List.cons_ne_nil q ps) hps))

theorem isComma_canon {g : Vocabulary} {e : List ComponentValue → List ComponentValue} (v : ComponentValue) :
    (canon g e v).isComma = v.isComma := by
  cases v with
  | token t => cases t <;> rfl
  | block o vs =>
      cases o with
      | function n => rfl
      | bracket b => cases b <;> rfl

/-- A query is trimmed and has no comma. -/
theorem query_ends {part : List ComponentValue} (hpart : ∀ v ∈ part, v.isComma = false) :
    trim (MediaQuery.values part) = MediaQuery.values part ∧ ∀ v ∈ MediaQuery.values part, v.isComma = false := by
  unfold MediaQuery.values
  split
  · refine ⟨trim_spread fun v hv => isBlank_of_mem_canonEach hv, fun v hv => ?_⟩
    rcases mem_spread hv with hv | rfl
    · rw [canonEach_eq_map] at hv
      obtain ⟨u, hu, rfl⟩ := List.mem_map.mp hv
      rw [isComma_canon]
      exact hpart u (List.mem_of_mem_filter hu)
    · rfl
  · exact ⟨rfl, by decide⟩

theorem commaParts_values (h : vs.all isBlank = false) :
    commaParts (values vs) = (commaParts vs).map MediaQuery.values := by
  rw [values, h, if_neg Bool.false_ne_true]
  refine commaParts_separated ?_ fun p hp => ?_
  · rw [commaParts, List.map_map, Ne, List.map_eq_nil_iff]
    exact splitOn_ne_nil isComma vs
  · obtain ⟨part, hpart, rfl⟩ := List.mem_map.mp hp
    obtain ⟨raw, hraw, rfl⟩ := List.mem_map.mp hpart
    refine query_ends fun v hv => not_isSep_of_mem_splitOn hraw ?_
    exact mem_of_mem_trim hv

theorem all_isBlank_values (h : vs.all isBlank = false) : (values vs).all isBlank = false := by
  rw [all_isBlank, List.isEmpty_eq_false_iff, values, h, if_neg Bool.false_ne_true]
  cases hparts : (commaParts vs).map MediaQuery.values with
  | nil => exact absurd (List.map_eq_nil_iff.mp (List.map_eq_nil_iff.mp hparts)) (splitOn_ne_nil isComma vs)
  | cons p ps =>
      obtain ⟨part, _, -, hpart, -⟩ := List.map_eq_cons_iff.mp hparts
      have hne : withoutBlanks p ≠ [] := hpart ▸ MediaQuery.withoutBlanks_values_ne_nil part
      cases ps with
      | nil => exact hne
      | cons q ps =>
          rw [separated, withoutBlanks_append]
          exact List.append_ne_nil_of_left_ne_nil hne _

/-- As many queries as there were, with the same text. -/
theorem ofValues_values (vs : List ComponentValue) :
    (ofValues (values vs)).text = (ofValues vs).text ∧ (ofValues (values vs)).size = (ofValues vs).size := by
  cases h : vs.all isBlank with
  | true =>
      have hvalues : values vs = [] := if_pos h
      have hnone : ofValues vs = empty := if_pos h
      rw [hvalues, hnone]
      exact ⟨rfl, rfl⟩
  | false =>
      have hread : ofValues (values vs) = ⟨((commaParts vs).map MediaQuery.values).map MediaQuery.ofValues⟩ := by
        rw [ofValues, all_isBlank_values h, if_neg Bool.false_ne_true, commaParts_values h]
      have hvs : ofValues vs = ⟨(commaParts vs).map MediaQuery.ofValues⟩ := by
        rw [ofValues, h, if_neg Bool.false_ne_true]
      rw [hread, hvs, text, text, size, size, List.map_map, List.map_map, List.map_map]
      refine ⟨congrArg (Text.joined ", ") (List.map_congr_left fun p _ => MediaQuery.text_values p), ?_⟩
      simp only [List.length_map]

theorem ofValues_respell (hf : Token.Respells f) (vs : List ComponentValue) :
    ofValues (vs.map (respell f)) = ofValues vs := by
  have hmarks := keepsMarks_respell hf
  have hcomma : (fun v => isComma (respell f v)) = isComma := funext hmarks.isComma
  have hparts : commaParts (vs.map (respell f)) = (commaParts vs).map (List.map (respell f)) := by
    rw [commaParts, commaParts, splitOn_map, hcomma, List.map_map, List.map_map]
    exact List.map_congr_left fun part _ => trim_map hmarks.isBlank part
  rw [ofValues, ofValues, all_isBlank, withoutBlanks_respell hf, List.isEmpty_map, ← all_isBlank, hparts, List.map_map]
  rw [show MediaQuery.ofValues ∘ List.map (respell f) = MediaQuery.ofValues from
    funext (MediaQuery.ofValues_respell hf)]

/-! ### Their text -/

/-- The names that the text of media queries takes over. -/
def names (vs : List ComponentValue) : List String := (commaParts vs).flatMap MediaQuery.names

theorem shows_separated {a : List ComponentValue → String} {b : List ComponentValue → List ComponentValue}
    {parts : List (List ComponentValue)} (h : ∀ p ∈ parts, Shows (a p) (b p)) :
    Shows (Text.joined ", " (parts.map a)) (separated (parts.map b)) := by
  induction parts with
  | nil => exact shows_nil
  | cons p parts ih =>
      obtain ⟨hp, hparts⟩ := List.forall_mem_cons.mp h
      cases parts with
      | nil => exact hp
      | cons q parts =>
          have hcomma : Shows ", " [.token .comma, .token .blank] := rfl
          have hshows := (hp.append hcomma).append (ih hparts)
          rwa [List.append_assoc] at hshows

theorem shows_text (vs : List ComponentValue) (hnames : ArePlain (names vs)) :
    Shows (ofValues vs).text (values vs) := by
  unfold ofValues values
  split
  · exact shows_nil
  · rw [text, List.map_map]
    exact shows_separated fun p hp => MediaQuery.shows_text p fun n hn => hnames n (List.mem_flatMap.mpr ⟨p, hp, hn⟩)

end MediaList

end StyleTree
