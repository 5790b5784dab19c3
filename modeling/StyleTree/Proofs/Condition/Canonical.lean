/-
# `Proofs.Condition.Canonical` — the values that a condition's text stands for

A condition is kept as text.  `canon` gives the values that this text is
meant to consist of: words in lower case, one blank between neighbours, and
in parentheses a condition, what the vocabulary understands, or the values
as they stood, whichever was read.  Read as a term such a value gives the
text that the value it was made of gave (`term_canon`).

Three readings of parentheses are tried one after the other, so it must be
seen that none of them accepts what was written for a later one.  What
keeps them apart is the shape of a run: a condition consists of words and
terms only (`ofValues?_of_mem`), and tidying the inside of the values
changes neither which of them are words and terms nor which are blanks,
colons or comparisons (`Steady`).
-/
import StyleTree.Proofs.ComponentValue.Layout
import StyleTree.Proofs.Condition.Grammar

namespace StyleTree.Condition

open ComponentValue

variable {g : Vocabulary} {e : List ComponentValue → List ComponentValue} {allowOr : Bool} {k t : String}
  {v : ComponentValue} {vs ws : List ComponentValue}

/-! ## Operands that read alike -/

/-- Operands that no reader of conditions tells apart. -/
structure Operand.Matches (p q : Operand) : Prop where
  term : p.term = q.term
  word : p.value.ident?.map Text.foldCase = q.value.ident?.map Text.foldCase

theorem isWord_eq (v : ComponentValue) (k : String) :
    v.isWord k = (v.ident?.map Text.foldCase == some (Text.foldCase k)) := by
  have hword : ∀ n, Text.sameWord n k = (some (Text.foldCase n) == some (Text.foldCase k)) := by
    intro n
    rw [Bool.eq_iff_iff, Text.sameWord_iff, beq_iff_eq, Option.some.injEq]
  cases v with
  | block o vs => rfl
  | token t => cases t <;> first | exact hword _ | rfl

theorem Operand.Matches.isWord {p q : Operand} (h : p.Matches q) (k : String) :
    p.value.isWord k = q.value.isWord k := by
  rw [isWord_eq, isWord_eq, h.word]

variable {p q : ComponentValue → Operand}

theorem joinedTerms_congr (h : ∀ v ∈ ws, (p v).Matches (q v)) (keyword : Option String) :
    joinedTerms allowOr keyword (ws.map p) = joinedTerms allowOr keyword (ws.map q) := by
  induction ws using List.twoStepInduction generalizing keyword with
  | nil => rfl
  | singleton v => rfl
  | cons_cons v u ws ih _ =>
      obtain ⟨hv, h⟩ := List.forall_mem_cons.mp h
      obtain ⟨hu, hws⟩ := List.forall_mem_cons.mp h
      simp only [List.map_cons, joinedTerms, joiner?, hv.isWord, hu.term, ih hws]

theorem conditionText_congr (h : ∀ v ∈ ws, (p v).Matches (q v)) :
    conditionText allowOr (ws.map p) = conditionText allowOr (ws.map q) := by
  cases ws with
  | nil => rfl
  | cons v ws =>
      obtain ⟨hv, hws⟩ := List.forall_mem_cons.mp h
      simp only [List.map_cons, conditionText, hv.isWord, hv.term, joinedTerms_congr hws]
      cases ws with
      | nil => rfl
      | cons u ws =>
          cases ws with
          | nil => simp only [List.map_cons, List.map_nil, (hws u List.mem_cons_self).term]
          | cons w ws => rfl

/-- Operands that are the same words, and of which both or none are terms. -/
structure Operand.Resembles (p q : Operand) : Prop where
  term : p.term.isSome = q.term.isSome
  word : ∀ k, p.value.isWord k = q.value.isWord k

theorem isSome_joinedTerms_congr (h : ∀ v ∈ ws, (p v).Resembles (q v)) (keyword : Option String) :
    (joinedTerms allowOr keyword (ws.map p)).isSome = (joinedTerms allowOr keyword (ws.map q)).isSome := by
  induction ws using List.twoStepInduction generalizing keyword with
  | nil => rfl
  | singleton v => rfl
  | cons_cons v u ws ih _ =>
      obtain ⟨hv, h⟩ := List.forall_mem_cons.mp h
      obtain ⟨hu, hws⟩ := List.forall_mem_cons.mp h
      have hjoiner : joiner? allowOr (p v) = joiner? allowOr (q v) := by simp only [joiner?, hv.word]
      simp only [List.map_cons, joinedTerms, hjoiner]
      have hterm := hu.term
      cases hp : (p u).term <;> cases hq : (q u).term <;> rw [hp, hq] at hterm
      · rfl
      · cases hterm
      · cases hterm
      · cases joiner? allowOr (q v) with
        | none => rfl
        | some k =>
            simp only [Option.bind_eq_bind, Option.bind_some]
            split
            · have hrest := ih hws (some k)
              cases hmore : joinedTerms allowOr (some k) (ws.map p) <;>
                cases hmore' : joinedTerms allowOr (some k) (ws.map q) <;> rw [hmore, hmore'] at hrest <;>
                first | rfl | cases hrest
            · rfl

/-- Whether a run is a condition depends on which of its values are words and terms, not on their texts. -/
theorem isSome_conditionText_congr (h : ∀ v ∈ ws, (p v).Resembles (q v)) :
    (conditionText allowOr (ws.map p)).isSome = (conditionText allowOr (ws.map q)).isSome := by
  cases ws with
  | nil => rfl
  | cons v ws =>
      obtain ⟨hv, hws⟩ := List.forall_mem_cons.mp h
      simp only [List.map_cons, conditionText, hv.word]
      split
      · cases ws with
        | nil => rfl
        | cons u ws =>
            cases ws with
            | nil =>
                simp only [List.map_cons, List.map_nil, Option.isSome_map]
                exact (hws u List.mem_cons_self).term
            | cons w ws => rfl
      · have hrest : (joinedTerms allowOr none (ws.map p)).isSome = (joinedTerms allowOr none (ws.map q)).isSome :=
          isSome_joinedTerms_congr hws none
        have hterm := hv.term
        cases hp : (p v).term <;> cases hq : (q v).term <;> rw [hp, hq] at hterm <;> first | rfl | cases hterm
        cases hmore : joinedTerms allowOr none (ws.map p) <;> cases hmore' : joinedTerms allowOr none (ws.map q) <;>
          rw [hmore, hmore'] at hrest <;> first | rfl | cases hrest

/-- What is read off a run depends on its operands, blanks aside. -/
theorem ofValues?_congr {f : ComponentValue → ComponentValue} {us : List ComponentValue}
    (h : withoutBlanks us = (withoutBlanks vs).map f)
    (hf : ∀ v ∈ withoutBlanks vs, (operandOf g (f v)).Matches (operandOf g v)) :
    ofValues? g allowOr us = ofValues? g allowOr vs := by
  rw [ofValues?, ofValues?, dense_operands, dense_operands, h, List.map_map]
  exact conditionText_congr hf

theorem isSome_ofValues?_congr {f : ComponentValue → ComponentValue} {us : List ComponentValue}
    (h : withoutBlanks us = (withoutBlanks vs).map f)
    (hf : ∀ v ∈ withoutBlanks vs, (operandOf g (f v)).Resembles (operandOf g v)) :
    (ofValues? g allowOr us).isSome = (ofValues? g allowOr vs).isSome := by
  rw [ofValues?, ofValues?, dense_operands, dense_operands, h, List.map_map]
  exact isSome_conditionText_congr hf

/-- A condition consists of words and terms. -/
theorem IsCondition.mem {T : ComponentValue → Option String} {ks : List String} (h : IsCondition T ks ws t)
    (hv : v ∈ ws) : (∃ k, v.isWord k = true) ∨ (T v).isSome = true := by
  have hjoined : ∀ {k : String} {us : List ComponentValue} {ts : List String}, Joined T k us ts → v ∈ us →
      (∃ k, v.isWord k = true) ∨ (T v).isSome = true := by
    intro k us ts hus hmem
    induction hus with
    | nil => cases hmem
    | cons hj hx _ ih =>
        rcases List.mem_cons.mp hmem with rfl | hmem
        · exact .inl ⟨_, hj⟩
        rcases List.mem_cons.mp hmem with rfl | hmem
        · exact .inr (by rw [hx]; rfl)
        · exact ih hmem
  cases h with
  | negated hn hx =>
      rcases List.mem_cons.mp hv with rfl | hv
      · exact .inl ⟨_, hn⟩
      · rw [List.mem_singleton.mp hv, hx]
        exact .inr rfl
  | joined _ hx hw =>
      rcases List.mem_cons.mp hv with rfl | hv
      · exact .inr (by rw [hx]; rfl)
      · exact hjoined hw hv

/-- A run with a value that is neither word nor term is no condition. -/
theorem ofValues?_of_mem (hv : v ∈ withoutBlanks vs) (hterm : term g v = none) (hword : v.ident? = none) :
    ofValues? g allowOr vs = none := by
  refine Option.eq_none_iff_forall_ne_some.mpr fun t ht => ?_
  rcases (ofValues?_eq_some_iff.mp ht).mem hv with ⟨k, hk⟩ | hsome
  · rw [isWord_eq, hword] at hk
    cases hk
  · rw [hterm] at hsome
    cases hsome

/-! ## Canonical values -/

/-- A block with tidied contents; a token stays as it is, be it an address without quotes. -/
def tidyInside : ComponentValue → ComponentValue
  | .token t => .token t
  | .block o vs => .block o (tidied vs)

/-- A run with normalised blanks and tidied blocks. -/
def tidiedInside (vs : List ComponentValue) : List ComponentValue := layOut .shut (vs.map tidyInside)

/-- A run with one blank between any two values. -/
def spread (vs : List ComponentValue) : List ComponentValue := vs.intersperse (.token .blank)

mutual

/-- A value as a condition writes it; `e` gives the contents of parentheses that hold no condition and that the
vocabulary understands. -/
def canon (g : Vocabulary) (e : List ComponentValue → List ComponentValue) : ComponentValue → ComponentValue
  | .token (.ident n) => .token (.ident (Text.foldCase n))
  | .token t => .token t
  | .block (.bracket .round) vs =>
    .block (.bracket .round)
      (if (ofValues? g true vs).isSome then spread (canonEach g e vs)
       else if (g.enclosed vs).isSome then e vs
       else tidiedInside vs)
  | .block (.function n) vs =>
    .block (.function (if (g.function n vs).isSome then Text.foldCase n else n)) (tidied vs)
  | .block o vs => .block o (tidied vs)

/-- The values of a run that are no blanks, as a condition writes them. -/
def canonEach (g : Vocabulary) (e : List ComponentValue → List ComponentValue) :
    List ComponentValue → List ComponentValue
  | [] => []
  | v :: vs => if v.isBlank then canonEach g e vs else canon g e v :: canonEach g e vs

end

/-- What the vocabulary reads in parentheses or in a function, it reads again as it is written, and it reads nothing
there that was kept as it stood. -/
structure Steady (g : Vocabulary) (e : List ComponentValue → List ComponentValue) : Prop where
  enclosed : ∀ {vs t}, g.enclosed vs = some t → g.enclosed (e vs) = some t
  condition : ∀ {vs}, (g.enclosed vs).isSome = true → ofValues? g true vs = none → ofValues? g true (e vs) = none
  inside : ∀ {vs}, g.enclosed vs = none → g.enclosed (tidiedInside vs) = none
  function : ∀ {n vs t}, g.function n vs = some t → g.function (Text.foldCase n) (tidied vs) = some t
  noFunction : ∀ {n vs}, g.function n vs = none → g.function n (tidied vs) = none

theorem canonEach_eq_map (vs : List ComponentValue) : canonEach g e vs = (withoutBlanks vs).map (canon g e) := by
  induction vs with
  | nil => rfl
  | cons v vs ih =>
      rw [canonEach, ih, withoutBlanks, withoutBlanks, List.filter_cons]
      cases v.isBlank <;> rfl

theorem isBlank_canon (v : ComponentValue) : (canon g e v).isBlank = v.isBlank := by
  cases v with
  | token t => cases t <;> rfl
  | block o vs =>
      cases o with
      | function n => rfl
      | bracket b => cases b <;> rfl

theorem ident?_canon (v : ComponentValue) : (canon g e v).ident? = v.ident?.map Text.foldCase := by
  cases v with
  | token t => cases t <;> rfl
  | block o vs =>
      cases o with
      | function n => rfl
      | bracket b => cases b <;> rfl

theorem withoutBlanks_spread (h : ∀ v ∈ ws, v.isBlank = false) : withoutBlanks (spread ws) = ws := by
  have hcons : ∀ {u : ComponentValue} {us : List ComponentValue}, u.isBlank = false →
      withoutBlanks (u :: us) = u :: withoutBlanks us := fun hu => List.filter_cons_of_pos (by rw [hu]; rfl)
  induction ws with
  | nil => rfl
  | cons v ws ih =>
      obtain ⟨hv, hws⟩ := List.forall_mem_cons.mp h
      cases ws with
      | nil => exact hcons hv
      | cons u ws => exact (hcons hv).trans (congrArg (v :: ·) (ih hws))

/-- What a condition writes has the values of what was read, blanks aside. -/
theorem withoutBlanks_canon (vs : List ComponentValue) :
    withoutBlanks (spread (canonEach g e vs)) = (withoutBlanks vs).map (canon g e) := by
  rw [canonEach_eq_map]
  refine withoutBlanks_spread fun v hv => ?_
  obtain ⟨u, hu, rfl⟩ := List.mem_map.mp hv
  rw [isBlank_canon]
  simpa using (List.mem_filter.mp hu).2

theorem term_round (g : Vocabulary) (vs : List ComponentValue) :
    term g (.block (.bracket .round) vs) =
      match ofValues? g true vs with
      | some c => some ("(" ++ c ++ ")")
      | none => some ((g.enclosed vs).getD ("(" ++ textOf vs ++ ")")) := by
  rw [term]
  show (match ofValues? g true vs with | some c => _ | none => _) = _
  cases ofValues? g true vs with
  | some c => rfl
  | none =>
      cases g.enclosed vs with
      | some t => rfl
      | none => rfl

/-! ## Values that are kept as they stood -/

theorem keepsMarks_tidyInside : KeepsMarks tidyInside := by
  intro v t _
  cases v with
  | block o vs => exact iff_of_false (by rintro ⟨⟩) (by rintro ⟨⟩)
  | token x => exact Iff.rfl

theorem tidy_tidyInside (v : ComponentValue) : tidy (tidyInside v) = tidy v := by
  cases v with
  | token t => rfl
  | block o vs => exact congrArg (ComponentValue.block o) (tidied_tidied vs)

theorem textOf_tidiedInside (vs : List ComponentValue) : textOf (tidiedInside vs) = textOf vs := by
  refine textOf_eq_of_tidied ?_
  rw [tidiedInside, tidied_layOut, tidied, tidied, tidyEach_eq_map, tidyEach_eq_map, List.map_map]
  exact congrArg (layOut .shut) (List.map_congr_left fun v _ => tidy_tidyInside v)

theorem withoutBlanks_tidiedInside (vs : List ComponentValue) :
    withoutBlanks (tidiedInside vs) = (withoutBlanks vs).map tidyInside := by
  rw [tidiedInside, withoutBlanks_layOut, withoutBlanks_map keepsMarks_tidyInside.isBlank]

theorem resembles_tidyInside (g : Vocabulary) (v : ComponentValue) :
    (operandOf g (tidyInside v)).Resembles (operandOf g v) := by
  cases v with
  | token t => exact ⟨rfl, fun _ => rfl⟩
  | block o vs =>
      refine ⟨?_, fun _ => rfl⟩
      show (term g (.block o (tidied vs))).isSome = (term g (.block o vs)).isSome
      rw [Bool.eq_iff_iff, term_isSome_iff, term_isSome_iff]
      cases o with
      | function n => exact iff_of_true (.inr ⟨n, _, rfl⟩) (.inr ⟨n, _, rfl⟩)
      | bracket b =>
          cases b with
          | round => exact iff_of_true (.inl ⟨_, rfl⟩) (.inl ⟨_, rfl⟩)
          | square => exact iff_of_false (by rintro (⟨_, ⟨⟩⟩ | ⟨_, _, ⟨⟩⟩)) (by rintro (⟨_, ⟨⟩⟩ | ⟨_, _, ⟨⟩⟩))
          | curly => exact iff_of_false (by rintro (⟨_, ⟨⟩⟩ | ⟨_, _, ⟨⟩⟩)) (by rintro (⟨_, ⟨⟩⟩ | ⟨_, _, ⟨⟩⟩))

/-- What was no condition as it stood is none with tidied blocks. -/
theorem ofValues?_tidiedInside (h : ofValues? g allowOr vs = none) : ofValues? g allowOr (tidiedInside vs) = none := by
  have hsame : (ofValues? g allowOr (tidiedInside vs)).isSome = (ofValues? g allowOr vs).isSome :=
    isSome_ofValues?_congr (withoutBlanks_tidiedInside vs) fun v _ => resembles_tidyInside g v
  rw [h] at hsame
  exact Option.not_isSome_iff_eq_none.mp (Bool.eq_false_iff.mp hsame)

/-! ## Reading canonical values -/

theorem ofValues?_canon_of_term (hterm : ∀ v ∈ withoutBlanks vs, term g (canon g e v) = term g v) :
    ofValues? g allowOr (spread (canonEach g e vs)) = ofValues? g allowOr vs := by
  refine ofValues?_congr (withoutBlanks_canon vs) fun v hv => ⟨hterm v hv, ?_⟩
  show (canon g e v).ident?.map Text.foldCase = v.ident?.map Text.foldCase
  rw [ident?_canon, Option.map_map]
  exact congrArg (Option.map · v.ident?) (funext Text.foldCase_foldCase)

theorem term_canon_round (hs : Steady g e) (hrun : ofValues? g true (spread (canonEach g e vs)) = ofValues? g true vs) :
    term g (canon g e (.block (.bracket .round) vs)) = term g (.block (.bracket .round) vs) := by
  rw [canon, term_round, term_round]
  cases hc : ofValues? g true vs with
  | some c => rw [Option.isSome_some, if_pos rfl, hrun, hc]
  | none =>
      rw [Option.isSome_none, if_neg Bool.false_ne_true]
      cases ht : g.enclosed vs with
      | some t =>
          rw [Option.isSome_some, if_pos rfl, hs.condition (by rw [ht]; rfl) hc, hs.enclosed ht]
          rfl
      | none =>
          rw [Option.isSome_none, if_neg Bool.false_ne_true, ofValues?_tidiedInside hc, hs.inside ht,
            textOf_tidiedInside]

theorem text_block (o : Opener) (vs : List ComponentValue) :
    (ComponentValue.block o vs).text = o.text ++ textOf vs ++ o.closer.closingText := by
  rw [text, textOf]

theorem term_canon_function (hs : Steady g e) (n : String) (vs : List ComponentValue) :
    term g (canon g e (.block (.function n) vs)) = term g (.block (.function n) vs) := by
  rw [canon, term, term]
  cases ht : g.function n vs with
  | some t => rw [Option.isSome_some, if_pos rfl, hs.function ht]
  | none =>
      rw [Option.isSome_none, if_neg Bool.false_ne_true, hs.noFunction ht, asWritten, asWritten, text_block, text_block,
        textOf_tidied]

mutual

/-- As a term, a canonical value gives the text that the value gave which it was made of. -/
theorem term_canon (hs : Steady g e) : ∀ v : ComponentValue, term g (canon g e v) = term g v
  | .token t => by cases t <;> rfl
  | .block o vs => by
      have hvs := term_canonEach hs vs
      cases o with
      | function n => exact term_canon_function hs n vs
      | bracket b =>
          cases b with
          | round => exact term_canon_round hs (ofValues?_canon_of_term fun v hv => hvs v (List.mem_of_mem_filter hv))
          | square => rfl
          | curly => rfl

theorem term_canonEach (hs : Steady g e) : ∀ vs : List ComponentValue, ∀ v ∈ vs, term g (canon g e v) = term g v
  | [] => fun _ hv => absurd hv List.not_mem_nil
  | v :: vs => fun u hu => by
      rcases List.mem_cons.mp hu with hu | hu
      · exact hu ▸ term_canon hs v
      · exact term_canonEach hs vs u hu

end

/-- A run that is written canonically reads as before. -/
theorem ofValues?_canon (hs : Steady g e) (vs : List ComponentValue) :
    ofValues? g allowOr (spread (canonEach g e vs)) = ofValues? g allowOr vs :=
  ofValues?_canon_of_term fun v _ => term_canon hs v

end StyleTree.Condition
