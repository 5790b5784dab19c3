/-
# `Proofs.ComponentValue.Runs` — cutting and trimming runs of values

What is between two separators contains none (`not_isSep_of_mem_splitOn`),
and parts without separators are what is between them
(`splitOn_append_cons`).  Trimming takes away blanks at the two ends and
nothing else, so a run without its blanks is that of the trimmed one
(`withoutBlanks_trim`).

A declaration is important if the last two of its values, blanks aside, say
so (`splitImportance_snd`).
-/
import Mathlib.Data.List.DropRight
import StyleTree.Statement

namespace StyleTree

/-- A token that is neither a number nor an address: the structure of a run depends on these only. -/
def Token.isMark : Token → Bool
  | .url _ | .number _ | .percentage _ | .dimension _ _ => false
  | _ => true

namespace ComponentValue

/-! ## Equality -/

mutual

/-- Whether two values are the same. -/
def decideEq : (v u : ComponentValue) → Decidable (v = u)
  | .token t, .token x => decidable_of_iff (t = x) (by rw [ComponentValue.token.injEq])
  | .token _, .block _ _ => .isFalse (by rintro ⟨⟩)
  | .block _ _, .token _ => .isFalse (by rintro ⟨⟩)
  | .block o vs, .block p us =>
    match decideEqAll vs us with
    | .isTrue h => decidable_of_iff (o = p) (by rw [ComponentValue.block.injEq, and_iff_left h])
    | .isFalse h => .isFalse fun hsame => h (ComponentValue.block.inj hsame).2

def decideEqAll : (vs us : List ComponentValue) → Decidable (vs = us)
  | [], [] => .isTrue rfl
  | [], _ :: _ => .isFalse (by rintro ⟨⟩)
  | _ :: _, [] => .isFalse (by rintro ⟨⟩)
  | v :: vs, u :: us =>
    match decideEq v u, decideEqAll vs us with
    | .isTrue h, .isTrue hs => .isTrue (by rw [h, hs])
    | .isFalse h, _ => .isFalse fun hsame => h (List.cons.inj hsame).1
    | _, .isFalse hs => .isFalse fun hsame => hs (List.cons.inj hsame).2

end

instance : DecidableEq ComponentValue := decideEq

/-! ## Parts between separators -/

section

variable {α : Type} {sep : α → Bool} {l : List α}

theorem splitOn_ne_nil (sep : α → Bool) (vs : List α) : splitOn sep vs ≠ [] := by
  intro h
  cases vs with
  | nil => cases h
  | cons v vs =>
      unfold splitOn at h
      split at h
      · cases h
      · split at h <;> cases h

theorem splitOn_map {β : Type} (sep : β → Bool) (f : α → β) (l : List α) :
    splitOn sep (l.map f) = (splitOn (fun a => sep (f a)) l).map (List.map f) := by
  induction l with
  | nil => rfl
  | cons a l ih =>
      rw [List.map_cons, splitOn, splitOn, ih]
      split
      · rfl
      · cases splitOn (fun a => sep (f a)) l <;> rfl

theorem mem_of_mem_splitOn {x : α} :
    ∀ {l : List α} {part : List α}, part ∈ splitOn sep l → x ∈ part → x ∈ l
  | [], part, hpart, hx => by
      rw [splitOn, List.mem_singleton] at hpart
      rw [hpart] at hx
      exact hx
  | v :: l, part, hpart, hx => by
      rw [splitOn] at hpart
      split at hpart
      · rcases List.mem_cons.mp hpart with rfl | hpart
        · cases hx
        · exact List.mem_cons_of_mem _ (mem_of_mem_splitOn hpart hx)
      · split at hpart
        · next first parts heq =>
            have hfirst : first ∈ splitOn sep l := heq ▸ List.mem_cons_self
            rcases List.mem_cons.mp hpart with rfl | hpart
            · rcases List.mem_cons.mp hx with rfl | hx
              · exact List.mem_cons_self
              · exact List.mem_cons_of_mem _ (mem_of_mem_splitOn hfirst hx)
            · have hrest : part ∈ splitOn sep l := heq ▸ List.mem_cons_of_mem _ hpart
              exact List.mem_cons_of_mem _ (mem_of_mem_splitOn hrest hx)
        · rw [List.mem_singleton] at hpart
          rw [hpart, List.mem_singleton] at hx
          exact hx ▸ List.mem_cons_self

theorem not_isSep_of_mem_splitOn {x : α} {part : List α} (hpart : part ∈ splitOn sep l) (hx : x ∈ part) :
    sep x = false := by
  induction l generalizing part with
  | nil =>
      rw [List.mem_singleton.mp hpart] at hx
      cases hx
  | cons a l ih =>
      rw [splitOn] at hpart
      split at hpart
      · rcases List.mem_cons.mp hpart with rfl | hpart
        · cases hx
        · exact ih hpart hx
      next ha =>
      split at hpart
      · next first parts heq =>
          rw [heq] at ih
          rcases List.mem_cons.mp hpart with rfl | hpart
          · rcases List.mem_cons.mp hx with rfl | hx
            · exact Bool.eq_false_iff.mpr ha
            · exact ih List.mem_cons_self hx
          · exact ih (List.mem_cons_of_mem _ hpart) hx
      · next heq => exact absurd heq (splitOn_ne_nil sep l)

theorem splitOn_of_forall (h : ∀ a ∈ l, sep a = false) :
    splitOn sep l = [l] := by
  induction l with
  | nil => rfl
  | cons a l ih =>
      obtain ⟨ha, hl⟩ := List.forall_mem_cons.mp h
      rw [splitOn, ha, ih hl]
      rfl

theorem splitOn_append_cons {b : α} (h : ∀ a ∈ l, sep a = false)
    (hb : sep b = true) (more : List α) : splitOn sep (l ++ b :: more) = l :: splitOn sep more := by
  induction l with
  | nil => exact if_pos hb
  | cons a l ih =>
      obtain ⟨ha, hl⟩ := List.forall_mem_cons.mp h
      rw [List.cons_append, splitOn, ha, ih hl]
      rfl

end

/-! ## Trimming -/

variable {vs us : List ComponentValue}

theorem trim_append_of_isBlank {bs : List ComponentValue} (h : ∀ v ∈ bs, v.isBlank = true)
    (vs : List ComponentValue) : trim (bs ++ vs) = trim vs := by
  rw [trim, trim, List.dropWhile_append_of_pos h]

theorem trim_concat_of_isBlank {v : ComponentValue} (h : v.isBlank = true) (vs : List ComponentValue) :
    trim (vs ++ [v]) = trim vs := by
  rw [trim, trim, List.dropWhile_append]
  split
  · next hnil =>
      rw [List.isEmpty_iff.mp hnil, List.dropWhile_cons_of_pos h]
      rfl
  · rw [List.reverse_append, List.reverse_singleton, List.singleton_append, List.dropWhile_cons_of_pos h]

theorem commaParts_blank (vs : List ComponentValue) : commaParts (.token .blank :: vs) = commaParts vs := by
  rw [commaParts, commaParts, splitOn, if_neg (show ¬ isComma (.token .blank) = true from Bool.false_ne_true)]
  cases hparts : splitOn isComma vs with
  | nil => exact absurd hparts (splitOn_ne_nil isComma vs)
  | cons part parts => rfl

theorem withoutBlanks_dropWhile (vs : List ComponentValue) :
    withoutBlanks (vs.dropWhile isBlank) = withoutBlanks vs := by
  induction vs with
  | nil => rfl
  | cons v vs ih =>
      rw [List.dropWhile_cons]
      split
      · next hv => rw [ih, withoutBlanks, withoutBlanks, List.filter_cons_of_neg (by simpa using hv)]
      · rfl

theorem withoutBlanks_of_dropWhile {v : ComponentValue} (h : vs.dropWhile isBlank = v :: us) :
    withoutBlanks vs = v :: withoutBlanks us := by
  have hv := List.head?_dropWhile_not isBlank vs
  rw [h] at hv
  have hv : v.isBlank = false := hv
  rw [← withoutBlanks_dropWhile, h, withoutBlanks, List.filter_cons_of_pos (by rw [hv]; rfl)]
  rfl

theorem withoutBlanks_reverse (vs : List ComponentValue) : withoutBlanks vs.reverse = (withoutBlanks vs).reverse :=
  List.filter_reverse ..

theorem withoutBlanks_trim (vs : List ComponentValue) : withoutBlanks (trim vs) = withoutBlanks vs := by
  rw [trim, withoutBlanks_reverse, withoutBlanks_dropWhile, withoutBlanks_reverse, withoutBlanks_dropWhile,
    List.reverse_reverse]

theorem withoutBlanks_append (vs us : List ComponentValue) :
    withoutBlanks (vs ++ us) = withoutBlanks vs ++ withoutBlanks us :=
  List.filter_append ..

theorem withoutBlanks_map {f : ComponentValue → ComponentValue} (hf : ∀ v, (f v).isBlank = v.isBlank)
    (vs : List ComponentValue) : withoutBlanks (vs.map f) = (withoutBlanks vs).map f := by
  rw [withoutBlanks, withoutBlanks, List.filter_map]
  exact congrArg (List.map f) (List.filter_congr fun v _ => congrArg _ (hf v))

theorem trim_map {f : ComponentValue → ComponentValue} (hf : ∀ v, (f v).isBlank = v.isBlank)
    (vs : List ComponentValue) : trim (vs.map f) = (trim vs).map f := by
  have hsame : isBlank ∘ f = isBlank := funext hf
  rw [trim, trim, List.dropWhile_map, hsame, ← List.map_reverse, List.dropWhile_map, hsame, ← List.map_reverse]

theorem mem_of_mem_trim {v : ComponentValue} (h : v ∈ trim vs) : v ∈ vs :=
  (List.dropWhile_sublist _).subset ((List.rdropWhile_prefix _ _).subset h)

/-- A run with no blank at its ends stays as it is. -/
theorem trim_of_ends (hfirst : ∀ v ∈ vs.head?, v.isBlank = false) (hlast : ∀ v ∈ vs.getLast?, v.isBlank = false) :
    trim vs = vs := by
  have hdrop : vs.dropWhile isBlank = vs := by
    cases vs with
    | nil => rfl
    | cons v vs => exact List.dropWhile_cons_of_neg (by rw [hfirst v rfl]; exact Bool.false_ne_true)
  rw [trim, hdrop]
  refine List.rdropWhile_eq_self_iff.mpr fun hne => ?_
  rw [hlast _ (List.getLast?_eq_some_getLast hne)]
  exact Bool.false_ne_true

theorem isBlank_of_head?_trim {v : ComponentValue} (h : v ∈ (trim vs).head?) : v.isBlank = false := by
  have hprefix : trim vs <+: vs.dropWhile isBlank := List.rdropWhile_prefix _ _
  have hhead : v ∈ (vs.dropWhile isBlank).head? := by
    obtain ⟨us, hus⟩ := List.head?_eq_some_iff.mp h
    obtain ⟨ws, hws⟩ := hprefix
    rw [← hws, hus]
    rfl
  have hnot := List.head?_dropWhile_not isBlank vs
  rw [Option.mem_def.mp hhead] at hnot
  exact hnot

theorem isBlank_of_getLast?_trim {v : ComponentValue} (h : v ∈ (trim vs).getLast?) : v.isBlank = false := by
  have hne : trim vs ≠ [] := by
    intro hnil
    rw [hnil] at h
    cases h
  rw [List.getLast?_eq_some_getLast hne] at h
  cases h
  exact Bool.eq_false_iff.mpr (List.rdropWhile_last_not _ _ hne)

theorem trim_trim (vs : List ComponentValue) : trim (trim vs) = trim vs :=
  trim_of_ends (fun _ hv => isBlank_of_head?_trim hv) fun _ hv => isBlank_of_getLast?_trim hv

/-- A trimmed run consists of blanks only if it is empty. -/
theorem eq_nil_of_withoutBlanks (htrim : trim vs = vs) (h : withoutBlanks vs = []) : vs = [] := by
  rw [← htrim, trim]
  have hdrop : vs.dropWhile isBlank = [] := by
    refine List.dropWhile_eq_nil_iff.mpr fun v hv => ?_
    have hnone := List.filter_eq_nil_iff.mp h v hv
    simpa using hnone
  rw [hdrop]
  rfl

/-- A trimmed run with one value, blanks aside, is that value. -/
theorem eq_singleton_of_withoutBlanks {v : ComponentValue} (htrim : trim vs = vs) (h : withoutBlanks vs = [v]) :
    vs = [v] := by
  cases hdrop : vs.dropWhile isBlank with
  | nil =>
      rw [← withoutBlanks_dropWhile, hdrop] at h
      cases h
  | cons u us =>
      rw [withoutBlanks_of_dropWhile hdrop] at h
      obtain ⟨rfl, hus⟩ := List.cons.inj h
      have hblank : us.reverse.dropWhile isBlank = [] := by
        refine List.dropWhile_eq_nil_iff.mpr fun w hw => ?_
        simpa using List.filter_eq_nil_iff.mp hus w (List.mem_reverse.mp hw)
      have hu : u.isBlank = false := by
        have hfirst := List.head?_dropWhile_not isBlank vs
        rw [hdrop] at hfirst
        exact hfirst
      rw [← htrim, trim, hdrop, List.reverse_cons, List.dropWhile_append, hblank]
      simp [hu]

/-! ## Marks -/

/-- The function keeps marks, and makes none of other values. -/
def KeepsMarks (f : ComponentValue → ComponentValue) : Prop :=
  ∀ v t, t.isMark = true → (f v = .token t ↔ v = .token t)

theorem isBlank_iff {v : ComponentValue} : v.isBlank = true ↔ v = .token .blank := by
  refine ⟨fun h => ?_, by rintro rfl; rfl⟩
  unfold isBlank at h
  split at h
  · rfl
  · cases h

theorem isComma_iff {v : ComponentValue} : v.isComma = true ↔ v = .token .comma := by
  refine ⟨fun h => ?_, by rintro rfl; rfl⟩
  unfold isComma at h
  split at h
  · rfl
  · cases h

theorem isDelim_iff {v : ComponentValue} {c : Char} : v.isDelim c = true ↔ v = .token (.delim c) := by
  refine ⟨fun h => ?_, by rintro rfl; exact beq_self_eq_true c⟩
  unfold isDelim at h
  split at h
  · rw [beq_iff_eq.mp h]
  · cases h

theorem ident?_eq_some_iff {v : ComponentValue} {n : String} : v.ident? = some n ↔ v = .token (.ident n) := by
  refine ⟨fun h => ?_, by rintro rfl; rfl⟩
  unfold ident? at h
  split at h
  · rw [Option.some.inj h]
  · cases h

section

variable {f : ComponentValue → ComponentValue}

theorem KeepsMarks.isBlank (h : KeepsMarks f) (v : ComponentValue) : (f v).isBlank = v.isBlank := by
  rw [Bool.eq_iff_iff, isBlank_iff, isBlank_iff, h v .blank rfl]

theorem KeepsMarks.isComma (h : KeepsMarks f) (v : ComponentValue) : (f v).isComma = v.isComma := by
  rw [Bool.eq_iff_iff, isComma_iff, isComma_iff, h v .comma rfl]

theorem KeepsMarks.isDelim (h : KeepsMarks f) (c : Char) (v : ComponentValue) : (f v).isDelim c = v.isDelim c := by
  rw [Bool.eq_iff_iff, isDelim_iff, isDelim_iff, h v (.delim c) rfl]

theorem KeepsMarks.ident? (h : KeepsMarks f) (v : ComponentValue) : (f v).ident? = v.ident? := by
  refine Option.ext fun n => ?_
  rw [ident?_eq_some_iff, ident?_eq_some_iff, h v (.ident n) rfl]

theorem KeepsMarks.isWord (h : KeepsMarks f) (word : String) (v : ComponentValue) :
    (f v).isWord word = v.isWord word := by
  have hword : ∀ u : ComponentValue, u.isWord word = u.ident?.any (Text.sameWord · word) := by
    intro u
    cases u with
    | block o us => rfl
    | token t => cases t <;> rfl
  rw [hword, hword, h.ident?]

end

/-! ## Importance -/

open WrittenDeclaration

/-- The word and the mark before it, the last value first. -/
def endsImportant : List ComponentValue → Bool
  | last :: bang :: _ => last.isWord "important" && bang.isDelim '!'
  | _ => false

theorem splitImportance_congr (h : trim vs = trim us) : splitImportance vs = splitImportance us := by
  unfold splitImportance
  rw [h]

theorem splitImportance_snd (vs : List ComponentValue) :
    (splitImportance vs).2 = endsImportant (withoutBlanks vs).reverse := by
  have htrim : (trim vs).reverse = (vs.dropWhile isBlank).reverse.dropWhile isBlank := List.reverse_reverse _
  rw [← withoutBlanks_dropWhile, ← withoutBlanks_reverse, splitImportance]
  split
  · next last before hlast =>
      rw [withoutBlanks_of_dropWhile (htrim.symm.trans hlast)]
      by_cases hword : last.isWord "important" = true
      · rw [if_pos hword]
        split
        · next bang rest hbang =>
            rw [withoutBlanks_of_dropWhile hbang]
            show (if bang.isDelim '!' = true then _ else _ : List ComponentValue × Bool).2 =
              (last.isWord "important" && bang.isDelim '!')
            rw [hword, Bool.true_and]
            cases bang.isDelim '!' <;> rfl
        · next hnil =>
            rw [← withoutBlanks_dropWhile before, hnil]
            rfl
      · rw [if_neg hword]
        cases withoutBlanks before with
        | nil => rfl
        | cons bang rest =>
            show false = (last.isWord "important" && bang.isDelim '!')
            rw [Bool.eq_false_iff.mpr hword, Bool.false_and]
  · next hnil =>
      rw [← withoutBlanks_dropWhile, ← htrim, hnil]
      rfl

theorem endsImportant_map {f : ComponentValue → ComponentValue} (hf : KeepsMarks f) (vs : List ComponentValue) :
    endsImportant (vs.map f) = endsImportant vs := by
  cases vs with
  | nil => rfl
  | cons v vs =>
      cases vs with
      | nil => rfl
      | cons u us => exact congrArg₂ (· && ·) (hf.isWord _ v) (hf.isDelim _ u)

theorem splitImportance_fst (h : (splitImportance vs).2 = false) : (splitImportance vs).1 = trim vs := by
  unfold splitImportance at h ⊢
  split
  · next hlast =>
      rw [hlast] at h
      simp only at h
      split at h
      · next hword =>
          rw [if_pos hword]
          split
          · next bang rest hbang =>
              rw [hbang] at h
              simp only at h
              split at h
              · cases h
              · next hnot => rw [if_neg hnot]
          · rfl
      · next hword => rw [if_neg hword]
  · next hnil => rw [List.reverse_eq_nil_iff.mp hnil]

/-- Without the word at its end a value has no importance. -/
theorem splitImportance_of_no_word (h : ∀ v ∈ vs, v.isWord "important" = false) :
    splitImportance vs = (trim vs, false) := by
  have hnone : (splitImportance vs).2 = false := by
    rw [splitImportance_snd]
    unfold endsImportant
    split
    · next last _ _ hlast =>
        have hmem : last ∈ (withoutBlanks vs).reverse := hlast ▸ List.mem_cons_self
        rw [h last (List.mem_of_mem_filter (List.mem_reverse.mp hmem)), Bool.false_and]
    · rfl
  exact Prod.ext (splitImportance_fst hnone) hnone

/-- The marks of a value say whether it is important, and where its importance begins. -/
theorem splitImportance_map {r : ComponentValue → ComponentValue} (hr : KeepsMarks r) (vs : List ComponentValue) :
    splitImportance (vs.map r) = ((splitImportance vs).1.map r, (splitImportance vs).2) := by
  have hblank : isBlank ∘ r = isBlank := funext hr.isBlank
  unfold splitImportance
  rw [trim_map hr.isBlank, ← List.map_reverse]
  cases (trim vs).reverse with
  | nil => rfl
  | cons last before =>
      simp only [List.map_cons, hr.isWord, List.dropWhile_map, hblank]
      split
      · cases before.dropWhile isBlank with
        | nil => rfl
        | cons bang rest =>
            simp only [List.map_cons, hr.isDelim]
            split
            · rw [← List.map_reverse, trim_map hr.isBlank]
            · rfl
      · rfl

/-- The value without its importance has no values of its own. -/
theorem mem_of_mem_splitImportance {v : ComponentValue} (h : v ∈ (splitImportance vs).1) : v ∈ vs := by
  unfold splitImportance at h
  split at h
  · next last before hlast =>
      have hbefore : before ⊆ (trim vs).reverse := fun u hu => hlast ▸ List.mem_cons_of_mem last hu
      split at h
      · split at h
        · next bang rest hbang =>
            split at h
            · have hrest : rest ⊆ before := fun u hu =>
                (List.dropWhile_sublist _).subset (hbang ▸ List.mem_cons_of_mem bang hu)
              have hmem := List.mem_reverse.mp (mem_of_mem_trim h)
              exact mem_of_mem_trim (List.mem_reverse.mp (hbefore (hrest hmem)))
            · exact mem_of_mem_trim h
        · exact mem_of_mem_trim h
      · exact mem_of_mem_trim h
  · cases h

/-- The value of a declaration is trimmed. -/
theorem trim_splitImportance (vs : List ComponentValue) : trim (splitImportance vs).1 = (splitImportance vs).1 := by
  unfold splitImportance
  split
  · split
    · split
      · split
        · exact trim_trim _
        · exact trim_trim _
      · exact trim_trim _
    · exact trim_trim _
  · rfl

/-- What makes a value important when it is written behind it. -/
def importance : List ComponentValue := [.token .blank, .token (.delim '!'), .token (.ident "important")]

theorem splitImportance_importance (h : trim vs = vs) : splitImportance (vs ++ importance) = (vs, true) := by
  cases vs with
  | nil => rfl
  | cons u us =>
      have hends : trim (u :: us ++ importance) = u :: us ++ importance := by
        refine trim_of_ends (fun v hv => ?_) fun v hv => ?_
        · have hhead : v ∈ (trim (u :: us)).head? := by
            rw [h]
            exact hv
          exact isBlank_of_head?_trim hhead
        · have hlast : (u :: us ++ importance).getLast? = some (.token (.ident "important")) := by
            rw [List.getLast?_append]
            rfl
          rw [hlast] at hv
          cases hv
          rfl
      have hreverse : (u :: us ++ importance).reverse =
          .token (.ident "important") :: .token (.delim '!') :: .token .blank :: (u :: us).reverse := by
        rw [List.reverse_append]
        rfl
      have hrest : trim (.token .blank :: (u :: us).reverse).reverse = u :: us := by
        rw [List.reverse_cons, List.reverse_reverse, trim_concat_of_isBlank rfl, h]
      unfold splitImportance
      rw [hends, hreverse]
      exact Prod.ext hrest rfl

end ComponentValue

end StyleTree
