/-
# `Proofs.Condition.Enclosed` — features, declarations and states as they are written

What stands in parentheses besides a condition is a feature or a
declaration.  It is written with its name in lower case, a colon, a blank
and the tidied value (`declared`), or else as it stands, and is read again
as that.  So the three vocabularies are steady (`steady_media`,
`steady_supports`, `steady_container`).

Whether there is a feature or a declaration depends on the marks of the run
alone, blanks aside (`isSome_feature`, `isSome_ofValues?`).
-/
import StyleTree.Proofs.Condition.Canonical
import StyleTree.Proofs.Declaration.Names

namespace StyleTree.Condition

open ComponentValue

variable {g : Vocabulary} {allowOr : Bool} {n t : String} {d : WrittenDeclaration}
  {v : ComponentValue} {vs ws : List ComponentValue} {f : ComponentValue → ComponentValue}

/-! ## Declarations -/

/-- A name with a colon behind it. -/
def startsDeclaration : List ComponentValue → Bool
  | .token (.ident _) :: .token .colon :: _ => true
  | _ => false

theorem startsDeclaration_iff : startsDeclaration ws = true ↔ ∃ n us, ws = .token (.ident n) :: .token .colon :: us := by
  constructor
  · intro h
    unfold startsDeclaration at h
    split at h
    · exact ⟨_, _, rfl⟩
    · cases h
  · rintro ⟨n, us, rfl⟩
    rfl

theorem startsDeclaration_map (hf : KeepsMarks f) (ws : List ComponentValue) :
    startsDeclaration (ws.map f) = startsDeclaration ws := by
  rw [Bool.eq_iff_iff, startsDeclaration_iff, startsDeclaration_iff]
  constructor
  · rintro ⟨n, us, h⟩
    obtain ⟨v, ws, rfl, hv, hws⟩ := List.map_eq_cons_iff.mp h
    obtain ⟨u, ws, rfl, hu, -⟩ := List.map_eq_cons_iff.mp hws
    exact ⟨n, ws, by rw [(hf v _ rfl).mp hv, (hf u _ rfl).mp hu]⟩
  · rintro ⟨n, us, rfl⟩
    exact ⟨n, us.map f, by rw [List.map_cons, List.map_cons, (hf _ _ rfl).mpr rfl, (hf _ _ rfl).mpr rfl]⟩

/-- A declaration is a name, a colon and the value behind them, with blanks in between. -/
theorem declaration_iff : WrittenDeclaration.ofValues? vs = some d ↔
    ∃ rest value, vs.dropWhile isBlank = .token (.ident d.name) :: rest ∧
      rest.dropWhile isBlank = .token .colon :: value ∧
      WrittenDeclaration.splitImportance value = (d.value, d.important) := by
  unfold WrittenDeclaration.ofValues?
  constructor
  · intro h
    split at h
    · next n rest hname =>
        split at h
        · next value hcolon =>
            cases h
            exact ⟨rest, value, hname, hcolon, rfl⟩
        · cases h
    · cases h
  · rintro ⟨rest, value, hname, hcolon, hvalue⟩
    rw [hname]
    simp only
    rw [hcolon]
    simp only [hvalue]

theorem exists_of_ofValues? (h : WrittenDeclaration.ofValues? vs = some d) :
    ∃ value, withoutBlanks vs = .token (.ident d.name) :: .token .colon :: withoutBlanks value ∧
      WrittenDeclaration.splitImportance value = (d.value, d.important) := by
  obtain ⟨rest, value, hname, hcolon, hvalue⟩ := declaration_iff.mp h
  exact ⟨value, by rw [withoutBlanks_of_dropWhile hname, withoutBlanks_of_dropWhile hcolon], hvalue⟩

theorem isSome_ofValues? (vs : List ComponentValue) :
    (WrittenDeclaration.ofValues? vs).isSome = startsDeclaration (withoutBlanks vs) := by
  rw [Bool.eq_iff_iff, startsDeclaration_iff]
  constructor
  · intro h
    obtain ⟨d, hd⟩ := Option.isSome_iff_exists.mp h
    obtain ⟨value, hvs, -⟩ := exists_of_ofValues? hd
    exact ⟨_, _, hvs⟩
  · rintro ⟨n, us, h⟩
    have hfirst : ∀ {ws : List ComponentValue} {v : ComponentValue} {us : List ComponentValue},
        withoutBlanks ws = v :: us → ∃ rest, ws.dropWhile isBlank = v :: rest ∧ withoutBlanks rest = us := by
      intro ws v us h
      cases hdrop : ws.dropWhile isBlank with
      | nil =>
          rw [← withoutBlanks_dropWhile, hdrop] at h
          cases h
      | cons u rest =>
          rw [withoutBlanks_of_dropWhile hdrop] at h
          obtain ⟨rfl, hrest⟩ := List.cons.inj h
          exact ⟨rest, rfl, hrest⟩
    obtain ⟨rest, hname, hrest⟩ := hfirst h
    obtain ⟨value, hcolon, -⟩ := hfirst hrest
    have hread : WrittenDeclaration.ofValues? vs = some ⟨n, _, _⟩ :=
      declaration_iff.mpr ⟨rest, value, hname, hcolon, rfl⟩
    rw [hread]
    rfl

/-- A declaration as values, with the name that it is written with. -/
def declared (name : String) (d : WrittenDeclaration) : List ComponentValue :=
  .token (.ident name) :: .token .colon :: .token .blank ::
    (tidied d.value ++ if d.important then importance else [])

/-- The value of a declaration is read again as it is written. -/
theorem splitImportance_tidied (h : WrittenDeclaration.ofValues? vs = some d) :
    WrittenDeclaration.splitImportance (tidied d.value ++ if d.important then importance else []) =
      (tidied d.value, d.important) := by
  obtain ⟨value, -, hvalue⟩ := exists_of_ofValues? h
  cases himportant : d.important with
  | true => exact splitImportance_importance (trim_tidied _)
  | false =>
      rw [himportant] at hvalue
      -- tidying does not make a value end like an important one
      have hnot : (WrittenDeclaration.splitImportance (tidied d.value)).2 = false := by
        have hraw : (WrittenDeclaration.splitImportance value).2 = false := by rw [hvalue]
        have htrim : trim value = d.value := by rw [← splitImportance_fst hraw, hvalue]
        rw [splitImportance_snd, withoutBlanks_tidied, ← List.map_reverse, endsImportant_map keepsMarks_tidy, ← htrim,
          withoutBlanks_trim, ← splitImportance_snd, hvalue]
      rw [if_neg Bool.false_ne_true, List.append_nil]
      exact Prod.ext ((splitImportance_fst hnot).trans (trim_tidied _)) hnot

theorem splitImportance_blank (vs : List ComponentValue) :
    WrittenDeclaration.splitImportance (.token .blank :: vs) = WrittenDeclaration.splitImportance vs :=
  splitImportance_congr rfl

theorem ofValues?_declared (h : WrittenDeclaration.ofValues? vs = some d) (name : String) :
    WrittenDeclaration.ofValues? (declared name d) = some ⟨name, tidied d.value, d.important⟩ := by
  have hvalue := splitImportance_tidied h
  show some (WrittenDeclaration.mk name (WrittenDeclaration.splitImportance (.token .blank :: _)).1
    (WrittenDeclaration.splitImportance (.token .blank :: _)).2) = _
  rw [splitImportance_blank, hvalue]

/-- Unless it ends in its colon, a declaration has no blanks at its ends. -/
theorem trim_declared (h : tidied d.value ≠ [] ∨ d.important = true) (name : String) :
    trim (declared name d) = declared name d := by
  refine trim_of_ends (by rintro v ⟨⟩; rfl) fun v hv => Bool.eq_false_iff.mpr fun hblank => ?_
  rw [isBlank_iff.mp hblank] at hv
  have hlast : ∀ us : List ComponentValue, us ≠ [] → us.getLast? ≠ some (.token .blank) →
      ((.token (.ident name) :: .token .colon :: .token .blank :: us : List ComponentValue)).getLast? ≠
        some (.token .blank) := by
    intro us hne hus
    rw [List.getLast?_eq_some_getLast hne] at hus
    rw [List.getLast?_eq_some_getLast (List.cons_ne_nil _ _), List.getLast_cons (List.cons_ne_nil _ _),
      List.getLast_cons (List.cons_ne_nil _ _), List.getLast_cons hne]
    exact hus
  unfold declared at hv
  cases himportant : d.important with
  | true =>
      rw [himportant, if_pos rfl] at hv
      refine hlast _ (by simp [importance]) ?_ hv
      simp [importance]
  | false =>
      rw [himportant, if_neg Bool.false_ne_true, List.append_nil] at hv
      have hne : tidied d.value ≠ [] := h.resolve_right (by rw [himportant]; exact Bool.false_ne_true)
      exact hlast _ hne (getLast?_layOut _ _) hv

theorem tidied_ne_nil (h : WrittenDeclaration.ofValues? vs = some d) (hne : d.value ≠ []) : tidied d.value ≠ [] := by
  obtain ⟨value, -, hvalue⟩ := exists_of_ofValues? h
  have htrim := trim_splitImportance value
  rw [hvalue] at htrim
  intro hnil
  have hblanks := withoutBlanks_tidied d.value
  rw [hnil] at hblanks
  exact hne (eq_nil_of_withoutBlanks htrim (List.map_eq_nil_iff.mp hblanks.symm))

/-- It makes no difference for reading a declaration if it ends in its colon. -/
theorem ofValues?_trim_declared (h : WrittenDeclaration.ofValues? vs = some d) (name : String) :
    WrittenDeclaration.ofValues? (trim (declared name d)) = some ⟨name, tidied d.value, d.important⟩ := by
  by_cases hends : tidied d.value ≠ [] ∨ d.important = true
  · rw [trim_declared hends, ofValues?_declared h]
  · rw [not_or, not_not, Bool.not_eq_true] at hends
    obtain ⟨hnil, himportant⟩ := hends
    rw [declared, hnil, himportant]
    rfl

/-- A declaration is no condition. -/
theorem ofValues?_of_declared (name : String) (d : WrittenDeclaration) :
    ofValues? g allowOr (declared name d) = none := by
  have hcolon : (.token .colon : ComponentValue) ∈ withoutBlanks (declared name d) :=
    List.mem_cons_of_mem _ List.mem_cons_self
  exact ofValues?_of_mem hcolon rfl rfl

/-! ## Conditions on support -/

/-- A declaration in parentheses, as it is written. -/
def declarationValues (vs : List ComponentValue) : List ComponentValue :=
  match WrittenDeclaration.ofValues? (trim vs) with
  | some d => declared (declaredName d.name) d
  | none => []

theorem declaredName_declaredName (n : String) : declaredName (declaredName n) = declaredName n := by
  have hdashes : Text.beginsWith "--" (Text.foldCase n) = Text.beginsWith "--" n := isCustomProperty_foldCase n
  unfold declaredName
  by_cases h : Text.beginsWith "--" n = true
  · rw [if_pos h, if_pos h]
  · rw [if_neg h, hdashes, if_neg h, Text.foldCase_foldCase]

theorem declaration_declarationValues (h : (declaration vs).isSome = true) :
    declaration (declarationValues vs) = declaration vs := by
  unfold declaration declarationValues at *
  cases hd : WrittenDeclaration.ofValues? (trim vs) with
  | none =>
      rw [hd] at h
      cases h
  | some d =>
      simp only [ofValues?_trim_declared hd, Option.map_some, declaredName_declaredName, textOf_tidied]

theorem isSome_declaration (vs : List ComponentValue) :
    (declaration vs).isSome = startsDeclaration (withoutBlanks vs) := by
  rw [declaration, Option.isSome_map, isSome_ofValues?, withoutBlanks_trim]

theorem isSome_enclosed_supports (vs : List ComponentValue) :
    (supports.enclosed vs).isSome = startsDeclaration (withoutBlanks vs) := by
  rw [← isSome_declaration]
  exact Option.isSome_map

theorem steady_supports : Steady supports declarationValues where
  enclosed {vs t} h := by
    have hsome : (declaration vs).isSome = true := by
      rw [isSome_declaration, ← isSome_enclosed_supports, h]
      rfl
    exact (congrArg (Option.map _) (declaration_declarationValues hsome)).trans h
  condition {vs} h _ := by
    rw [isSome_enclosed_supports, ← isSome_declaration, declaration, Option.isSome_map] at h
    obtain ⟨d, hd⟩ := Option.isSome_iff_exists.mp h
    rw [declarationValues, hd]
    exact ofValues?_of_declared _ d
  inside {vs} h := by
    refine Option.not_isSome_iff_eq_none.mp ?_
    rw [isSome_enclosed_supports, withoutBlanks_tidiedInside, startsDeclaration_map keepsMarks_tidyInside,
      ← isSome_enclosed_supports, h]
    exact Bool.false_ne_true
  function h := by cases h
  noFunction h := h

/-! ## Features -/

theorem isComparison_iff : isComparison v = true ↔ ∃ c, (c = '<' ∨ c = '>' ∨ c = '=') ∧ v = .token (.delim c) := by
  constructor
  · intro h
    unfold isComparison at h
    split at h
    · next c =>
        simp only [Bool.or_eq_true, beq_iff_eq, or_assoc] at h
        exact ⟨c, h, rfl⟩
    · cases h
  · rintro ⟨c, rfl | rfl | rfl, rfl⟩ <;> rfl

theorem isComparison_of_keepsMarks (hf : KeepsMarks f) (v : ComponentValue) : isComparison (f v) = isComparison v := by
  rw [Bool.eq_iff_iff, isComparison_iff, isComparison_iff]
  exact exists_congr fun c => and_congr_right fun _ => hf v (.delim c) rfl

/-- A comparison with a name in it. -/
def isRange (ws : List ComponentValue) : Bool := ws.any isComparison && ws.any (·.ident?.isSome)

/-- Whether parentheses hold a feature: by the values in them, without blanks. -/
def isFeature (ws : List ComponentValue) : Bool :=
  match ws with
  | [.token (.ident _)] => true
  | ws =>
    if startsDeclaration ws then !endsImportant (ws.drop 2).reverse && !(ws.drop 2).isEmpty
    else isRange ws

theorem any_withoutBlanks {r : ComponentValue → Bool} (hr : r (.token .blank) = false) (vs : List ComponentValue) :
    (withoutBlanks vs).any r = vs.any r := by
  induction vs with
  | nil => rfl
  | cons v vs ih =>
      rw [withoutBlanks, List.filter_cons]
      cases hv : v.isBlank with
      | false => exact congrArg (r v || ·) ih
      | true =>
          rw [isBlank_iff.mp hv, List.any_cons, hr, Bool.false_or]
          exact ih

theorem isRange_withoutBlanks (vs : List ComponentValue) : isRange (withoutBlanks vs) = isRange vs := by
  rw [isRange, isRange, any_withoutBlanks rfl, any_withoutBlanks rfl]

theorem isRange_map (hf : KeepsMarks f) (ws : List ComponentValue) : isRange (ws.map f) = isRange ws := by
  have hcomparison : isComparison ∘ f = isComparison := funext (isComparison_of_keepsMarks hf)
  have hident : (fun v : ComponentValue => v.ident?.isSome) ∘ f = fun v => v.ident?.isSome :=
    funext fun v => congrArg Option.isSome (hf.ident? v)
  rw [isRange, isRange, List.any_map, List.any_map, hcomparison, hident]

theorem isFeature_of_ne (h : ∀ n, ws ≠ [.token (.ident n)]) : isFeature ws =
    if startsDeclaration ws then !endsImportant (ws.drop 2).reverse && !(ws.drop 2).isEmpty else isRange ws := by
  unfold isFeature
  split
  · exact absurd rfl (h _)
  · rfl

theorem isFeature_map (hf : KeepsMarks f) (ws : List ComponentValue) : isFeature (ws.map f) = isFeature ws := by
  by_cases hone : ∃ n, ws = [.token (.ident n)]
  · obtain ⟨n, rfl⟩ := hone
    rw [List.map_singleton, (hf _ _ rfl).mpr rfl]
  · have hone' : ∀ n, ws.map f ≠ [.token (.ident n)] := by
      intro n h
      obtain ⟨v, rfl, hv⟩ := List.map_eq_singleton_iff.mp h
      exact hone ⟨n, by rw [(hf v _ rfl).mp hv]⟩
    rw [isFeature_of_ne hone', isFeature_of_ne (not_exists.mp hone), startsDeclaration_map hf, isRange_map hf,
      ← List.map_drop, ← List.map_reverse, endsImportant_map hf, List.isEmpty_map]

theorem isSome_featureValue {value : List ComponentValue}
    (h : WrittenDeclaration.splitImportance value = (d.value, d.important)) :
    (featureValue d).isSome = (!endsImportant (withoutBlanks value).reverse && !(withoutBlanks value).isEmpty) := by
  rw [← splitImportance_snd, h, featureValue]
  cases himportant : d.important with
  | true => rfl
  | false =>
      have hvalue : d.value = trim value := by
        rw [← splitImportance_fst (by rw [h, himportant]), h]
      have hempty : d.value.isEmpty = (withoutBlanks value).isEmpty := by
        rw [hvalue, ← withoutBlanks_trim, Bool.eq_iff_iff, List.isEmpty_iff, List.isEmpty_iff]
        exact ⟨fun hnil => by rw [hnil]; rfl, eq_nil_of_withoutBlanks (trim_trim value)⟩
      rw [hempty]
      cases (withoutBlanks value).isEmpty <;> rfl

theorem isSome_feature (vs : List ComponentValue) : (feature vs).isSome = isFeature (withoutBlanks vs) := by
  rw [← withoutBlanks_trim]
  unfold feature
  split
  · next hnil =>
      rw [hnil]
      rfl
  · next n hone =>
      rw [hone]
      rfl
  · next hone =>
      have hne : ∀ n, withoutBlanks (trim vs) ≠ [.token (.ident n)] := fun n h =>
        hone n (eq_singleton_of_withoutBlanks (trim_trim vs) h)
      rw [isFeature_of_ne hne, ← isSome_ofValues?]
      cases hd : WrittenDeclaration.ofValues? (trim vs) with
      | some d =>
          obtain ⟨value, hvs, hvalue⟩ := exists_of_ofValues? hd
          rw [hvs]
          exact isSome_featureValue hvalue
      | none =>
          rw [Option.isSome_none, if_neg Bool.false_ne_true, isRange_withoutBlanks]
          show (if isRange (trim vs) = true then _ else _ : Option String).isSome = _
          cases isRange (trim vs) <;> rfl

/-- What parentheses with a feature hold, as it is written. -/
def featureValues (vs : List ComponentValue) : List ComponentValue :=
  match trim vs with
  | [.token (.ident n)] => [.token (.ident (Text.foldCase n))]
  | us =>
    match WrittenDeclaration.ofValues? us with
    | some d => declared (Text.foldCase d.name) d
    | none => tidied us

theorem feature_of_some (h : WrittenDeclaration.ofValues? (trim vs) = some d) : feature vs = featureValue d := by
  unfold feature
  split
  · next hnil =>
      rw [hnil] at h
      cases h
  · next hone =>
      rw [hone] at h
      cases h
  · rw [h]

theorem feature_of_isRange (h : WrittenDeclaration.ofValues? (trim vs) = none) (hrange : isRange (trim vs) = true) :
    feature vs = some ("(" ++ textOf (trim vs) ++ ")") := by
  unfold feature
  split
  · next hnil =>
      rw [hnil] at hrange
      cases hrange
  · next hone =>
      rw [hone] at hrange
      cases hrange
  · rw [h]
    exact if_pos hrange

theorem featureValue_declared (hsome : (featureValue d).isSome = true) (hne : tidied d.value ≠ []) :
    featureValue ⟨Text.foldCase d.name, tidied d.value, d.important⟩ = featureValue d := by
  unfold featureValue at *
  split at hsome
  · cases hsome
  · next hkept =>
      rw [Bool.or_eq_true, not_or] at hkept
      rw [if_neg, if_neg, Text.foldCase_foldCase, textOf_tidied]
      · rw [Bool.or_eq_true, not_or]
        exact hkept
      · rw [Bool.or_eq_true, not_or, List.isEmpty_iff]
        exact ⟨hkept.1, hne⟩

theorem isRange_tidied (vs : List ComponentValue) : isRange (tidied vs) = isRange vs := by
  rw [← isRange_withoutBlanks, withoutBlanks_tidied, isRange_map keepsMarks_tidy, isRange_withoutBlanks]

theorem isSome_ofValues?_tidied (vs : List ComponentValue) :
    (WrittenDeclaration.ofValues? (tidied vs)).isSome = (WrittenDeclaration.ofValues? vs).isSome := by
  rw [isSome_ofValues?, isSome_ofValues?, withoutBlanks_tidied, startsDeclaration_map keepsMarks_tidy]

/-- A feature that is neither a name alone nor one with a value is a comparison. -/
theorem isRange_of_feature (h : (feature vs).isSome = true) (hone : ∀ n, trim vs ≠ [.token (.ident n)])
    (hnone : WrittenDeclaration.ofValues? (trim vs) = none) : isRange (trim vs) = true := by
  rw [isSome_feature, ← withoutBlanks_trim, isFeature_of_ne, ← isSome_ofValues?, hnone, Option.isSome_none,
    if_neg Bool.false_ne_true, isRange_withoutBlanks] at h
  · exact h
  · exact fun n hws => hone n (eq_singleton_of_withoutBlanks (trim_trim vs) hws)

/-- A feature reads as it is written. -/
theorem feature_featureValues (h : (feature vs).isSome = true) : feature (featureValues vs) = feature vs := by
  unfold featureValues
  split
  · next n hone =>
      show some ("(" ++ Text.foldCase (Text.foldCase n) ++ ")") = _
      rw [Text.foldCase_foldCase, feature, hone]
  · next hone =>
      cases hd : WrittenDeclaration.ofValues? (trim vs) with
      | some d =>
          rw [feature_of_some hd] at h ⊢
          have hvalue : d.value ≠ [] := by
            intro hnil
            rw [featureValue, hnil, List.isEmpty_nil, Bool.or_true, if_pos rfl] at h
            cases h
          have hne := tidied_ne_nil hd hvalue
          show feature (declared _ d) = _
          rw [feature_of_some ((congrArg _ (trim_declared (.inl hne) _)).trans (ofValues?_declared hd _)),
            featureValue_declared h hne]
      | none =>
          have hrange := isRange_of_feature h (fun n hn => hone n hn) hd
          have hd' : WrittenDeclaration.ofValues? (tidied (trim vs)) = none := by
            refine Option.not_isSome_iff_eq_none.mp ?_
            rw [isSome_ofValues?_tidied, hd]
            exact Bool.false_ne_true
          have htrim : trim (tidied (trim vs)) = tidied (trim vs) := trim_tidied _
          show feature (tidied (trim vs)) = _
          rw [feature_of_isRange (by rw [htrim, hd']) (by rw [htrim, isRange_tidied, hrange]), htrim, textOf_tidied,
            feature_of_isRange hd hrange]

/-- A comparison is no condition. -/
theorem ofValues?_of_isRange (h : isRange vs = true) : ofValues? g allowOr vs = none := by
  rw [← isRange_withoutBlanks, isRange, Bool.and_eq_true] at h
  obtain ⟨v, hv, hcomparison⟩ := List.any_eq_true.mp h.1
  obtain ⟨c, -, rfl⟩ := isComparison_iff.mp hcomparison
  exact ofValues?_of_mem hv rfl rfl

/-- A name is no condition. -/
theorem ofValues?_ident (n : String) : ofValues? g allowOr [.token (.ident n)] = none := by
  show (if Text.sameWord n "not" = true then none else none) = none
  exact ite_self none

/-- A feature is no condition. -/
theorem ofValues?_featureValues (h : (feature vs).isSome = true) : ofValues? g allowOr (featureValues vs) = none := by
  unfold featureValues
  split
  · exact ofValues?_ident _
  · next hone =>
      cases hd : WrittenDeclaration.ofValues? (trim vs) with
      | some d => exact ofValues?_of_declared _ d
      | none =>
          have hrange := isRange_of_feature h (fun n hn => hone n hn) hd
          rw [← isRange_tidied] at hrange
          exact ofValues?_of_isRange hrange

/-- What was no feature as it stood is none with tidied blocks. -/
theorem feature_tidiedInside (h : feature vs = none) : feature (tidiedInside vs) = none := by
  refine Option.not_isSome_iff_eq_none.mp ?_
  rw [isSome_feature, withoutBlanks_tidiedInside, isFeature_map keepsMarks_tidyInside, ← isSome_feature, h]
  exact Bool.false_ne_true

theorem steady_media : Steady media featureValues where
  enclosed {vs t} h := by
    have hsome : (feature vs).isSome = true := Option.isSome_iff_exists.mpr ⟨t, h⟩
    exact (feature_featureValues hsome).trans h
  condition h _ := ofValues?_featureValues h
  inside h := feature_tidiedInside h
  function h := by cases h
  noFunction h := h

/-! ## Conditions on containers -/

theorem all_isBlank_tidied (vs : List ComponentValue) : (tidied vs).all isBlank = vs.all isBlank := by
  rw [all_isBlank, all_isBlank, withoutBlanks_tidied, List.isEmpty_map]

theorem sameWord_foldCase (n word : String) : Text.sameWord (Text.foldCase n) word = Text.sameWord n word := by
  rw [Bool.eq_iff_iff, Text.sameWord_iff, Text.sameWord_iff, Text.foldCase_foldCase]

theorem stateFunction_foldCase (n : String) (vs : List ComponentValue) :
    stateFunction (Text.foldCase n) (tidied vs) = stateFunction n vs := by
  rw [stateFunction, stateFunction, sameWord_foldCase, sameWord_foldCase, all_isBlank_tidied, Text.foldCase_foldCase,
    textOf_tidied]

theorem stateFunction_tidied (h : stateFunction n vs = none) : stateFunction n (tidied vs) = none := by
  unfold stateFunction at *
  rw [all_isBlank_tidied]
  split at h
  · cases h
  · next hnot => exact if_neg hnot

theorem function_container : container.function = stateFunction := rfl

theorem steady_container : Steady container featureValues where
  enclosed {vs t} h := by
    have hsome : (feature vs).isSome = true := Option.isSome_iff_exists.mpr ⟨t, h⟩
    exact (feature_featureValues hsome).trans h
  condition h _ := ofValues?_featureValues h
  inside h := feature_tidiedInside h
  function {n vs t} h := by
    rw [function_container] at h ⊢
    rw [stateFunction_foldCase, h]
  noFunction h := stateFunction_tidied h

end StyleTree.Condition
