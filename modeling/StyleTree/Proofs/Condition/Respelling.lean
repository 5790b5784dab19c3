/-
# `Proofs.Condition.Respelling` — numbers that are written alike

Two numbers may differ and still be written alike, for a text shows six
digits of a number.  A condition is kept as text, so it does not depend on
which of them is read: with other tokens that have the text of the former
(`Token.Respells`), a condition, a feature and a declaration have theirs
(`term_respell`).
-/
import StyleTree.Proofs.ComponentValue.Respelling
import StyleTree.Proofs.Condition.Enclosed

namespace StyleTree

open ComponentValue

namespace Condition

variable {g : Vocabulary} {f : Token → Token} {allowOr : Bool} {vs ws : List ComponentValue} {d : WrittenDeclaration}

/-! ## What parentheses hold -/

theorem ofValues?_respell_some (hf : Token.Respells f) (h : WrittenDeclaration.ofValues? vs = some d) :
    WrittenDeclaration.ofValues? (vs.map (respell f)) = some ⟨d.name, d.value.map (respell f), d.important⟩ := by
  have hmarks := keepsMarks_respell hf
  have hblank : isBlank ∘ respell f = isBlank := funext hmarks.isBlank
  obtain ⟨rest, value, hname, hcolon, hvalue⟩ := declaration_iff.mp h
  refine declaration_iff.mpr ⟨rest.map (respell f), value.map (respell f), ?_, ?_, ?_⟩
  · rw [List.dropWhile_map, hblank, hname, List.map_cons, (hmarks _ _ rfl).mpr rfl]
  · rw [List.dropWhile_map, hblank, hcolon, List.map_cons, (hmarks _ _ rfl).mpr rfl]
  · rw [splitImportance_map hmarks, hvalue]

theorem withoutBlanks_respell (hf : Token.Respells f) (vs : List ComponentValue) :
    withoutBlanks (vs.map (respell f)) = (withoutBlanks vs).map (respell f) :=
  withoutBlanks_map (keepsMarks_respell hf).isBlank vs

theorem ofValues?_respell_none (hf : Token.Respells f) (h : WrittenDeclaration.ofValues? vs = none) :
    WrittenDeclaration.ofValues? (vs.map (respell f)) = none := by
  refine Option.not_isSome_iff_eq_none.mp ?_
  rw [isSome_ofValues?, withoutBlanks_respell hf, startsDeclaration_map (keepsMarks_respell hf), ← isSome_ofValues?, h]
  exact Bool.false_ne_true

theorem declaration_respell (hf : Token.Respells f) (vs : List ComponentValue) :
    declaration (vs.map (respell f)) = declaration vs := by
  unfold declaration
  rw [trim_map (keepsMarks_respell hf).isBlank]
  cases hd : WrittenDeclaration.ofValues? (trim vs) with
  | none => rw [ofValues?_respell_none hf hd]
  | some d =>
      rw [ofValues?_respell_some hf hd]
      simp only [Option.map_some, textOf_respell hf]

theorem feature_respell (hf : Token.Respells f) (vs : List ComponentValue) :
    feature (vs.map (respell f)) = feature vs := by
  have hmarks := keepsMarks_respell hf
  have htrim : trim (vs.map (respell f)) = (trim vs).map (respell f) := trim_map hmarks.isBlank vs
  have hsome : (feature (vs.map (respell f))).isSome = (feature vs).isSome := by
    rw [isSome_feature, isSome_feature, withoutBlanks_respell hf, isFeature_map hmarks]
  cases hvs : feature vs with
  | none =>
      rw [hvs] at hsome
      exact Option.not_isSome_iff_eq_none.mp (Bool.eq_false_iff.mp hsome)
  | some t =>
      by_cases hone : ∃ n, trim vs = [.token (.ident n)]
      · obtain ⟨n, hn⟩ := hone
        rw [← hvs, feature, feature, htrim, hn, List.map_singleton, (hmarks _ _ rfl).mpr rfl]
      rw [← hvs]
      cases hd : WrittenDeclaration.ofValues? (trim vs) with
      | some d =>
          rw [feature_of_some hd, feature_of_some (htrim ▸ ofValues?_respell_some hf hd), featureValue, featureValue,
            textOf_respell hf, List.isEmpty_map]
      | none =>
          have hrange := isRange_of_feature (Option.isSome_iff_exists.mpr ⟨t, hvs⟩) (not_exists.mp hone) hd
          have hrange' : isRange (trim (vs.map (respell f))) = true := by rw [htrim, isRange_map hmarks, hrange]
          rw [feature_of_isRange hd hrange, feature_of_isRange (htrim ▸ ofValues?_respell_none hf hd) hrange', htrim,
            textOf_respell hf]

theorem stateFunction_respell (hf : Token.Respells f) (n : String) (vs : List ComponentValue) :
    stateFunction n (vs.map (respell f)) = stateFunction n vs := by
  rw [stateFunction, stateFunction, all_isBlank, withoutBlanks_respell hf, List.isEmpty_map, ← all_isBlank,
    textOf_respell hf]

/-! ## Conditions -/

/-- What the vocabulary reads in parentheses and functions does not depend on how numbers are read. -/
structure Vocabulary.IgnoresSpelling (g : Vocabulary) (f : Token → Token) : Prop where
  enclosed : ∀ vs, g.enclosed (vs.map (respell f)) = g.enclosed vs
  function : ∀ n vs, g.function n (vs.map (respell f)) = g.function n vs

theorem media_ignoresSpelling (hf : Token.Respells f) : media.IgnoresSpelling f :=
  ⟨feature_respell hf, fun _ _ => rfl⟩

theorem supports_ignoresSpelling (hf : Token.Respells f) : supports.IgnoresSpelling f :=
  ⟨fun vs => congrArg (Option.map _) (declaration_respell hf vs), fun _ _ => rfl⟩

theorem container_ignoresSpelling (hf : Token.Respells f) : container.IgnoresSpelling f :=
  ⟨feature_respell hf, stateFunction_respell hf⟩

theorem matches_respell (hf : Token.Respells f) {v : ComponentValue} (h : term g (respell f v) = term g v) :
    (operandOf g (respell f v)).Matches (operandOf g v) :=
  ⟨h, congrArg (Option.map Text.foldCase) ((keepsMarks_respell hf).ident? v)⟩

theorem ofValues?_respell_of_term (hf : Token.Respells f)
    (hterm : ∀ v ∈ withoutBlanks vs, term g (respell f v) = term g v) :
    ofValues? g allowOr (vs.map (respell f)) = ofValues? g allowOr vs :=
  ofValues?_congr (withoutBlanks_respell hf vs) fun v hv => matches_respell hf (hterm v hv)

mutual

/-- A term has its text, whichever of the numbers that are written alike is read. -/
theorem term_respell (hf : Token.Respells f) (hg : g.IgnoresSpelling f) :
    ∀ v : ComponentValue, term g (respell f v) = term g v
  | .token t => rfl
  | .block o vs => by
      have hvs := term_respellEach hf hg vs
      rw [respell, respellEach_eq_map]
      cases o with
      | function n => rw [term, term, hg.function, asWritten, asWritten, text_block, text_block, textOf_respell hf]
      | bracket b =>
          cases b with
          | round =>
              have hrun : ofValues? g true (vs.map (respell f)) = ofValues? g true vs :=
                ofValues?_respell_of_term hf fun v hv => hvs v (List.mem_of_mem_filter hv)
              rw [term_round, term_round, hrun, hg.enclosed, textOf_respell hf]
          | square => rfl
          | curly => rfl

theorem term_respellEach (hf : Token.Respells f) (hg : g.IgnoresSpelling f) :
    ∀ vs : List ComponentValue, ∀ v ∈ vs, term g (respell f v) = term g v
  | [] => fun _ hv => absurd hv List.not_mem_nil
  | v :: vs => fun u hu => by
      rcases List.mem_cons.mp hu with hu | hu
      · exact hu ▸ term_respell hf hg v
      · exact term_respellEach hf hg vs u hu

end

theorem ofValues?_respell (hf : Token.Respells f) (hg : g.IgnoresSpelling f) (vs : List ComponentValue) :
    ofValues? g allowOr (vs.map (respell f)) = ofValues? g allowOr vs :=
  ofValues?_respell_of_term hf fun v _ => term_respell hf hg v

end Condition

end StyleTree
