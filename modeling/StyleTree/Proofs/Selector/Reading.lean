/-
# `Proofs.Selector.Reading` — steps of reading a selector from its values

What the reader does with the values of each kind of part: a type, an
attribute, a pseudo-class with its argument, a segment between combinators.
All of it is read back but one pair of integers: an offset of -2147483648
behind a step (`countable`).  A pseudo-class that counts with it is a syntax
error.
-/
import StyleTree.Proofs.Selector.Scanning

namespace StyleTree.Selector

open ComponentValue

/-! ## Types and attributes -/

variable {ns : Namespaces} {mode : SelectorMode} {p q r : Piece} {ps : List Piece}

theorem Untyped.unqualified (h : Untyped ps) : Unqualified ps := by
  match ps with
  | [] => trivial
  | [q] => trivial
  | q :: r :: ps =>
      show (q.isBar && r.isTypeName) = false
      rw [(h q rfl).2, Bool.false_and]

theorem typeSelector_values {t : TypeSelector} (h : t.WellFormed ns) (hps : Untyped ps) :
    typeSelector ns (t.values.map (piece ns) ++ ps) = .ok (some t, ps) := by
  obtain ⟨k, n⟩ := t
  have hname : (piece ns (.token (TypeSelector.nameToken ⟨k, n⟩))).isTypeName = true := by cases n <;> rfl
  have hread : ∀ j : Option Qualifier,
      (.ok (some ⟨j, (piece ns (.token (TypeSelector.nameToken ⟨k, n⟩))).ident?⟩, ps) :
        Except Failure (Option TypeSelector × List Piece)) = .ok (some ⟨j, n⟩, ps) := by
    intro j
    cases n <;> rfl
  have hbar : (piece ns (.token (.delim '|'))).isBar = true := rfl
  match k with
  | none => exact (typeSelector_eq_ok.mpr (.name hname hps.unqualified)).trans (hread _)
  | some .none => exact (typeSelector_eq_ok.mpr (.bar hbar hname)).trans (hread _)
  | some .any =>
      have hany : qualifier ns (piece ns (.token (.delim '*'))) = .ok .any := rfl
      exact (typeSelector_eq_ok.mpr (.qualified rfl hbar hname hany)).trans (hread _)
  | some (.named m) =>
      have hdeclared : qualifier ns (piece ns (.token (.ident m))) = .ok (.named m) := if_pos h.qualifier.1
      exact (typeSelector_eq_ok.mpr (.qualified rfl hbar hname hdeclared)).trans (hread _)

theorem attributeTest_values {a : AttributeSelector} (h : a.WellFormed ns) :
    attributeTest (withoutBlanks a.testValues) = some (a.test, a.flag) := by
  obtain ⟨k, n, test, flag⟩ := a
  cases test with
  | none =>
      cases flag with
      | none => rfl
      | some c => exact absurd (h.flagged rfl) Bool.false_ne_true
  | some t =>
      obtain ⟨m, v⟩ := t
      cases flag with
      | none => cases m <;> rfl
      | some c => rcases h.flag c rfl with rfl | rfl <;> cases m <;> rfl

theorem attributeName_values {a : AttributeSelector} (h : a.WellFormed ns) :
    attributeName ns (a.values.dropWhile isBlank) = .ok (a.qualifier, a.name, a.testValues) := by
  obtain ⟨k, n, test, flag⟩ := a
  cases k with
  | some k =>
      cases k with
      | any => rfl
      | none => rfl
      | named m =>
          have hdeclared : declared ns m = .ok (.named m) := if_pos h.qualifier.1
          simp only [AttributeSelector.values, Qualifier.values, List.cons_append, List.dropWhile, isBlank,
            attributeName, hdeclared]
          rfl
  | none =>
      cases test with
      | none =>
          cases flag with
          | none => rfl
          | some c => exact absurd (h.flagged rfl) Bool.false_ne_true
      | some t =>
          obtain ⟨m, v⟩ := t
          cases m <;> rfl

theorem attributeSelector_values {a : AttributeSelector} (h : a.WellFormed ns) :
    attributeSelector ns a.values = .ok a := by
  simp only [attributeSelector, attributeName_values h, Except.bind, bind, attributeTest_values h]
  rfl


/-! ## Functions -/

/-- The pair is read back from its tokens. -/
def countable (k : Nth) : Bool := k.step = 0 || k.offset ≠ -2147483648

/-- No pair that is counted is lost. -/
def Pseudo.isCountable : Pseudo → Bool
  | .ofClass (.counting _ k) => countable k
  | .ofClass (.countingOf _ k _) => countable k
  | _ => true

theorem read_countable {k : Nth} {vs : List ComponentValue} (hk : k.InRange) (hvs : Nth.readOffset vs = (0, vs)) :
    Nth.read (k.tokens.map .token ++ vs) = if countable k = true then some (k, vs) else none := by
  rw [Nth.read_tokens hk hvs, countable]
  by_cases hstep : k.step = 0 <;> by_cases hoffset : k.offset = -2147483648 <;> simp [hstep, hoffset]

theorem foldCase_function {n : String} (h : n ∈ functions) : Text.foldCase n = n := by
  have hall : ∀ m ∈ functions, Text.foldCase m = m := by decide +kernel
  exact hall n h

theorem singleColon_plain {n : String} (h : (PseudoClass.plain n).WellFormed ns) :
    singleColon (piece ns (.token (.ident n))) = some (.ofClass (.plain n)) := by
  show singleColonName (Text.foldCase n) = _
  rw [h.2, h.1]

theorem singleColon_function {n : String} (h : n ∈ functions) (vs : List ComponentValue) :
    singleColon (piece ns (.block (.function n) vs)) =
      (functionalClass ns n vs (pieces ns vs)).map .ofClass := by
  show (functionalClass ns (Text.foldCase n) vs (pieces ns vs)).map _ = _
  rw [foldCase_function h]

theorem functionalClass_matching {n : String} (h : listMode? n = some mode) (vs : List ComponentValue) :
    functionalClass ns n vs (pieces ns vs) = (listOfValues ns mode vs).map (.matching n) := by
  unfold listMode? at h
  unfold functionalClass listOfValues
  split at h
  · next hn =>
      cases h
      rw [if_pos hn]
  split at h
  · next hn hhas =>
      cases h
      rw [if_neg hn, if_pos hhas]
  · cases h

theorem functionalClass_counting {n : String} (h : n ∈ Names.filteringClasses ∨ n ∈ Names.countingClasses)
    (vs : List ComponentValue) (ps : List Piece) :
    functionalClass ns n vs ps = countingClass ns n vs ps := by
  have hall : ∀ m ∈ Names.filteringClasses ++ Names.countingClasses, m ∉ Names.matchingClasses ∧ m ≠ "has" := by
    decide +kernel
  obtain ⟨hmatching, hhas⟩ := hall n (List.mem_append.mpr h)
  unfold functionalClass
  rw [if_neg hmatching, if_neg hhas, if_pos (by simpa using h)]

theorem countingClass_pair {n : String} {k : Nth} (hk : k.InRange) :
    countingClass ns n (k.tokens.map .token) ps =
      if countable k = true then some (.counting n k) else none := by
  have hread := @read_countable k [] hk rfl
  rw [List.append_nil] at hread
  unfold countingClass
  rw [hread]
  cases countable k <;> rfl

theorem countingClass_pairOf {n : String} {k : Nth} (hn : n ∈ Names.filteringClasses) (hk : k.InRange)
    {list vs : List ComponentValue}
    (hvs : vs = k.tokens.map .token ++ .token .blank :: .token (.ident "of") :: list) :
    countingClass ns n vs (pieces ns vs) =
      if countable k = true then (listOfValues ns .absolute list).map (.countingOf n k) else none := by
  have hread := @read_countable k (.token .blank :: .token (.ident "of") :: list) hk rfl
  rw [← hvs] at hread
  cases hcount : countable k with
  | false =>
      rw [hcount] at hread
      unfold countingClass
      rw [hread]
      rfl
  | true =>
      rw [hcount] at hread
      exact countingClass_of_read hn hread rfl rfl

/-! ## Compounds -/

theorem untyped_values (ss : List Simple) (es : List PseudoElement) :
    Untyped ((Simple.valuesOf ss ++ PseudoElement.valuesOf es).map (piece ns)) := by
  cases ss with
  | cons s ss => cases s <;> rintro _ ⟨⟩ <;> exact ⟨rfl, rfl⟩
  | nil =>
      cases es with
      | nil => rintro _ ⟨⟩
      | cons e es =>
          obtain ⟨n, argument, classes⟩ := e
          rintro _ ⟨⟩
          exact ⟨rfl, rfl⟩

theorem addClass_append (es : List PseudoElement) (n : String) (a : Option (List ComponentValue))
    (rs : List PseudoClass) (p : PseudoClass) :
    Compound.addClass p (es ++ [.mk n a rs]) = es ++ [.mk n a (rs ++ [p])] := by
  induction es with
  | nil => rfl
  | cons e es ih =>
      rw [List.cons_append, Compound.addClass, ih, List.cons_append]
      rintro _ _ _ rfl hnil
      exact absurd hnil (by simp)

theorem withClass_append {t : Option TypeSelector} {ss : List Simple} (es : List PseudoElement) (n : String)
    (a : Option (List ComponentValue)) (rs : List PseudoClass) (p : PseudoClass) :
    Compound.withClass (.mk t ss (es ++ [.mk n a rs])) p = .mk t ss (es ++ [.mk n a (rs ++ [p])]) := by
  have hne : (es ++ [PseudoElement.mk n a rs]).isEmpty = false := by simp
  exact (if_neg (Bool.eq_false_iff.mp hne)).trans (congrArg (Compound.mk t ss) (addClass_append es n a rs p))

/-- A pseudo-class behind a colon is read back if what stands there is. -/
theorem grow_pseudo {c : Compound} {p : PseudoClass} {b : Bool}
    (h : singleColon (piece ns p.value) = if b = true then some (.ofClass p) else none) :
    grow ns c (piece ns (.token .colon) :: piece ns p.value :: ps) =
      if b = true then grow ns (c.withClass p) ps else .error .syntaxError := by
  have hcolon : (piece ns p.value).isColon = false := by cases p <;> rfl
  rw [grow_singleColon rfl hcolon, h]
  cases b <;> rfl

/-! ## Segments -/

theorem foldr_addPiece_inner {vs : List ComponentValue} (h : vs.all isInner = true)
    (r : List Piece × List (Combinator × List Piece)) :
    (vs.map (piece ns)).foldr addPiece r = (vs.map (piece ns) ++ r.1, r.2) := by
  induction vs with
  | nil => rfl
  | cons v vs ih =>
      rw [List.all_cons, Bool.and_eq_true] at h
      have hcombinator : (piece ns v).combinator? = none := by
        unfold Piece.combinator?
        rw [piece_value]
        split
        all_goals first | rfl | exact absurd h.1 (by decide)
      have hblank : (piece ns v).value.isBlank = false := by
        rw [piece_value]
        exact isBlank_of_isInner h.1
      rw [List.map_cons, List.foldr_cons, ih h.2, addPiece_other hcombinator hblank]
      rfl

theorem foldr_addPiece_sign {k : Combinator} (hk : k ≠ .descendant) {first : List Piece} (hfirst : first ≠ [])
    (more : List (Combinator × List Piece)) :
    ((k.values.drop 1).map (piece ns)).foldr addPiece (first, more) = ([], (k, first) :: more) := by
  have hblank : addPiece (piece ns (.token .blank)) (first, more) = ([], (.descendant, first) :: more) :=
    addPiece_blank rfl hfirst
  cases k with
  | descendant => exact absurd rfl hk
  | _ =>
      show addPiece (piece ns (.token (.delim _))) (addPiece (piece ns (.token .blank)) (first, more)) = _
      rw [hblank, addPiece_taking rfl]

theorem foldr_addPiece_combinator (k : Combinator) {first : List Piece} (hfirst : first ≠ [])
    (more : List (Combinator × List Piece)) :
    (k.values.map (piece ns)).foldr addPiece (first, more) = ([], (k, first) :: more) := by
  by_cases hk : k = .descendant
  · subst hk
    exact addPiece_blank rfl hfirst
  · rw [k.values_eq, List.map_cons, List.foldr_cons, foldr_addPiece_sign hk hfirst, addPiece_blank_nil rfl]

/-! ## Commas -/

theorem isComma_of_isInner {v : ComponentValue} (h : v.isInner = true) : v.isComma = false := by
  unfold isComma
  split
  · cases h
  · rfl

theorem isComma_compound (c : Compound) : ∀ v ∈ c.values, v.isComma = false := fun v hv =>
  isComma_of_isInner (List.all_eq_true.mp c.isInner_values v hv)

theorem isComma_combinator (k : Combinator) : ∀ v ∈ k.values, v.isComma = false := by
  have h : k.values.all (fun v => !v.isComma) = true := by cases k <;> rfl
  intro v hv
  simpa using List.all_eq_true.mp h v hv

theorem isComma_chain : ∀ (k : Chain), ∀ v ∈ k.values, v.isComma = false
  | .last c => isComma_compound c
  | .link c j k => fun v hv => by
      rw [Chain.values, List.mem_append, List.mem_append] at hv
      rcases hv with hv | hv | hv
      · exact isComma_compound c v hv
      · exact isComma_combinator j v hv
      · exact isComma_chain k v hv

theorem isComma_selector : ∀ (s : Selector), ∀ v ∈ s.values, v.isComma = false
  | .mk none k => isComma_chain k
  | .mk (some j) k => fun v hv => by
      rw [Selector.values, List.mem_append] at hv
      rcases hv with hv | hv
      · exact isComma_combinator j v (List.drop_subset 1 _ hv)
      · exact isComma_chain k v hv

end StyleTree.Selector
