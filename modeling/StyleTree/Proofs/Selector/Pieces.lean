/-
# `Proofs.Selector.Pieces` — what the reader sees of a value

The reader works on pieces.  A piece is a value with its meaning, and only
a function with a list of selectors in its argument has a meaning that
depends on the namespaces: that of its list (`isSome_meaning`).  What is
read as a type is said once, as a relation (`typeSelector_eq_ok`), and the
steps by which a compound grows are stated one by one, each for the pieces
it takes.
-/
import StyleTree.Proofs.ComponentValue.Runs
import StyleTree.Proofs.Selector.Nth
import StyleTree.Selector.Read

namespace StyleTree.Selector

open ComponentValue

variable {ns : Namespaces} {mode : SelectorMode} {v : ComponentValue} {vs : List ComponentValue}

/-! ## Pieces -/

theorem pieces_eq_map (ns : Namespaces) (vs : List ComponentValue) : pieces ns vs = vs.map (piece ns) := by
  induction vs with
  | nil => rfl
  | cons v vs ih => rw [pieces, ih, List.map_cons]

@[simp] theorem piece_value (ns : Namespaces) (v : ComponentValue) : (piece ns v).value = v := by
  cases v <;> rfl

/-- The list of selectors behind `of` in the argument of a function that counts children. -/
def listBehindOf? (vs : List ComponentValue) : Option (List ComponentValue) :=
  match Nth.read vs with
  | none => none
  | some (_, rest) =>
    match rest.dropWhile isBlank with
    | [] => none
    | v :: list => if v.isWord "of" then some list else none

/-- The list of selectors that a function takes as its argument, with its mode. -/
def listArgument? : ComponentValue → Option (SelectorMode × List ComponentValue)
  | .block (.function n) vs =>
    let name := Text.foldCase n
    if name ∈ Names.matchingClasses then some (.absolute, vs)
    else if name = "has" then some (.relative, vs)
    else if name ∈ Names.filteringClasses then (listBehindOf? vs).map ((.absolute, ·))
    else none
  | _ => none

theorem suffix_listBehindOf {list : List ComponentValue} (h : listBehindOf? vs = some list) : list <:+ vs := by
  unfold listBehindOf? at h
  split at h
  · cases h
  · next hread =>
      split at h
      · cases h
      · next hdrop =>
          split at h
          · cases h
            exact (Nth.suffix_of_dropWhile hdrop).trans (Nth.suffix_read hread)
          · cases h

/-- The list is part of the argument. -/
theorem suffix_listArgument {n : String} {list : List ComponentValue}
    (h : listArgument? (.block (.function n) vs) = some (mode, list)) : list <:+ vs := by
  simp only [listArgument?] at h
  split at h
  · cases h
    exact List.suffix_refl _
  split at h
  · cases h
    exact List.suffix_refl _
  split at h
  · obtain ⟨l, hl, heq⟩ := Option.map_eq_some_iff.mp h
    cases heq
    exact suffix_listBehindOf hl
  · cases h

theorem drop_pieces {list : List ComponentValue} (h : list <:+ vs) :
    (pieces ns vs).drop ((pieces ns vs).length - list.length) = pieces ns list := by
  obtain ⟨front, rfl⟩ := h
  rw [pieces_eq_map, pieces_eq_map, List.length_map, List.length_append, Nat.add_sub_cancel,
    List.map_append, List.drop_left' (List.length_map ..)]

/-- With a list behind `of`, everything depends on the list. -/
theorem countingClass_of_read {name : String} {n : Nth} {rest list : List ComponentValue}
    (h : name ∈ Names.filteringClasses) (hread : Nth.read vs = some (n, rest))
    (hdrop : rest.dropWhile isBlank = v :: list) (hof : v.isWord "of" = true) :
    countingClass ns name vs (pieces ns vs) = (listOfValues ns .absolute list).map (.countingOf name n) := by
  have hsuffix : list <:+ vs := (Nth.suffix_of_dropWhile hdrop).trans (Nth.suffix_read hread)
  simp only [countingClass, hread, hdrop, h, hof, decide_true, Bool.and_self, if_true, drop_pieces hsuffix,
    listOfValues]

theorem countingClass_of_list {name : String} {list : List ComponentValue} (h : name ∈ Names.filteringClasses)
    (hlist : listBehindOf? vs = some list) :
    ∃ n, ∀ ns, countingClass ns name vs (pieces ns vs) =
      (listOfValues ns .absolute list).map (.countingOf name n) := by
  unfold listBehindOf? at hlist
  split at hlist
  · cases hlist
  · next n rest hread =>
      split at hlist
      · cases hlist
      · next v list' hdrop =>
          split at hlist
          · next hof =>
              cases hlist
              exact ⟨n, fun ns => countingClass_of_read h hread hdrop hof⟩
          · cases hlist

/-- Without one, nothing depends on the namespaces. -/
theorem countingClass_congr {name : String} (h : name ∈ Names.filteringClasses → listBehindOf? vs = none) :
    countingClass N name vs (pieces N vs) = countingClass M name vs (pieces M vs) := by
  unfold listBehindOf? at h
  unfold countingClass
  cases hread : Nth.read vs with
  | none => rfl
  | some r =>
      obtain ⟨n, rest⟩ := r
      cases hdrop : rest.dropWhile isBlank with
      | nil => simp only [hdrop]
      | cons v list =>
          have hno : (decide (name ∈ Names.filteringClasses) && v.isWord "of") = false := by
            by_cases hname : name ∈ Names.filteringClasses
            · have hof := h hname
              simp only [hread, hdrop] at hof
              simpa [hname] using hof
            · simp only [hname, decide_false, Bool.false_and]
          simp only [hdrop, hno, Bool.false_eq_true, if_false]

/-- A function that takes a list of selectors means something if the list is read. -/
theorem isSome_meaning {list : List ComponentValue} (h : listArgument? v = some (mode, list))
    (ns : Namespaces) : (piece ns v).meaning.isSome = (listOfValues ns mode list).isSome := by
  cases v with
  | token t => cases h
  | block o vs =>
      cases o with
      | bracket b => cases h
      | function n =>
          simp only [listArgument?] at h
          simp only [piece, functionalClass]
          split at h
          · next hname =>
              cases h
              rw [if_pos hname, Option.isSome_map, listOfValues]
          · next hname =>
              rw [if_neg hname]
              split at h
              · next hhas =>
                  cases h
                  rw [if_pos hhas, Option.isSome_map, listOfValues]
              · next hhas =>
                  rw [if_neg hhas]
                  split at h
                  · next hfilter =>
                      obtain ⟨list', hlist, heq⟩ := Option.map_eq_some_iff.mp h
                      cases heq
                      obtain ⟨m, hm⟩ := countingClass_of_list hfilter hlist
                      rw [if_pos (by simp [hfilter]), hm, Option.isSome_map]
                  · cases h

/-- The meaning of any other value does not depend on the namespaces. -/
theorem meaning_congr (h : listArgument? v = none) (N M : Namespaces) :
    (piece N v).meaning = (piece M v).meaning := by
  cases v with
  | token t => rfl
  | block o vs =>
      cases o with
      | bracket b => rfl
      | function n =>
          simp only [listArgument?] at h
          simp only [piece, functionalClass]
          split at h
          · cases h
          · next hname =>
              rw [if_neg hname, if_neg hname]
              split at h
              · cases h
              · next hhas =>
                  rw [if_neg hhas, if_neg hhas]
                  have hlist : Text.foldCase n ∈ Names.filteringClasses → listBehindOf? vs = none := by
                    intro hfilter
                    rw [if_pos hfilter] at h
                    exact Option.map_eq_none_iff.mp h
                  rw [countingClass_congr hlist]

/-! ## Types -/

section

variable {p q r : Piece} {ps rest : List Piece} {t : Option TypeSelector}

/-- The first piece belongs to no type. -/
def Untyped (ps : List Piece) : Prop := ∀ p ∈ ps.head?, p.isTypeName = false ∧ p.isBar = false

/-- No bar with a name behind it comes first. -/
def Unqualified : List Piece → Prop
  | q :: r :: _ => (q.isBar && r.isTypeName) = false
  | _ => True

/-- What the front of a segment is read as: no type, a name, a name behind a bar, or a qualified one. -/
inductive ReadsType (ns : Namespaces) : List Piece → Option TypeSelector → List Piece → Prop
  | absent {ps : List Piece} : Untyped ps → ReadsType ns ps none ps
  | name {p : Piece} {ps : List Piece} : p.isTypeName = true → Unqualified ps →
      ReadsType ns (p :: ps) (some ⟨none, p.ident?⟩) ps
  | bar {p q : Piece} {ps : List Piece} : p.isBar = true → q.isTypeName = true →
      ReadsType ns (p :: q :: ps) (some ⟨some .none, q.ident?⟩) ps
  | qualified {p q r : Piece} {ps : List Piece} {k : Qualifier} : p.isTypeName = true → q.isBar = true →
      r.isTypeName = true → qualifier ns p = .ok k → ReadsType ns (p :: q :: r :: ps) (some ⟨some k, r.ident?⟩) ps

theorem isTypeName_of_isBar (h : p.isBar = true) : p.isTypeName = false := by
  obtain ⟨v, m⟩ := p
  unfold Piece.isBar isDelim at h
  split at h
  · next hv =>
      simp only at hv
      obtain rfl := beq_iff_eq.mp h
      subst hv
      rfl
  · cases h

theorem isBar_of_isTypeName (h : p.isTypeName = true) : p.isBar = false := by
  cases hbar : p.isBar with
  | false => rfl
  | true =>
      rw [isTypeName_of_isBar hbar] at h
      cases h

theorem readsType_of_typeSelector (h : typeSelector ns ps = .ok (t, rest)) : ReadsType ns ps t rest := by
  unfold typeSelector at h
  split at h
  · next p q r more =>
      split at h
      · next hthree =>
          simp only [Bool.and_eq_true] at hthree
          cases hk : qualifier ns p with
          | error f =>
              rw [hk] at h
              cases h
          | ok k =>
              rw [hk] at h
              cases h
              exact .qualified hthree.1.1 hthree.1.2 hthree.2 hk
      · next hthree =>
          split at h
          · next hbar =>
              split at h
              · next hname =>
                  cases h
                  exact .bar hbar hname
              · cases h
          · next hbar =>
              split at h
              · next hname =>
                  cases h
                  refine .name hname (Bool.eq_false_iff.mpr fun h => hthree ?_)
                  rw [hname, Bool.true_and]
                  exact h
              · next hname =>
                  cases h
                  refine .absent ?_
                  rintro _ ⟨⟩
                  exact ⟨Bool.eq_false_iff.mpr hname, Bool.eq_false_iff.mpr hbar⟩
  · next p more hshort =>
      split at h
      · next hbar =>
          split at h
          · split at h
            · next hname =>
                cases h
                exact .bar hbar hname
            · cases h
          · cases h
      · next hbar =>
          split at h
          · next hname =>
              cases h
              refine .name hname ?_
              match rest with
              | [] => trivial
              | [q] => trivial
              | q :: r :: more => exact absurd rfl (hshort q r more)
          · next hname =>
              cases h
              refine .absent ?_
              rintro _ ⟨⟩
              exact ⟨Bool.eq_false_iff.mpr hname, Bool.eq_false_iff.mpr hbar⟩
  · cases h
    exact .absent (by rintro _ ⟨⟩)

/-- A type is read exactly so. -/
theorem typeSelector_eq_ok : typeSelector ns ps = .ok (t, rest) ↔ ReadsType ns ps t rest := by
  refine ⟨readsType_of_typeSelector, fun h => ?_⟩
  cases h with
  | absent h =>
      cases ps with
      | nil => rfl
      | cons p ps =>
          obtain ⟨hname, hbar⟩ := h p rfl
          match ps with
          | [] => simp [typeSelector, hname, hbar]
          | [q] => simp [typeSelector, hname, hbar]
          | q :: r :: more => simp [typeSelector, hname, hbar]
  | name hp h =>
      have hbar := isBar_of_isTypeName hp
      match rest with
      | [] => simp [typeSelector, hp, hbar]
      | [q] => simp [typeSelector, hp, hbar]
      | q :: r :: more =>
          have hqr : (q.isBar && r.isTypeName) = false := h
          simp [typeSelector, hp, hbar, hqr]
  | bar hp hq =>
      have hname := isTypeName_of_isBar hp
      cases rest <;> simp [typeSelector, hp, hname, hq]
  | qualified hp hq hr hk =>
      simp only [typeSelector, hp, hq, hr, hk, Bool.and_self, if_true]
      rfl

end

/-! ## Segments -/

section

variable {p : Piece} {k : Combinator} {first : List Piece} {more : List (Combinator × List Piece)}

/-- A combinator takes the blank behind it. -/
theorem addPiece_taking (hk : p.combinator? = some k) :
    addPiece p ([], (.descendant, first) :: more) = ([], (k, first) :: more) := by
  simp only [addPiece, hk]

theorem addPiece_combinator (hk : p.combinator? = some k)
    (h : first = [] → ∀ segment rest, more ≠ (.descendant, segment) :: rest) :
    addPiece p (first, more) = ([], (k, first) :: more) := by
  unfold addPiece
  rw [hk]
  simp only
  split
  · next heq =>
      cases heq
      exact absurd rfl (h rfl _ _)
  · next heq =>
      cases heq
      rfl

theorem combinator_of_isBlank (hb : p.value.isBlank = true) : p.combinator? = none := by
  obtain ⟨v, m⟩ := p
  cases v with
  | token t => cases t <;> first | rfl | cases hb
  | block o vs => cases hb

/-- A blank in front of a separator or the end adds nothing. -/
theorem addPiece_blank_nil (hb : p.value.isBlank = true) : addPiece p ([], more) = ([], more) := by
  simp only [addPiece, combinator_of_isBlank hb, hb, if_true]

theorem addPiece_blank (hb : p.value.isBlank = true) (h : first ≠ []) :
    addPiece p (first, more) = ([], (.descendant, first) :: more) := by
  simp only [addPiece, combinator_of_isBlank hb, hb, if_true]

theorem addPiece_other (hk : p.combinator? = none) (hb : p.value.isBlank = false) :
    addPiece p (first, more) = (p :: first, more) := by
  simp only [addPiece, hk, hb, Bool.false_eq_true, if_false]

end

/-! ## Growing -/

section

variable {c : Compound} {p q r : Piece} {ps : List Piece}

theorem grow_doubleColon {x : Pseudo} (hp : p.isColon = true) (hq : q.isColon = true)
    (hx : doubleColon r = some x) : grow ns c (p :: q :: r :: ps) = grow ns (x.addTo c) ps := by
  rw [grow.eq_def]
  simp only [hp, hq, hx, if_true]

theorem grow_singleColon (hp : p.isColon = true) (hq : q.isColon = false) :
    grow ns c (p :: q :: ps) =
      match singleColon q with
      | some x => grow ns (x.addTo c) ps
      | none => .error .syntaxError := by
  rw [grow.eq_def]
  cases hx : singleColon q <;> simp only [hp, hq, hx, Bool.false_eq_true, if_true, if_false]

theorem grow_nesting (hc : c.elements.isEmpty = true) (hp : p.value = .token (.delim '&')) :
    grow ns c (p :: ps) = grow ns (c.withSimple .nesting) ps := by
  have hcolon : p.isColon = false := by simp only [Piece.isColon, hp]
  rw [grow.eq_def]
  simp only [hcolon, hc, hp, Bool.false_eq_true, Bool.not_true, if_false]

theorem grow_id {n : String} (hc : c.elements.isEmpty = true) (hp : p.value = .token (.idHash n)) :
    grow ns c (p :: ps) = grow ns (c.withSimple (.byId n)) ps := by
  have hcolon : p.isColon = false := by simp only [Piece.isColon, hp]
  rw [grow.eq_def]
  simp only [hcolon, hc, hp, Bool.false_eq_true, Bool.not_true, if_false]

theorem grow_class {n : String} (hc : c.elements.isEmpty = true) (hp : p.value = .token (.delim '.'))
    (hq : q.ident? = some n) : grow ns c (p :: q :: ps) = grow ns (c.withSimple (.byClass n)) ps := by
  have hcolon : p.isColon = false := by simp only [Piece.isColon, hp]
  rw [grow.eq_def]
  simp only [hcolon, hc, hp, hq, Bool.false_eq_true, Bool.not_true, if_false]

theorem grow_attribute {vs : List ComponentValue} {a : AttributeSelector} (hc : c.elements.isEmpty = true)
    (hp : p.value = .block (.bracket .square) vs) (ha : attributeSelector ns vs = .ok a) :
    grow ns c (p :: ps) = grow ns (c.withSimple (.byAttribute a)) ps := by
  have hcolon : p.isColon = false := by simp only [Piece.isColon, hp]
  rw [grow.eq_def]
  simp only [hcolon, hc, hp, ha, Bool.false_eq_true, Bool.not_true, if_false]

end

/-! ## Lists -/

/-- What becomes of a part of a list. -/
def readPart (ns : Namespaces) (mode : SelectorMode) (part : List ComponentValue) : Except Failure Selector :=
  selector ns mode (part.map (piece ns))

/-- A list is read part by part. -/
theorem listOfValues_eq (ns : Namespaces) (mode : SelectorMode) (vs : List ComponentValue) :
    listOfValues ns mode vs =
      match keepDeclared ((splitOn isComma vs).map (readPart ns mode)) with
      | some (s :: ss) => some (s :: ss)
      | _ => none := by
  rw [listOfValues, listOfPieces, pieces_eq_map, splitOn_map, List.map_map]
  simp only [piece_value]
  rfl

theorem keepDeclared_eq_none {l : List (Except Failure Selector)} :
    keepDeclared l = none ↔ .error .syntaxError ∈ l := by
  induction l with
  | nil => simp [keepDeclared]
  | cons r l ih => rcases r with (_ | _) | s <;> simp [keepDeclared, ih]

theorem mem_keepDeclared {l : List (Except Failure Selector)} : ∀ {ss : List Selector},
    keepDeclared l = some ss → ∀ s, s ∈ ss ↔ .ok s ∈ l := by
  induction l with
  | nil =>
      intro ss h s
      cases h
      simp
  | cons r l ih =>
      intro ss h s
      rcases r with (_ | _) | s'
      · cases h
      · rw [ih h, List.mem_cons]
        simp
      · obtain ⟨ss', hss, rfl⟩ := Option.map_eq_some_iff.mp h
        rw [List.mem_cons, List.mem_cons, ih hss, Except.ok.injEq]

/-- A list is read if no part has a syntax error and one part is read. -/
theorem isSome_listOfValues (ns : Namespaces) (mode : SelectorMode) (vs : List ComponentValue) :
    (listOfValues ns mode vs).isSome = true ↔
      (∀ part ∈ splitOn isComma vs, readPart ns mode part ≠ .error .syntaxError) ∧
        ∃ part ∈ splitOn isComma vs, ∃ s, readPart ns mode part = .ok s := by
  rw [listOfValues_eq]
  cases hkeep : keepDeclared ((splitOn isComma vs).map (readPart ns mode)) with
  | none =>
      have hmem := keepDeclared_eq_none.mp hkeep
      obtain ⟨part, hpart, herror⟩ := List.mem_map.mp hmem
      simp only [Option.isSome_none, Bool.false_eq_true, false_iff]
      rintro ⟨h, -⟩
      exact h part hpart herror
  | some ss =>
      have hgood : ∀ part ∈ splitOn isComma vs, readPart ns mode part ≠ .error .syntaxError := by
        intro part hpart herror
        have hnone := keepDeclared_eq_none.mpr (List.mem_map.mpr ⟨part, hpart, herror⟩)
        rw [hkeep] at hnone
        cases hnone
      have hmem := mem_keepDeclared hkeep
      constructor
      · intro h
        cases ss with
        | nil => cases h
        | cons s ss =>
            obtain ⟨part, hpart, hs⟩ := List.mem_map.mp ((hmem s).mp List.mem_cons_self)
            exact ⟨hgood, part, hpart, s, hs⟩
      · rintro ⟨-, part, hpart, s, hs⟩
        have hs := (hmem s).mpr (List.mem_map.mpr ⟨part, hpart, hs⟩)
        cases ss with
        | nil => cases hs
        | cons s' ss => rfl

end StyleTree.Selector
