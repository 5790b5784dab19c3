/-
# `Proofs.Selector.Concealed` — syntax errors behind undeclared prefixes

The first problem in a selector decides what becomes of it.  So a prefix
that is not declared can conceal a syntax error further to the right: the
selector is left out of its list, where the error would have spoilt the
list.  Once the prefix is declared, the error shows.

Let `N` and `M` be namespaces, all prefixes of `N` declared in `M`, and let
a list be read with `N`.  `Conceals N M` says that one of its selectors, or
one in an argument that was read, is left out with `N` and has a syntax
error with `M`.  Exactly then the list is not read with `M`
(`isSome_listOfValues_extends`).

The proof compares the two runs over one selector that is read with `N`.
They take the same steps until a function comes up whose argument is not
read with `M`; this is a syntax error.  `Loses` says that there is such a
function, and `Outcome` what both runs have to do with it.
-/
import StyleTree.Proofs.Selector.Prefixes

namespace StyleTree.Selector

open ComponentValue

variable {ns N M : Namespaces} {mode : SelectorMode} {v : ComponentValue} {vs : List ComponentValue}

/-! ## Functions that lose their meaning -/

/-- A function that means something with `N` and nothing with `M`. -/
def Lost (N M : Namespaces) (v : ComponentValue) : Prop :=
  (piece N v).meaning.isSome = true ∧ (piece M v).meaning = none

/-- There is one among the values. -/
def Loses (N M : Namespaces) (vs : List ComponentValue) : Prop := ∃ v ∈ vs, Lost N M v

theorem not_lost_of_listArgument (h : listArgument? v = none) : ¬ Lost N M v := by
  rintro ⟨hN, hM⟩
  rw [meaning_congr h N M, hM] at hN
  cases hN

theorem not_lost_token (t : Token) : ¬ Lost N M (.token t) := not_lost_of_listArgument rfl

theorem not_loses_nil : ¬ Loses N M [] := by
  rintro ⟨v, hv, -⟩
  cases hv

theorem loses_cons : Loses N M (v :: vs) ↔ Lost N M v ∨ Loses N M vs := by
  simp only [Loses, List.mem_cons, exists_eq_or_imp]

theorem loses_cons_of_not (h : ¬ Lost N M v) : Loses N M (v :: vs) ↔ Loses N M vs :=
  loses_cons.trans (or_iff_right h)

/-- A second run beside one that succeeded: it succeeds as well, with a result that `R` holds of,
unless something was lost; then it meets a syntax error. -/
def Outcome {α : Type} (lost : Prop) (r : Except Failure α) (R : α → Prop) : Prop :=
  (¬ lost ∧ ∃ a, r = .ok a ∧ R a) ∨ (lost ∧ r = .error .syntaxError)

section

variable {α β : Type} {lost lost' : Prop} {x : Except Failure α} {f : α → Except Failure β} {R : α → Prop}
  {S : β → Prop}

theorem Outcome.congr (h : Outcome lost x R) (hiff : lost' ↔ lost) : Outcome lost' x R := by
  rwa [Outcome, hiff]

theorem Outcome.bind (hx : Outcome lost x R) (hf : ∀ a, R a → Outcome lost' (f a) S) :
    Outcome (lost ∨ lost') (x >>= f) S := by
  rcases hx with ⟨hkept, a, rfl, ha⟩ | ⟨hlost, rfl⟩
  · rcases hf a ha with ⟨hkept', hb⟩ | ⟨hlost', herror⟩
    · exact .inl ⟨not_or.mpr ⟨hkept, hkept'⟩, hb⟩
    · exact .inr ⟨.inr hlost', herror⟩
  · exact .inr ⟨.inl hlost, rfl⟩

theorem Outcome.then (hx : Outcome lost x R) (hf : ∀ a, R a → ∃ b, f a = .ok b ∧ S b) :
    Outcome lost (x >>= f) S :=
  (hx.bind fun a ha => .inl ⟨not_false, hf a ha⟩).congr (iff_of_eq (or_false lost).symm)

end

/-! ## One selector in two runs -/

theorem not_lost_of_isTypeName (h : (v.ident?.isSome || v.isDelim '*') = true) : ¬ Lost N M v := by
  cases v with
  | token t => exact not_lost_token t
  | block o vs => cases h

theorem not_lost_of_isDelim {c : Char} (h : v.isDelim c = true) : ¬ Lost N M v := by
  cases v with
  | token t => exact not_lost_token t
  | block o vs => cases h

theorem declared_extends {n : String} {k : Qualifier} (hext : N.Extends M) (h : declared N n = .ok k) :
    declared M n = .ok k := by
  unfold declared at h
  split at h
  · next hd => rw [declared, if_pos (hext n hd), h]
  · cases h

theorem qualifier_extends {k : Qualifier} (hext : N.Extends M) (h : qualifier N (piece N v) = .ok k) :
    qualifier M (piece M v) = .ok k := by
  unfold qualifier Piece.ident? at h ⊢
  rw [piece_value] at h ⊢
  cases hn : v.ident? with
  | none => rwa [hn] at h
  | some n =>
      rw [hn] at h
      exact declared_extends hext h

theorem isTypeName_congr (N M : Namespaces) (v : ComponentValue) :
    (piece N v).isTypeName = (piece M v).isTypeName := by
  simp only [Piece.isTypeName, piece_value]

theorem isBar_congr (N M : Namespaces) (v : ComponentValue) : (piece N v).isBar = (piece M v).isBar := by
  simp only [Piece.isBar, piece_value]

theorem ident_congr (N M : Namespaces) (v : ComponentValue) : (piece N v).ident? = (piece M v).ident? := by
  simp only [Piece.ident?, piece_value]

theorem untyped_congr (h : Untyped (vs.map (piece N))) : Untyped (vs.map (piece M)) := by
  cases vs with
  | nil => rintro _ ⟨⟩
  | cons v vs =>
      rintro _ ⟨⟩
      rw [← isTypeName_congr N M, ← isBar_congr N M]
      exact h _ rfl

theorem unqualified_congr (h : Unqualified (vs.map (piece N))) : Unqualified (vs.map (piece M)) := by
  match vs with
  | [] => trivial
  | [v] => trivial
  | v :: w :: vs =>
      have hN : ((piece N v).isBar && (piece N w).isTypeName) = false := h
      rwa [isBar_congr N M, isTypeName_congr N M] at hN

/-- The same type is read, and nothing in it can be lost. -/
theorem typeSelector_extends (hext : N.Extends M) {t : Option TypeSelector} {rest : List Piece}
    (h : typeSelector N (vs.map (piece N)) = .ok (t, rest)) :
    ∃ us, rest = us.map (piece N) ∧ typeSelector M (vs.map (piece M)) = .ok (t, us.map (piece M)) ∧
      (Loses N M vs ↔ Loses N M us) := by
  have hname : ∀ {v}, (piece N v).isTypeName = true → (piece M v).isTypeName = true ∧ ¬ Lost N M v := by
    intro v hv
    refine ⟨isTypeName_congr N M v ▸ hv, not_lost_of_isTypeName ?_⟩
    rwa [Piece.isTypeName, piece_value] at hv
  have hbar : ∀ {v}, (piece N v).isBar = true → (piece M v).isBar = true ∧ ¬ Lost N M v := by
    intro v hv
    refine ⟨isBar_congr N M v ▸ hv, @not_lost_of_isDelim _ _ _ '|' ?_⟩
    rwa [Piece.isBar, piece_value] at hv
  generalize hps : vs.map (piece N) = ps at h
  cases typeSelector_eq_ok.mp h with
  | absent huntyped =>
      subst hps
      exact ⟨vs, rfl, typeSelector_eq_ok.mpr (.absent (untyped_congr huntyped)), Iff.rfl⟩
  | name hp hunqualified =>
      obtain ⟨v, us, rfl, rfl, rfl⟩ := List.map_eq_cons_iff.mp hps
      obtain ⟨hM, hkept⟩ := hname hp
      have hread := typeSelector_eq_ok.mpr (@ReadsType.name M _ (us.map (piece M)) hM (unqualified_congr hunqualified))
      rw [ident_congr N M]
      exact ⟨us, rfl, hread, loses_cons_of_not hkept⟩
  | bar hp hq =>
      obtain ⟨v, ws, rfl, rfl, hws⟩ := List.map_eq_cons_iff.mp hps
      obtain ⟨w, us, rfl, rfl, rfl⟩ := List.map_eq_cons_iff.mp hws
      obtain ⟨hM, hkept⟩ := hbar hp
      obtain ⟨hM', hkept'⟩ := hname hq
      have hread := typeSelector_eq_ok.mpr (@ReadsType.bar M _ _ (us.map (piece M)) hM hM')
      rw [ident_congr N M]
      exact ⟨us, rfl, hread, (loses_cons_of_not hkept).trans (loses_cons_of_not hkept')⟩
  | qualified hp hq hr hk =>
      obtain ⟨v, ws, rfl, rfl, hws⟩ := List.map_eq_cons_iff.mp hps
      obtain ⟨w, xs, rfl, rfl, hxs⟩ := List.map_eq_cons_iff.mp hws
      obtain ⟨x, us, rfl, rfl, rfl⟩ := List.map_eq_cons_iff.mp hxs
      obtain ⟨hM, hkept⟩ := hname hp
      obtain ⟨hM', hkept'⟩ := hbar hq
      obtain ⟨hM'', hkept''⟩ := hname hr
      have hread := typeSelector_eq_ok.mpr
        (@ReadsType.qualified M _ _ _ (us.map (piece M)) _ hM hM' hM'' (qualifier_extends hext hk))
      rw [ident_congr N M]
      refine ⟨us, rfl, hread, ?_⟩
      rw [loses_cons_of_not hkept, loses_cons_of_not hkept', loses_cons_of_not hkept'']

theorem attributeName_extends (hext : N.Extends M) {r : Option Qualifier × String × List ComponentValue}
    (h : attributeName N vs = .ok r) : attributeName M vs = .ok r := by
  unfold attributeName at h ⊢
  split at h
  · exact h
  · exact h
  · obtain ⟨k, hk, h⟩ := bind_eq_ok.mp h
    rw [declared_extends hext hk]
    exact h
  · exact h
  · cases h

theorem attributeSelector_extends (hext : N.Extends M) {a : AttributeSelector}
    (h : attributeSelector N vs = .ok a) : attributeSelector M vs = .ok a := by
  obtain ⟨r, hr, h⟩ := bind_eq_ok.mp h
  rw [attributeSelector, attributeName_extends hext hr]
  exact h

/-! ## Compounds -/

/-- What later steps ask of a compound: whether it has a type, simple selectors and pseudo-elements. -/
def shape (c : Compound) : Bool × Bool × Bool := (c.type.isNone, c.simple.isEmpty, c.elements.isEmpty)

variable {c d : Compound}

theorem isEmpty_of_shape (h : shape c = shape d) : c.isEmpty = d.isEmpty := by
  simp only [shape, Prod.mk.injEq] at h
  simp only [Compound.isEmpty, h]

theorem elements_of_shape (h : shape c = shape d) : c.elements.isEmpty = d.elements.isEmpty :=
  congrArg (·.2.2) h

theorem isEmpty_elements (h : shape c = shape d) (hc : ¬ (!c.elements.isEmpty) = true) :
    d.elements.isEmpty = true := by
  rw [elements_of_shape h] at hc
  simpa using hc

theorem shape_withSimple (c : Compound) (s : Simple) :
    shape (c.withSimple s) = ((shape c).1, false, (shape c).2.2) := by
  obtain ⟨t, ss, es⟩ := c
  simp [shape, Compound.withSimple, Compound.type, Compound.simple, Compound.elements]

theorem shape_withElement (c : Compound) (n : String) (a : Option (List ComponentValue)) :
    shape (c.withElement n a) = ((shape c).1, (shape c).2.1, false) := by
  obtain ⟨t, ss, es⟩ := c
  simp [shape, Compound.withElement, Compound.type, Compound.simple, Compound.elements]

theorem isEmpty_addClass (p : PseudoClass) (es : List PseudoElement) :
    (Compound.addClass p es).isEmpty = es.isEmpty := by
  unfold Compound.addClass
  split <;> rfl

theorem shape_withClass (c : Compound) (p : PseudoClass) :
    shape (c.withClass p) = if (shape c).2.2 = true then ((shape c).1, false, true) else shape c := by
  unfold Compound.withClass
  show _ = if c.elements.isEmpty = true then _ else _
  split
  · next hempty =>
      rw [shape_withSimple]
      exact congrArg (fun b => ((shape c).1, false, b)) hempty
  · obtain ⟨t, ss, es⟩ := c
    simp [shape, Compound.type, Compound.simple, Compound.elements, isEmpty_addClass]

theorem shape_withSimple_congr (h : shape c = shape d) (s : Simple) :
    shape (c.withSimple s) = shape (d.withSimple s) := by
  rw [shape_withSimple, shape_withSimple, h]

theorem shape_addTo (h : shape c = shape d) (x : Pseudo) : shape (x.addTo c) = shape (x.addTo d) := by
  cases x with
  | ofClass p => simp only [Pseudo.addTo, shape_withClass, h]
  | ofElement n a => simp only [Pseudo.addTo, shape_withElement, h]

/-! ## Growing -/

/-- Both runs add a pseudo-class or the same pseudo-element, unless the argument of the function is
lost. -/
theorem singleColon_extends {x : Pseudo} (h : singleColon (piece N v) = some x) :
    (¬ Lost N M v ∧ ∃ y, singleColon (piece M v) = some y ∧
        ∀ c d, shape c = shape d → shape (x.addTo c) = shape (y.addTo d)) ∨
      (Lost N M v ∧ singleColon (piece M v) = none) := by
  match v with
  | .token t => exact .inl ⟨not_lost_token t, x, h, fun c d hcd => shape_addTo hcd x⟩
  | .block (.bracket b) vs => cases h
  | .block (.function n) vs =>
      obtain ⟨p, hp, rfl⟩ := Option.map_eq_some_iff.mp h
      cases hM : (piece M (.block (.function n) vs)).meaning with
      | none =>
          refine .inr ⟨⟨by rw [hp]; rfl, hM⟩, ?_⟩
          exact Option.map_eq_none_iff.mpr hM
      | some q =>
          refine .inl ⟨fun hlost => ?_, .ofClass q, ?_, fun c d hcd => ?_⟩
          · rw [hlost.2] at hM
            cases hM
          · exact Option.map_eq_some_iff.mpr ⟨q, hM, rfl⟩
          · simp only [Pseudo.addTo, shape_withClass, hcd]

theorem doubleColon_congr (N M : Namespaces) (v : ComponentValue) :
    doubleColon (piece N v) = doubleColon (piece M v) := by
  simp only [doubleColon, piece_value]

/-- What may stand behind two colons takes no list of selectors. -/
theorem listArgument_of_doubleColon {x : Pseudo} (h : doubleColon (piece N v) = some x) :
    listArgument? v = none := by
  match v with
  | .token t => rfl
  | .block (.bracket b) vs => rfl
  | .block (.function n) vs =>
      have hnone : ∀ name ∈ Names.matchingClasses ++ "has" :: Names.filteringClasses,
          name ∉ Names.functionalElements ∧ Names.isVendor name = false := by decide +kernel
      have hname : Text.foldCase n ∉ Names.matchingClasses ++ "has" :: Names.filteringClasses := by
        intro hmem
        obtain ⟨helement, hvendor⟩ := hnone _ hmem
        simp [doubleColon, piece, helement, hvendor] at h
      simp only [List.mem_append, List.mem_cons, not_or] at hname
      simp only [listArgument?, hname, if_false]

theorem isColon_congr (N M : Namespaces) (v : ComponentValue) : (piece N v).isColon = (piece M v).isColon := by
  simp only [Piece.isColon, piece_value]

theorem not_lost_of_isColon (h : (piece N v).isColon = true) : ¬ Lost N M v := by
  cases v with
  | token t => exact not_lost_token t
  | block o vs => cases h

/-- By the cases of the reader, for the run that succeeds; the other one is at the same place. -/
theorem grow_extends (hext : N.Extends M) {ps : List Piece} {c c' : Compound} :
    grow N c ps = .ok c' → ∀ {vs : List ComponentValue} {d : Compound}, vs.map (piece N) = ps →
      shape c = shape d →
        Outcome (Loses N M vs) (grow M d (vs.map (piece M))) (fun d' => shape c' = shape d') := by
  fun_induction grow N c ps with
  | case1 c =>
      intro h vs d hvs hcd
      cases h
      obtain rfl := List.map_eq_nil_iff.mp hvs
      exact .inl ⟨not_loses_nil, d, rfl, hcd⟩
  | case2 c p hp q hq r ps x hx ih =>
      intro h vs d hvs hcd
      obtain ⟨v, ws, rfl, rfl, hws⟩ := List.map_eq_cons_iff.mp hvs
      obtain ⟨w, us, rfl, rfl, hus⟩ := List.map_eq_cons_iff.mp hws
      obtain ⟨u, ts, rfl, rfl, hts⟩ := List.map_eq_cons_iff.mp hus
      have hkept : Loses N M (v :: w :: u :: ts) ↔ Loses N M ts := by
        rw [loses_cons_of_not (not_lost_of_isColon hp), loses_cons_of_not (not_lost_of_isColon hq),
          loses_cons_of_not (not_lost_of_listArgument (listArgument_of_doubleColon hx))]
      rw [isColon_congr N M] at hp hq
      rw [doubleColon_congr N M] at hx
      rw [List.map_cons, List.map_cons, List.map_cons, grow_doubleColon hp hq hx]
      exact (ih h hts (shape_addTo hcd x)).congr hkept
  | case5 c p hp q ps hq x hx ih =>
      intro h vs d hvs hcd
      obtain ⟨v, ws, rfl, rfl, hws⟩ := List.map_eq_cons_iff.mp hvs
      obtain ⟨w, us, rfl, rfl, hus⟩ := List.map_eq_cons_iff.mp hws
      have hcolon : Loses N M (v :: w :: us) ↔ Loses N M (w :: us) :=
        loses_cons_of_not (not_lost_of_isColon hp)
      rw [isColon_congr N M] at hp hq
      rw [List.map_cons, List.map_cons, grow_singleColon hp (Bool.not_eq_true _ ▸ hq)]
      rcases singleColon_extends hx with ⟨hkept, y, hy, hshape⟩ | ⟨hlost, hy⟩
      · rw [hy]
        exact (ih h hus (hshape c d hcd)).congr (hcolon.trans (loses_cons_of_not hkept))
      · rw [hy]
        exact .inr ⟨hcolon.mpr (loses_cons.mpr (.inl hlost)), rfl⟩
  | case9 c p ps hp he hv ih =>
      intro h vs d hvs hcd
      obtain ⟨v, us, rfl, rfl, hus⟩ := List.map_eq_cons_iff.mp hvs
      obtain rfl := (piece_value N v).symm.trans hv
      rw [List.map_cons, grow_nesting (isEmpty_elements hcd he) rfl]
      exact (ih h hus (shape_withSimple_congr hcd _)).congr (loses_cons_of_not (not_lost_token _))
  | case10 c p ps hp he n hv ih =>
      intro h vs d hvs hcd
      obtain ⟨v, us, rfl, rfl, hus⟩ := List.map_eq_cons_iff.mp hvs
      obtain rfl := (piece_value N v).symm.trans hv
      rw [List.map_cons, grow_id (isEmpty_elements hcd he) rfl]
      exact (ih h hus (shape_withSimple_congr hcd _)).congr (loses_cons_of_not (not_lost_token _))
  | case11 c p hp he hv q ps n hn ih =>
      intro h vs d hvs hcd
      obtain ⟨v, ws, rfl, rfl, hws⟩ := List.map_eq_cons_iff.mp hvs
      obtain ⟨w, us, rfl, rfl, hus⟩ := List.map_eq_cons_iff.mp hws
      obtain rfl := (piece_value N v).symm.trans hv
      have hn' : w.ident? = some n := by rwa [Piece.ident?, piece_value] at hn
      have hname : (piece M w).ident? = some n := by rwa [Piece.ident?, piece_value]
      have hkept : ¬ Lost N M w := not_lost_of_isTypeName (by rw [hn']; rfl)
      rw [List.map_cons, List.map_cons, grow_class (isEmpty_elements hcd he) rfl hname]
      refine (ih h hus (shape_withSimple_congr hcd _)).congr ?_
      rw [loses_cons_of_not (not_lost_token _), loses_cons_of_not hkept]
  | case14 c p ps hp he vs hv a ha ih =>
      intro h ws d hws hcd
      obtain ⟨v, us, rfl, rfl, hus⟩ := List.map_eq_cons_iff.mp hws
      obtain rfl := (piece_value N v).symm.trans hv
      have hread := attributeSelector_extends hext ha
      rw [List.map_cons, grow_attribute (isEmpty_elements hcd he) rfl hread]
      exact (ih h hus (shape_withSimple_congr hcd _)).congr
        (loses_cons_of_not (not_lost_of_listArgument rfl))
  | _ =>
      intro h
      cases h

/-! ## Chains and selectors -/

theorem compound_extends (hext : N.Extends M) (h : compound N (vs.map (piece N)) = .ok c) :
    Outcome (Loses N M vs) (compound M (vs.map (piece M))) (fun d => shape c = shape d) := by
  obtain ⟨⟨t, rest⟩, ht, h⟩ := bind_eq_ok.mp h
  obtain ⟨c', hgrow, hc⟩ := bind_eq_ok.mp h
  obtain ⟨us, rfl, htype, hloses⟩ := typeSelector_extends hext ht
  split at hc
  · cases hc
  · next hempty =>
      cases hc
      rw [compound, htype]
      refine ((grow_extends hext hgrow rfl rfl).then fun d hd => ?_).congr hloses
      exact ⟨d, if_neg (isEmpty_of_shape hd ▸ hempty), hd⟩

/-- A segment of values as one of pieces. -/
def pieceSegment (ns : Namespaces) (m : Combinator × List ComponentValue) : Combinator × List Piece :=
  (m.1, m.2.map (piece ns))

theorem chainOf_extends (hext : N.Extends M) {more : List (Combinator × List ComponentValue)} :
    ∀ {first : List ComponentValue} {k : Chain},
      chainOf N (first.map (piece N)) (more.map (pieceSegment N)) = .ok k →
        Outcome (Loses N M first ∨ ∃ m ∈ more, Loses N M m.2)
          (chainOf M (first.map (piece M)) (more.map (pieceSegment M))) (fun _ => True) := by
  induction more with
  | nil =>
      intro first k h
      obtain ⟨c, hc, h⟩ := bind_eq_ok.mp h
      refine ((compound_extends hext hc).then fun d _ => ⟨.last d, rfl, trivial⟩).congr ?_
      simp only [List.not_mem_nil, false_and, exists_false, or_false]
  | cons m more ih =>
      intro first k h
      obtain ⟨j, segment⟩ := m
      obtain ⟨c, hc, h⟩ := bind_eq_ok.mp h
      refine (compound_extends hext hc).bind fun d hd => ?_
      split at h
      · cases h
      · next he =>
          obtain ⟨rest, hrest, h⟩ := bind_eq_ok.mp h
          have hd' : ¬ (!d.elements.isEmpty) = true := by rwa [elements_of_shape hd] at he
          rw [if_neg hd']
          refine ((ih hrest).then fun k _ => ⟨.link d j k, rfl, trivial⟩).congr ?_
          simp only [List.mem_cons, exists_eq_or_imp]

theorem combinator_congr (ns : Namespaces) (v : ComponentValue) :
    (piece ns v).combinator? = (Piece.mk v none).combinator? := by
  simp only [Piece.combinator?, piece_value]

theorem not_lost_of_combinator {k : Combinator} (h : (Piece.mk v none).combinator? = some k) :
    ¬ Lost N M v := by
  cases v with
  | token t => exact not_lost_token t
  | block o vs => cases h

theorem not_lost_of_isBlank (h : v.isBlank = true) : ¬ Lost N M v := by
  cases v with
  | token t => exact not_lost_token t
  | block o vs => cases h

/-- Segments of values, cut like their pieces, with the same functions in them. -/
theorem exists_segments (vs : List ComponentValue) :
    ∃ (first : List ComponentValue) (more : List (Combinator × List ComponentValue)),
      (∀ ns, segments (vs.map (piece ns)) = (first.map (piece ns), more.map (pieceSegment ns))) ∧
        ∀ N M, Loses N M vs ↔ Loses N M first ∨ ∃ m ∈ more, Loses N M m.2 := by
  induction vs with
  | nil =>
      refine ⟨[], [], fun _ => rfl, fun N M => ?_⟩
      simp only [List.not_mem_nil, false_and, exists_false, or_false]
  | cons v vs ih =>
      obtain ⟨first, more, hseg, hloses⟩ := ih
      have hcons : ∀ ns, segments ((v :: vs).map (piece ns)) =
          addPiece (piece ns v) (first.map (piece ns), more.map (pieceSegment ns)) := by
        intro ns
        rw [← hseg, List.map_cons, segments, List.foldr_cons, segments]
      have hcut : ∀ N M (k : Combinator), ¬ Lost N M v → (Loses N M (v :: vs) ↔
          Loses N M [] ∨ ∃ m ∈ (k, first) :: more, Loses N M m.2) := by
        intro N M k hkept
        rw [loses_cons_of_not hkept, hloses]
        simp only [not_loses_nil, List.mem_cons, exists_eq_or_imp, false_or]
      cases hk : (Piece.mk v none).combinator? with
      | some k =>
          have hkept : ∀ N M, ¬ Lost N M v := fun N M => not_lost_of_combinator hk
          have hpiece : ∀ ns, (piece ns v).combinator? = some k := fun ns => by rw [combinator_congr, hk]
          by_cases hblank : first = [] ∧ ∃ segment rest, more = (.descendant, segment) :: rest
          · obtain ⟨rfl, segment, rest, rfl⟩ := hblank
            refine ⟨[], (k, segment) :: rest, fun ns => (hcons ns).trans (addPiece_taking (hpiece ns)), ?_⟩
            intro N M
            rw [loses_cons_of_not (hkept N M), hloses]
            simp only [List.mem_cons, exists_eq_or_imp]
          · refine ⟨[], (k, first) :: more, fun ns => ?_, fun N M => hcut N M k (hkept N M)⟩
            refine (hcons ns).trans (addPiece_combinator (hpiece ns) fun hfirst segment rest hmore => hblank ?_)
            obtain ⟨⟨j, segment'⟩, rest', rfl, hj, -⟩ := List.map_eq_cons_iff.mp hmore
            cases hj
            exact ⟨List.map_eq_nil_iff.mp hfirst, segment', rest', rfl⟩
      | none =>
          have hvalue : ∀ ns, (piece ns v).value.isBlank = v.isBlank := fun ns => by rw [piece_value]
          cases hb : v.isBlank with
          | true =>
              have hkept : ∀ N M, ¬ Lost N M v := fun N M => not_lost_of_isBlank hb
              by_cases hfirst : first = []
              · subst hfirst
                refine ⟨[], more, fun ns => (hcons ns).trans ?_, fun N M => ?_⟩
                · exact addPiece_blank_nil ((hvalue ns).trans hb)
                · rw [loses_cons_of_not (hkept N M), hloses]
              · refine ⟨[], (.descendant, first) :: more, fun ns => ?_, fun N M => hcut N M _ (hkept N M)⟩
                refine (hcons ns).trans (addPiece_blank ((hvalue ns).trans hb) fun h => hfirst ?_)
                exact List.map_eq_nil_iff.mp h
          | false =>
              refine ⟨v :: first, more, fun ns => (hcons ns).trans ?_, fun N M => ?_⟩
              · exact addPiece_other ((combinator_congr ns v).trans hk) ((hvalue ns).trans hb)
              · rw [loses_cons, loses_cons, hloses, or_assoc]

/-- A selector that is read with `N` is read with `M`, unless something in it is lost. -/
theorem selector_extends (hext : N.Extends M) {s : Selector} (h : selector N mode (vs.map (piece N)) = .ok s) :
    Outcome (Loses N M vs) (selector M mode (vs.map (piece M))) (fun _ => True) := by
  obtain ⟨first, more, hseg, hloses⟩ := exists_segments vs
  unfold selector at h ⊢
  rw [hseg] at h ⊢
  cases first with
  | cons w ws =>
      obtain ⟨k, hk, h⟩ := bind_eq_ok.mp h
      exact ((chainOf_extends hext hk).then fun k _ => ⟨_, rfl, trivial⟩).congr (hloses N M)
  | nil =>
      cases more with
      | nil =>
          obtain ⟨k, hk, h⟩ := bind_eq_ok.mp h
          have hrun := @chainOf_extends N M hext [] [] k hk
          exact (hrun.then fun k _ => ⟨_, rfl, trivial⟩).congr (hloses N M)
      | cons m more =>
          obtain ⟨j, segment⟩ := m
          have hsegment : Loses N M vs ↔ Loses N M segment ∨ ∃ m ∈ more, Loses N M m.2 := by
            rw [hloses]
            simp only [not_loses_nil, List.mem_cons, exists_eq_or_imp, false_or]
          have hrun : ∀ {l : Option Combinator} {s : Selector},
              (do let c ← chainOf N (segment.map (piece N)) (more.map (pieceSegment N))
                  pure (inMode mode (.mk l c))) = .ok s →
                Outcome (Loses N M vs)
                  (do let c ← chainOf M (segment.map (piece M)) (more.map (pieceSegment M))
                      pure (inMode mode (.mk l c))) (fun _ => True) := by
            intro l s h
            obtain ⟨k, hk, h⟩ := bind_eq_ok.mp h
            exact ((chainOf_extends hext hk).then fun k _ => ⟨_, rfl, trivial⟩).congr hsegment
          cases j with
          | descendant => exact hrun h
          | _ =>
              replace h : (if mode = .absolute then Except.error Failure.syntaxError else _) = .ok s := h
              split at h
              · cases h
              · next hmode =>
                  show Outcome _ (if mode = .absolute then _ else _) _
                  rw [if_neg hmode]
                  exact hrun h

/-! ## Lists -/

/-- A part of a list, in two runs. -/
theorem readPart_extends (hext : N.Extends M) {part : List ComponentValue} {s : Selector}
    (h : readPart N mode part = .ok s) : Outcome (Loses N M part) (readPart M mode part) (fun _ => True) :=
  selector_extends hext h

/-- A selector of the list, or of a list in an argument that is read, is left out with `N` and has a
syntax error with `M`. -/
inductive Conceals (N M : Namespaces) : SelectorMode → List ComponentValue → Prop
  | part {mode : SelectorMode} {vs part : List ComponentValue} :
      part ∈ splitOn isComma vs → readPart N mode part = .error .undeclaredPrefix →
        readPart M mode part = .error .syntaxError → Conceals N M mode vs
  | argument {mode inner : SelectorMode} {vs part list : List ComponentValue} {v : ComponentValue}
      {s : Selector} :
      part ∈ splitOn isComma vs → readPart N mode part = .ok s →
        v ∈ part → listArgument? v = some (inner, list) → (listOfValues N inner list).isSome = true →
          Conceals N M inner list → Conceals N M mode vs

theorem lost_iff {inner : SelectorMode} {list : List ComponentValue}
    (h : listArgument? v = some (inner, list)) :
    Lost N M v ↔ (listOfValues N inner list).isSome = true ∧ listOfValues M inner list = none := by
  rw [Lost, isSome_meaning h, ← Option.not_isSome_iff_eq_none, isSome_meaning h,
    Option.not_isSome_iff_eq_none]

/-- What is concealed spoils the list. -/
theorem Conceals.not_read (hext : N.Extends M) (h : Conceals N M mode vs) :
    listOfValues M mode vs = none := by
  induction h with
  | part hpart _ hM =>
      rw [← Option.not_isSome_iff_eq_none, isSome_listOfValues]
      rintro ⟨hgood, -⟩
      exact hgood _ hpart hM
  | argument hpart hN hv hlist hread _ ih =>
      rw [← Option.not_isSome_iff_eq_none, isSome_listOfValues]
      rintro ⟨hgood, -⟩
      rcases readPart_extends hext hN with ⟨hkept, -⟩ | ⟨-, herror⟩
      · exact hkept ⟨_, hv, (lost_iff hlist).mpr ⟨hread, ih⟩⟩
      · exact hgood _ hpart herror

/-- If the list in the argument of a function is read with `N` only, it conceals something. -/
def Explained (N M : Namespaces) (v : ComponentValue) : Prop :=
  ∀ inner list, listArgument? v = some (inner, list) → (listOfValues N inner list).isSome = true →
    listOfValues M inner list = none → Conceals N M inner list

theorem conceals_of_not_read (hext : N.Extends M) (hN : (listOfValues N mode vs).isSome = true)
    (hM : listOfValues M mode vs = none) (h : ∀ v ∈ vs, Explained N M v) : Conceals N M mode vs := by
  obtain ⟨hgood, kept, hkept, s, hs⟩ := (isSome_listOfValues N mode vs).mp hN
  -- The part that is read with `N` has a syntax error with `M`, or else another part has.
  have herror : ∃ part ∈ splitOn isComma vs, readPart M mode part = .error .syntaxError := by
    refine Classical.byContradiction fun hno => ?_
    rw [← Option.not_isSome_iff_eq_none, isSome_listOfValues] at hM
    rcases readPart_extends hext hs with ⟨-, s', hs', -⟩ | ⟨-, herror⟩
    · exact hM ⟨fun part hpart herror => hno ⟨part, hpart, herror⟩, kept, hkept, s', hs'⟩
    · exact hno ⟨kept, hkept, herror⟩
  obtain ⟨part, hpart, herror⟩ := herror
  cases hpartN : readPart N mode part with
  | error f =>
      cases f with
      | syntaxError => exact absurd hpartN (hgood part hpart)
      | undeclaredPrefix => exact .part hpart hpartN herror
  | ok s =>
      rcases readPart_extends hext hpartN with ⟨-, s', hs', -⟩ | ⟨⟨v, hv, hlost⟩, -⟩
      · rw [herror] at hs'
        cases hs'
      · cases hlist : listArgument? v with
        | none => exact absurd hlost (not_lost_of_listArgument hlist)
        | some a =>
            obtain ⟨inner, list⟩ := a
            obtain ⟨hread, hnone⟩ := (lost_iff hlist).mp hlost
            have hinner := h v (mem_of_mem_splitOn hpart hv) inner list hlist hread hnone
            exact .argument hpart hpartN hv hlist hread hinner

mutual

theorem explained (hext : N.Extends M) : ∀ v : ComponentValue, Explained N M v
  | .token t => fun inner list h => by cases h
  | .block (.bracket b) vs => fun inner list h => by cases h
  | .block (.function n) vs => fun inner list h hN hM => by
      have hvs := forall_explained hext vs
      exact conceals_of_not_read hext hN hM fun v hv => hvs v ((suffix_listArgument h).subset hv)

theorem forall_explained (hext : N.Extends M) : ∀ vs : List ComponentValue, ∀ v ∈ vs, Explained N M v
  | [] => fun v hv => by cases hv
  | v :: vs => fun w hw => by
      have hv := explained hext v
      have hvs := forall_explained hext vs
      rcases List.mem_cons.mp hw with rfl | hw
      · exact hv
      · exact hvs w hw

end

/-- A list that is read is read with more prefixes too, unless it conceals a syntax error. -/
theorem isSome_listOfValues_extends (hext : N.Extends M) (hN : (listOfValues N mode vs).isSome = true) :
    (listOfValues M mode vs).isSome = true ↔ ¬ Conceals N M mode vs := by
  constructor
  · intro hM hconceals
    rw [hconceals.not_read hext] at hM
    cases hM
  · intro hno
    cases hM : listOfValues M mode vs with
    | none => exact absurd (conceals_of_not_read hext hN hM (forall_explained hext vs)) hno
    | some l => rfl

/-- The selector that was left out is read once its prefix is declared, or it spoils the list: also the
list in an argument, and with it the list around it. -/
theorem isSome_listOfValues_extends_prefixed :
    ¬ Conceals .empty (Namespaces.empty.register (some "a") "u") .absolute (ofText "a|b, c") ∧
      Conceals .empty (Namespaces.empty.register (some "a") "u") .absolute (ofText "d:not(a|b !, c)") := by
  have hext : Namespaces.empty.Extends (Namespaces.empty.register (some "a") "u") := by
    intro n hn
    cases hn
  constructor
  · have hiff := @isSome_listOfValues_extends _ _ .absolute (ofText "a|b, c") hext (by decide +kernel)
    exact hiff.mp (by decide +kernel)
  · have hiff := @isSome_listOfValues_extends _ _ .absolute (ofText "d:not(a|b !, c)") hext (by decide +kernel)
    refine Classical.byContradiction fun hno => ?_
    have hM := hiff.mpr hno
    revert hM
    decide +kernel

/-- A syntax error behind a prefix that is not declared goes unseen. -/
theorem list_spoilt_by_declaration :
    ¬ ∀ (N M : Namespaces) (mode : SelectorMode) (vs : List ComponentValue), N.Extends M →
      (listOfValues N mode vs).isSome = true → (listOfValues M mode vs).isSome = true := by
  intro h
  have hM := h .empty (Namespaces.empty.register (some "a") "u") .absolute (ofText "a|b !, c")
    (fun n hn => by cases hn) (by decide +kernel)
  revert hM
  decide +kernel

end StyleTree.Selector
