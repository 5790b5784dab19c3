/-
# `Proofs.Selector.RoundTrip` — selectors are read as they were written

The text of a list of selectors that was read is read as the same list, in
the same mode and with the same namespaces, if no argument in it is raw and
the name of every pseudo-class and pseudo-element stands for itself, unless
an offset of -2147483648 is behind a step; then nothing is read
(`listText_read`).

    the text      is scanned to the values of the list (`ofText_listText`)
    a value       is read as the pseudo-class it was written for
    a segment     is read as its compound, and the segments as the chain
    the parts     between the commas are read as the selectors

The induction goes through the arguments of pseudo-classes, where lists of
selectors stand again, and each step says what is lost (`again`).
-/
import StyleTree.Proofs.Selector.Reading

namespace StyleTree.Selector

open ComponentValue

variable {ns : Namespaces} {mode : SelectorMode}

/-! ## Selectors -/

/-- What is read from the values of `x`: the same again, if no pair in it is lost. -/
def again {α : Type} (l : List Pseudo) (x : α) : Except Failure α :=
  if l.all Pseudo.isCountable = true then .ok x else .error .syntaxError

theorem chainOf_last {first : List Piece} {c : Compound} (h : compound ns first = again c.pseudos c) :
    chainOf ns first [] = again (Chain.last c).pseudos (.last c) := by
  rw [chainOf, h, Chain.pseudos, again, again]
  cases c.pseudos.all Pseudo.isCountable <;> rfl

theorem chainOf_link {first segment : List Piece} {more : List (Combinator × List Piece)} {c : Compound}
    {j : Combinator} {k : Chain} (h : compound ns first = again c.pseudos c) (hc : c.elements = [])
    (hk : chainOf ns segment more = again k.pseudos k) :
    chainOf ns first ((j, segment) :: more) = again (Chain.link c j k).pseudos (.link c j k) := by
  rw [chainOf, h, hk, Chain.pseudos, again, again, again, List.all_append]
  cases c.pseudos.all Pseudo.isCountable with
  | false => rfl
  | true =>
      simp only [if_true, bind, Except.bind, hc, List.isEmpty_nil, Bool.not_true, Bool.false_eq_true, if_false,
        Bool.true_and]
      cases k.pseudos.all Pseudo.isCountable <;> rfl

theorem inMode_of_wellFormed {s : Selector} (h : s.WellFormed ns mode) : inMode mode s = s := by
  obtain ⟨l, k⟩ := s
  refine if_neg fun hcond => ?_
  simp only [Bool.and_eq_true, decide_eq_true_eq, Bool.or_eq_true] at hcond
  obtain ⟨hmode, hcond⟩ := hcond
  obtain ⟨hl, hk⟩ := h.2.2.2 hmode
  subst hl
  rcases hcond with hcond | hcond
  · cases hcond
  · have hmention : (Selector.mk none k).mentionsNesting = true := hk
    rw [hmention] at hcond
    cases hcond

/-- A selector is read from its segments, also behind a blank. -/
theorem selector_of_segments {l : Option Combinator} {k : Chain} (h : (Selector.mk l k).WellFormed ns mode)
    {vs : List ComponentValue} {p : Piece} {ps : List Piece} {more : List (Combinator × List Piece)}
    (hvs : segments (vs.map (piece ns)) = match l with
      | none => (p :: ps, more)
      | some j => ([], (j, p :: ps) :: more))
    (hk : chainOf ns (p :: ps) more = again k.pseudos k) :
    readPart ns mode vs = again k.pseudos (.mk l k) ∧
      readPart ns mode (.token .blank :: vs) = again k.pseudos (.mk l k) := by
  have hend : (do
      let c ← chainOf ns (p :: ps) more
      pure (inMode mode (.mk l c))) = again k.pseudos (.mk l k) := by
    rw [hk, again, again]
    cases k.pseudos.all Pseudo.isCountable with
    | false => rfl
    | true => exact congrArg Except.ok (inMode_of_wellFormed h)
  have hblank : segments ((.token .blank :: vs).map (piece ns)) =
      addPiece (piece ns (.token .blank)) (segments (vs.map (piece ns))) := rfl
  rw [readPart, readPart, selector, selector, hblank, hvs]
  match l with
  | none =>
      rw [addPiece_blank rfl (List.cons_ne_nil p ps)]
      exact ⟨hend, hend⟩
  | some j =>
      have hj : j ≠ .descendant := fun hj => h.2.1 (congrArg some hj)
      have hmode : mode ≠ .absolute := fun hmode => Option.some_ne_none j (h.2.2.1 hmode)
      rw [addPiece_blank_nil rfl]
      cases j with
      | descendant => exact absurd rfl hj
      | _ => exact ⟨(if_neg hmode).trans hend, (if_neg hmode).trans hend⟩

/-! ## Lists -/

theorem keepDeclared_again (ss : List Selector) :
    keepDeclared (ss.map fun s => again s.pseudos s) =
      if (pseudosIn ss).all Pseudo.isCountable = true then some ss else none := by
  induction ss with
  | nil => rfl
  | cons s ss ih =>
      rw [List.map_cons, pseudosIn, List.all_append, again]
      cases s.pseudos.all Pseudo.isCountable with
      | false => rfl
      | true =>
          rw [if_pos rfl, keepDeclared, ih, Bool.true_and]
          cases (pseudosIn ss).all Pseudo.isCountable <;> rfl

/-- A list is read again if its parts are. -/
theorem listOfValues_of_parts {vs : List ComponentValue} {list : List Selector} (hne : list ≠ [])
    (h : (splitOn isComma vs).map (readPart ns mode) = list.map fun s => again s.pseudos s) :
    listOfValues ns mode vs = if (pseudosIn list).all Pseudo.isCountable = true then some list else none := by
  obtain ⟨s, ss, rfl⟩ := List.exists_cons_of_ne_nil hne
  rw [listOfValues_eq, h, keepDeclared_again]
  cases (pseudosIn (s :: ss)).all Pseudo.isCountable <;> rfl

-- One theorem for each kind of part.  A pair that is lost is a syntax error in the list it stands in, and so
-- in all lists around that; this is why each step compares with the condition and not only with the part.

mutual

/-- What stands behind a colon is read as the pseudo-class it was written for. -/
theorem singleColon_value : ∀ p : PseudoClass, p.WellFormed ns → p.pseudos.all Pseudo.isSpelled = true →
    singleColon (piece ns p.value) = if p.pseudos.all Pseudo.isCountable = true then some (.ofClass p) else none
  | .plain n, h, _ => singleColon_plain h
  | .matching n list, ⟨mode, hn, hne, hlist⟩, hp => by
      rw [PseudoClass.pseudos, List.all_cons, Bool.and_eq_true] at hp
      have hread := listOfValues_of_parts hne (parts_valuesOf list hne hlist hp.2).1
      have hall : (PseudoClass.matching n list).pseudos.all Pseudo.isCountable =
          (pseudosIn list).all Pseudo.isCountable := rfl
      rw [PseudoClass.value, singleColon_function (mem_functions_of_listMode hn), functionalClass_matching hn,
        hread, hall]
      cases (pseudosIn list).all Pseudo.isCountable <;> rfl
  | .counting n k, ⟨hn, hk⟩, _ => by
      rw [PseudoClass.value, singleColon_function (mem_functions_of_counting hn), functionalClass_counting hn,
        countingClass_pair hk, PseudoClass.pseudos, List.all_cons, List.all_nil, Pseudo.isCountable, Bool.and_true]
      cases countable k <;> rfl
  | .countingOf n k list, ⟨hn, hk, hne, hlist⟩, hp => by
      rw [PseudoClass.pseudos, List.all_cons, Bool.and_eq_true] at hp
      have hread := listOfValues_of_parts hne (parts_valuesOf list hne hlist hp.2).2
      rw [PseudoClass.value, singleColon_function (mem_functions_of_counting (.inl hn)),
        functionalClass_counting (.inl hn), countingClass_pairOf hn hk rfl, hread, PseudoClass.pseudos,
        List.all_cons, Pseudo.isCountable]
      cases countable k <;> cases (pseudosIn list).all Pseudo.isCountable <;> rfl
  | .raw n vs, _, hp => by cases hp

/-- A compound grows by the simple selector whose values come next. -/
theorem grow_simple : ∀ (s : Simple) {c : Compound} {ps : List Piece}, s.WellFormed ns →
    s.pseudos.all Pseudo.isSpelled = true → c.elements = [] →
    grow ns c (s.values.map (piece ns) ++ ps) =
      if s.pseudos.all Pseudo.isCountable = true then grow ns (c.withSimple s) ps else .error .syntaxError
  | .nesting, c, ps, _, _, hc => grow_nesting (List.isEmpty_iff.mpr hc) rfl
  | .byId n, c, ps, _, _, hc => grow_id (List.isEmpty_iff.mpr hc) rfl
  | .byClass n, c, ps, _, _, hc =>
      @grow_class ns c (piece ns (.token (.delim '.'))) (piece ns (.token (.ident n))) ps n
        (List.isEmpty_iff.mpr hc) rfl rfl
  | .byAttribute a, c, ps, h, _, hc => grow_attribute (List.isEmpty_iff.mpr hc) rfl (attributeSelector_values h)
  | .pseudo p, c, ps, h, hp, hc => by
      have hclass : c.withClass p = c.withSimple (.pseudo p) := if_pos (List.isEmpty_iff.mpr hc)
      rw [← hclass]
      exact grow_pseudo (singleColon_value p h hp)

theorem grow_simples : ∀ (ss : List Simple) {t : Option TypeSelector} {rs : List Simple} {ps : List Piece},
    Simple.AllWellFormed ns ss → (Simple.pseudosIn ss).all Pseudo.isSpelled = true →
    grow ns (.mk t rs []) ((Simple.valuesOf ss).map (piece ns) ++ ps) =
      if (Simple.pseudosIn ss).all Pseudo.isCountable = true then grow ns (.mk t (rs ++ ss) []) ps
      else .error .syntaxError
  | [], t, rs, ps, _, _ => by
      rw [List.append_nil]
      rfl
  | s :: ss, t, rs, ps, h, hp => by
      rw [Simple.pseudosIn, List.all_append, Bool.and_eq_true] at hp
      have hss := @grow_simples ss t (rs ++ [s]) ps h.2 hp.2
      rw [List.append_assoc, List.singleton_append] at hss
      rw [Simple.valuesOf, List.map_append, List.append_assoc, grow_simple s h.1 hp.1 rfl, Simple.pseudosIn,
        List.all_append]
      cases s.pseudos.all Pseudo.isCountable with
      | false => rfl
      | true => exact hss

/-- Behind a pseudo-element, pseudo-classes go to it. -/
theorem grow_classes : ∀ (qs : List PseudoClass) {t : Option TypeSelector} {ss : List Simple}
    {es : List PseudoElement} {n : String} {a : Option (List ComponentValue)} {rs : List PseudoClass}
    {ps : List Piece}, PseudoClass.AllWellFormed ns qs →
    (PseudoClass.pseudosIn qs).all Pseudo.isSpelled = true →
    grow ns (.mk t ss (es ++ [.mk n a rs])) ((PseudoClass.valuesOf qs).map (piece ns) ++ ps) =
      if (PseudoClass.pseudosIn qs).all Pseudo.isCountable = true then
        grow ns (.mk t ss (es ++ [.mk n a (rs ++ qs)])) ps
      else .error .syntaxError
  | [], t, ss, es, n, a, rs, ps, _, _ => by
      rw [List.append_nil]
      rfl
  | q :: qs, t, ss, es, n, a, rs, ps, h, hp => by
      rw [PseudoClass.pseudosIn, List.all_append, Bool.and_eq_true] at hp
      have hqs := @grow_classes qs t ss es n a (rs ++ [q]) ps h.2 hp.2
      rw [List.append_assoc, List.singleton_append] at hqs
      rw [PseudoClass.valuesOf, List.map_cons, List.map_cons, List.cons_append, List.cons_append,
        grow_pseudo (singleColon_value q h.1 hp.1), withClass_append, hqs, PseudoClass.pseudosIn, List.all_append]
      cases q.pseudos.all Pseudo.isCountable <;> rfl

theorem grow_element : ∀ (e : PseudoElement) {t : Option TypeSelector} {ss : List Simple}
    {es : List PseudoElement} {ps : List Piece}, e.WellFormed ns → e.pseudos.all Pseudo.isSpelled = true →
    grow ns (.mk t ss es) (e.values.map (piece ns) ++ ps) =
      if e.pseudos.all Pseudo.isCountable = true then grow ns (.mk t ss (es ++ [e])) ps else .error .syntaxError
  | .mk n (some vs) classes, t, ss, es, ps, _, hp => by cases hp
  | .mk n none classes, t, ss, es, ps, h, hp => by
      rw [PseudoElement.pseudos, List.all_cons, Bool.and_eq_true] at hp
      obtain ⟨hknown, hfold⟩ := h.1 rfl
      have hx : doubleColon (piece ns (.token (.ident n))) = some (.ofElement n none) := by
        show (if _ then _ else _) = _
        rw [hfold, if_pos (by simpa using hknown)]
      exact (grow_doubleColon rfl rfl hx).trans (@grow_classes classes t ss es n none [] ps h.2 hp.2)

theorem grow_elements : ∀ (fs : List PseudoElement) {t : Option TypeSelector} {ss : List Simple}
    {es : List PseudoElement} {ps : List Piece}, PseudoElement.AllWellFormed ns fs →
    (PseudoElement.pseudosIn fs).all Pseudo.isSpelled = true →
    grow ns (.mk t ss es) ((PseudoElement.valuesOf fs).map (piece ns) ++ ps) =
      if (PseudoElement.pseudosIn fs).all Pseudo.isCountable = true then grow ns (.mk t ss (es ++ fs)) ps
      else .error .syntaxError
  | [], t, ss, es, ps, _, _ => by
      rw [List.append_nil]
      rfl
  | f :: fs, t, ss, es, ps, h, hp => by
      rw [PseudoElement.pseudosIn, List.all_append, Bool.and_eq_true] at hp
      have hfs := @grow_elements fs t ss (es ++ [f]) ps h.2 hp.2
      rw [List.append_assoc, List.singleton_append] at hfs
      rw [PseudoElement.valuesOf, List.map_append, List.append_assoc, grow_element f h.1 hp.1, hfs,
        PseudoElement.pseudosIn, List.all_append]
      cases f.pseudos.all Pseudo.isCountable <;> rfl

/-- The values of a compound are read as it. -/
theorem compound_values : ∀ c : Compound, c.WellFormed ns → c.pseudos.all Pseudo.isSpelled = true →
    compound ns (c.values.map (piece ns)) = again c.pseudos c
  | .mk t ss es, ⟨ht, hss, hes, hne⟩, hp => by
      rw [Compound.pseudos, List.all_append, Bool.and_eq_true] at hp
      have helements := @grow_elements es t ss [] [] hes hp.2
      have hsimple := @grow_simples ss t [] ((PseudoElement.valuesOf es).map (piece ns)) hss hp.1
      have huntyped := @untyped_values ns ss es
      have htype : typeSelector ns ((Compound.mk t ss es).values.map (piece ns)) =
          .ok (t, (Simple.valuesOf ss ++ PseudoElement.valuesOf es).map (piece ns)) := by
        cases t with
        | none => exact typeSelector_eq_ok.mpr (.absent huntyped)
        | some t =>
            rw [Compound.values, List.map_append]
            exact typeSelector_values (ht t rfl) huntyped
      rw [List.append_nil] at helements
      rw [List.nil_append, helements, List.nil_append] at hsimple
      rw [compound, htype, again, Compound.pseudos, List.all_append]
      simp only [bind, Except.bind, List.map_append, hsimple, grow]
      cases (Simple.pseudosIn ss).all Pseudo.isCountable with
      | false => rfl
      | true =>
          cases (PseudoElement.pseudosIn es).all Pseudo.isCountable with
          | false => rfl
          | true =>
              simp only [if_true, hne, Bool.false_eq_true, if_false, Bool.and_self]
              rfl

/-- The values of a chain are cut where its combinators are, and the segments are read as it. -/
theorem segments_chain : ∀ k : Chain, k.WellFormed ns → k.pseudos.all Pseudo.isSpelled = true →
    ∃ p ps more, segments (k.values.map (piece ns)) = (p :: ps, more) ∧
      chainOf ns (p :: ps) more = again k.pseudos k
  | .last c, h, hp => by
      have hc := compound_values c h hp
      obtain ⟨v, vs, hvs, -⟩ := c.exists_values h
      have hinner := @foldr_addPiece_inner ns c.values c.isInner_values ([], [])
      rw [List.append_nil] at hinner
      rw [hvs, List.map_cons] at hinner hc
      refine ⟨_, _, [], ?_, chainOf_last hc⟩
      rw [Chain.values, hvs]
      exact hinner
  | .link c j k, ⟨h, hempty, hk⟩, hp => by
      rw [Chain.pseudos, List.all_append, Bool.and_eq_true] at hp
      have hc := compound_values c h hp.1
      obtain ⟨p, ps, more, hsegments, hchain⟩ := segments_chain k hk hp.2
      obtain ⟨v, vs, hvs, -⟩ := c.exists_values h
      have hinner := @foldr_addPiece_inner ns c.values c.isInner_values ([], (j, p :: ps) :: more)
      rw [List.append_nil, hvs, List.map_cons] at hinner
      rw [hvs, List.map_cons] at hc
      refine ⟨_, _, (j, p :: ps) :: more, ?_, chainOf_link hc hempty hchain⟩
      have hcombinator := @foldr_addPiece_combinator ns j (p :: ps) (List.cons_ne_nil _ _) more
      rw [Chain.values, List.map_append, List.map_append, segments, List.foldr_append, List.foldr_append]
      rw [segments] at hsegments
      rw [hsegments, hcombinator, hvs, List.map_cons]
      exact hinner

/-- A selector is read from its values, also behind a blank. -/
theorem readPart_values : ∀ (s : Selector) {mode : SelectorMode}, s.WellFormed ns mode →
    s.pseudos.all Pseudo.isSpelled = true →
    readPart ns mode s.values = again s.pseudos s ∧
      readPart ns mode (.token .blank :: s.values) = again s.pseudos s
  | .mk l k, mode, h, hp => by
      obtain ⟨p, ps, more, hsegments, hchain⟩ := segments_chain k h.1 hp
      refine selector_of_segments h ?_ hchain
      cases l with
      | none => exact hsegments
      | some j =>
          have hj : j ≠ .descendant := fun hj => h.2.1 (congrArg some hj)
          have hsign := @foldr_addPiece_sign ns j hj (p :: ps) (List.cons_ne_nil _ _) more
          rw [Selector.values, List.map_append, segments, List.foldr_append]
          rw [segments] at hsegments
          rw [hsegments, hsign]

/-- The parts of a list are read one by one, the first also behind a blank. -/
theorem parts_valuesOf : ∀ (list : List Selector) {mode : SelectorMode}, list ≠ [] → AllWellFormed ns mode list →
    (pseudosIn list).all Pseudo.isSpelled = true →
    (splitOn isComma (valuesOf list)).map (readPart ns mode) = list.map (fun s => again s.pseudos s) ∧
      (splitOn isComma (.token .blank :: valuesOf list)).map (readPart ns mode) =
        list.map fun s => again s.pseudos s
  | [], _, hne, _, _ => absurd rfl hne
  | [s], mode, _, h, hp => by
      rw [pseudosIn, List.all_append, Bool.and_eq_true] at hp
      obtain ⟨hs, hblank⟩ := readPart_values s h.1 hp.1
      have hcomma := isComma_selector s
      rw [valuesOf, splitOn_of_forall hcomma, splitOn_of_forall (List.forall_mem_cons.mpr ⟨rfl, hcomma⟩)]
      simp only [List.map_cons, List.map_nil, hs, hblank, and_self]
  | s :: s' :: ss, mode, _, h, hp => by
      rw [pseudosIn, List.all_append, Bool.and_eq_true] at hp
      obtain ⟨hs, hblank⟩ := readPart_values s h.1 hp.1
      -- The selectors behind the comma begin with the blank behind it.
      have hrest := (parts_valuesOf (s' :: ss) (List.cons_ne_nil _ _) h.2 hp.2).2
      have hcomma := isComma_selector s
      have hvalues : valuesOf (s :: s' :: ss) =
          s.values ++ .token .comma :: .token .blank :: valuesOf (s' :: ss) := rfl
      rw [hvalues, ← List.cons_append, splitOn_append_cons hcomma rfl,
        splitOn_append_cons (List.forall_mem_cons.mpr ⟨rfl, hcomma⟩) rfl]
      exact ⟨List.cons_eq_cons.mpr ⟨hs, hrest⟩, List.cons_eq_cons.mpr ⟨hblank, hrest⟩⟩

end

/-! ## Written and read -/

/-- A list of selectors that was read from a text is read from its own text again: without raw arguments, and
with names of pseudo-classes and pseudo-elements that stand for themselves.  Only if one of them counts with an
offset of -2147483648 behind a step, nothing is read. -/
theorem listText_read {text : String} {list : List Selector} (h : listOfText ns mode text = some list)
    (hbare : (pseudosIn list).all Pseudo.isBare = true) (hplain : (pseudosIn list).all Pseudo.isPlain = true) :
    listOfText ns mode (listText list) =
      if (pseudosIn list).all Pseudo.isCountable = true then some list else none := by
  obtain ⟨hne, hwf⟩ := wellFormed_listOfText h
  have hspelled : (pseudosIn list).all Pseudo.isSpelled = true := by
    refine List.all_eq_true.mpr fun x hx => ?_
    rw [Pseudo.isSpelled, List.all_eq_true.mp hbare x hx, List.all_eq_true.mp hplain x hx, Bool.and_self]
  rw [listOfText, ofText_listText hne hwf hspelled]
  exact listOfValues_of_parts hne (parts_valuesOf list hne hwf hspelled).1

/-- A list with every kind of part, and one with the offset that is lost. -/
theorem listText_read_page :
    (∃ list, listOfText .empty .relative "> *|a#b.\\31:not([c='d' i], :nth-child(2n+1 of &)) + e::before:hover, f"
        = some list ∧
      listOfText .empty .relative (listText list) = some list) ∧
    ∃ list, listOfText .empty .absolute ":is(:nth-child(n -2147483648))" = some list ∧
      listOfText .empty .absolute (listText list) = none := by
  constructor
  · have hread : (listOfText .empty .relative
        "> *|a#b.\\31:not([c='d' i], :nth-child(2n+1 of &)) + e::before:hover, f").any (fun list =>
          (pseudosIn list).all Pseudo.isBare && (pseudosIn list).all Pseudo.isPlain &&
            (pseudosIn list).all Pseudo.isCountable) = true := by
      decide +kernel
    obtain ⟨list, hlist, hall⟩ := (Option.any_eq_true _ _).mp hread
    rw [Bool.and_eq_true, Bool.and_eq_true] at hall
    exact ⟨list, hlist, (listText_read hlist hall.1.1 hall.1.2).trans (if_pos hall.2)⟩
  · have hread : (listOfText .empty .absolute ":is(:nth-child(n -2147483648))").any (fun list =>
        (pseudosIn list).all Pseudo.isBare && (pseudosIn list).all Pseudo.isPlain &&
          !(pseudosIn list).all Pseudo.isCountable) = true := by
      decide +kernel
    obtain ⟨list, hlist, hall⟩ := (Option.any_eq_true _ _).mp hread
    rw [Bool.and_eq_true, Bool.and_eq_true] at hall
    have hlost := Bool.eq_false_iff.mp ((Bool.not_eq_true' _).mp hall.2)
    exact ⟨list, hlist, (listText_read hlist hall.1.1 hall.1.2).trans (if_neg hlost)⟩

/-- A name with a vendor's mark is written without its escapes, and not read back. -/
theorem listText_not_read :
    ¬ ∀ (ns : Namespaces) (mode : SelectorMode) (text : String) (list : List Selector),
      listOfText ns mode text = some list → (pseudosIn list).all Pseudo.isBare = true →
      listOfText ns mode (listText list) = some list := by
  intro h
  have hread : (listOfText .empty .absolute ":-webkit-a\\.b").any (fun list =>
      (pseudosIn list).all Pseudo.isBare && !(pseudosIn list).all Pseudo.isPlain &&
        (listOfText .empty .absolute (listText list)).all fun back => (pseudosIn back).all Pseudo.isPlain) = true := by
    decide +kernel
  obtain ⟨list, hlist, hall⟩ := (Option.any_eq_true _ _).mp hread
  rw [Bool.and_eq_true, Bool.and_eq_true] at hall
  obtain ⟨⟨hbare, hplain⟩, hback⟩ := hall
  rw [h _ _ _ list hlist hbare, Option.all_some] at hback
  rw [hback] at hplain
  cases hplain

end StyleTree.Selector
