/-
# `Proofs.Feature.Text` — a map of feature values and its text

A map is written as a block, and the block is read as the body of a rule
for feature values.  Between the two stand the values that are read
(`bodyValues`): for each entry its name, a colon and its numbers, up to a
semicolon.  Every name is escaped, and every name that is not empty is read
back.

An empty name has no escape.  An entry without a name is no declaration,
and the reader gives it up at its semicolon, so that the entries behind it
are read all the same.  What is read is the map without that entry
(`children_text`): it is the map that was written if and only if no name is
empty.
-/
import StyleTree.Proofs.ComponentValue.Lexemes
import StyleTree.Proofs.Declaration.Blocks
import StyleTree.Proofs.Feature.Values
import StyleTree.Proofs.Rule.Features
import StyleTree.Proofs.Statement.Texts

namespace StyleTree

open ComponentValue Statement Scan

namespace FeatureValues

variable {m m' : FeatureValues} {e : String × List Nat} {es : List (String × List Nat)} {ns : List Nat}
  {rest : List Char}

/-! ## Maps that edits make -/

/-- The maps of a kind of feature that edits make out of an empty one, under names free of U+0000. -/
inductive Made (f : FeatureType) : FeatureValues → Prop
  | empty : Made f (.empty f)
  | set {m m' : FeatureValues} {name : String} {values : List Nat} :
      Made f m → Text.IsClean name → m.set name values = .ok m' → Made f m'
  | declare {m m' : FeatureValues} {d : WrittenDeclaration} :
      Made f m → Text.IsClean d.name → m.declare? d = some m' → Made f m'
  | erase {m : FeatureValues} (name : String) : Made f m → Made f (m.erase name)
  | merge {m m' : FeatureValues} : Made f m → Made f m' → Made f (m.merge m')

/-- What all such maps have. -/
structure IsWritable (f : FeatureType) (m : FeatureValues) : Prop where
  feature : m.feature = f
  lawful : m.IsLawful
  clean : ∀ e ∈ m.entries, Text.IsClean e.1

theorem IsWritable.put {f : FeatureType} (h : m.IsWritable f) {name : String} {values : List Nat}
    (hname : Text.IsClean name) (hv : m.feature.accepts values = true) : (m.put name values).IsWritable f where
  feature := h.feature
  lawful := h.lawful.put hv name
  clean e he := by
    rcases SortedMap.mem_insert he with rfl | he
    · exact hname
    · exact h.clean e he

theorem IsWritable.merge {f : FeatureType} (h : m.IsWritable f) (h' : m'.IsWritable f) :
    (m.merge m').IsWritable f where
  feature := (feature_merge m m').trans h.feature
  lawful := h.lawful.merge h'.lawful (h.feature.trans h'.feature.symm)
  clean := names_merge h.clean h'.clean

theorem Made.isWritable {f : FeatureType} (h : Made f m) : m.IsWritable f := by
  induction h with
  | empty => exact ⟨rfl, isLawful_empty f, List.forall_mem_nil _⟩
  | set _ hname hset ih =>
      obtain ⟨hv, rfl⟩ := set_eq_ok.mp hset
      exact ih.put hname hv
  | declare _ hname hd ih =>
      obtain ⟨vs, -, -, hvs, rfl⟩ := declare?_eq_some.mp hd
      exact ih.put hname hvs
  | erase name _ ih =>
      exact ⟨ih.feature, ih.lawful.erase name, fun e he => ih.clean e (List.mem_filter.mp he).1⟩
  | merge _ _ ih ih' => exact ih.merge ih'

/-- No kind of feature accepts a number above 99. -/
theorem le_of_accepts {f : FeatureType} (h : f.accepts ns = true) : ∀ n ∈ ns, n ≤ 99 := by
  intro n hn
  have hbound : ∀ k, ns.all (· ≤ k) = true → k ≤ 99 → n ≤ 99 := fun k hall hk =>
    Nat.le_trans (of_decide_eq_true (List.all_eq_true.mp hall n hn)) hk
  unfold FeatureType.accepts at h
  split at h
  · exact hbound 99 (Bool.and_eq_true_iff.mp h).2 (Nat.le_refl _)
  · exact hbound 20 (Bool.and_eq_true_iff.mp h).2 (by decide)
  · exact hbound 99 (Bool.and_eq_true_iff.mp h).2 (Nat.le_refl _)

/-! ## The values that are read -/

/-- A number as it is read. -/
def numberOf (n : Nat) : ComponentValue := .token (.number (integer none n))

/-- Numbers, each behind a blank. -/
def numbersOf (ns : List Nat) : List ComponentValue := ns.flatMap fun n => [.token .blank, numberOf n]

/-- The name of an entry, unless it is empty. -/
def nameOf (name : String) : List ComponentValue := if name = "" then [] else [.token (.ident name)]

/-- An entry as it is read, with the blank in front of it. -/
def entryValues (e : String × List Nat) : List ComponentValue :=
  .token .blank :: (nameOf e.1 ++ .token .colon :: (numbersOf e.2 ++ [.token .semicolon]))

/-- The contents of the block that a map is written as. -/
def bodyValues (es : List (String × List Nat)) : List ComponentValue :=
  es.flatMap entryValues ++ if es.isEmpty then [] else [.token .blank]

/-- Numbers as text, each behind a blank. -/
def writtenNumbers (ns : List Nat) : List Char := ns.flatMap fun n => ' ' :: Number.numeral n

theorem toList_entryText (e : String × List Nat) :
    (entryText e).toList = ' ' :: ((Text.identifier e.1).toList ++ ':' :: (writtenNumbers e.2 ++ [';'])) := by
  have hnumbers : (Text.joined "" (e.2.map fun v => " " ++ String.ofList (Number.numeral v))).toList =
      writtenNumbers e.2 := by
    rw [Text.toList_joined, List.flatMap_map, writtenNumbers]
    refine List.flatMap_congr fun n _ => ?_
    have hblank : (" " : String).toList = [' '] := rfl
    rw [String.toList_append, hblank, String.toList_ofList, List.singleton_append]
  rw [entryText, String.toList_append, String.toList_append, String.toList_append, String.toList_append, hnumbers]
  simp

/-! ## Scanning -/

/-- Behind a number stands a blank or the semicolon. -/
theorem scan_numbers (ns : List Nat) (rest : List Char) :
    Lexeme.scan (writtenNumbers ns ++ ';' :: rest) =
      lexemesOf (numbersOf ns ++ [.token .semicolon]) ++ Lexeme.scan rest := by
  induction ns with
  | nil => exact scan_of_next rfl
  | cons n ns ih =>
      have hends : ∃ c cs, writtenNumbers ns ++ ';' :: rest = c :: cs ∧ (c = ' ' ∨ c = ';') := by
        cases ns with
        | nil => exact ⟨';', rest, rfl, Or.inr rfl⟩
        | cons n' ns => exact ⟨' ', _, rfl, Or.inl rfl⟩
      obtain ⟨c, cs, hcs, hc⟩ := hends
      have hnumber : Lexeme.scan (spelled none n ++ (writtenNumbers ns ++ ';' :: rest)) =
          .token (.number (integer none n)) :: Lexeme.scan (writtenNumbers ns ++ ';' :: rest) := by
        rw [hcs]
        refine scan_number none n ?_ ?_ ?_
        all_goals rcases hc with rfl | rfl
        · exact ⟨rfl, by decide, by decide, by decide⟩
        · exact ⟨rfl, by decide, by decide, by decide⟩
        · rfl
        · rfl
        · rintro _ ⟨⟩
        · rintro _ ⟨⟩
      have htext : writtenNumbers (n :: ns) ++ ';' :: rest =
          ' ' :: (spelled none n ++ (writtenNumbers ns ++ ';' :: rest)) := by
        rw [writtenNumbers, List.flatMap_cons, List.append_assoc]
        rfl
      rw [htext, scan_blank (by rw [hnumber]; rintro _ ⟨⟩), hnumber, ih]
      rfl

theorem scan_entry (hclean : Text.IsClean e.1) (rest : List Char) :
    Lexeme.scan ((entryText e).toList ++ rest) = lexemesOf (entryValues e) ++ Lexeme.scan rest := by
  have hcolon : Lexeme.scan (':' :: (writtenNumbers e.2 ++ ';' :: rest)) =
      .token .colon :: (lexemesOf (numbersOf e.2 ++ [.token .semicolon]) ++ Lexeme.scan rest) := by
    rw [← scan_numbers]
    exact scan_of_next rfl
  have hname : Lexeme.scan ((Text.identifier e.1).toList ++ ':' :: (writtenNumbers e.2 ++ ';' :: rest)) =
      lexemesOf (nameOf e.1) ++
        .token .colon :: (lexemesOf (numbersOf e.2 ++ [.token .semicolon]) ++ Lexeme.scan rest) := by
    rw [nameOf]
    by_cases hempty : e.1 = ""
    · rw [if_pos hempty, hempty]
      exact hcolon
    · have hends : EndsName (':' :: (writtenNumbers e.2 ++ ';' :: rest)) :=
        ⟨⟨rfl, by decide⟩, by rintro _ ⟨⟩, by rintro _ ⟨⟩⟩
      rw [if_neg hempty, scan_identifier ⟨hempty, hclean⟩ hends, hcolon]
      rfl
  have htext : (entryText e).toList ++ rest =
      ' ' :: ((Text.identifier e.1).toList ++ ':' :: (writtenNumbers e.2 ++ ';' :: rest)) := by
    rw [toList_entryText]
    simp
  have hblank : ∀ ls, Lexeme.scan ((Text.identifier e.1).toList ++ ':' :: (writtenNumbers e.2 ++ ';' :: rest)) ≠
      .token .blank :: ls := by
    rw [hname, nameOf]
    split <;> rintro _ ⟨⟩
  rw [htext, scan_blank hblank, hname, entryValues]
  simp only [lexemesOf, lexemes, lexemesOf_append, List.append_assoc, List.cons_append, List.nil_append]

theorem scan_entries (hclean : ∀ e ∈ es, Text.IsClean e.1) (rest : List Char) :
    Lexeme.scan ((Text.joined "" (es.map entryText)).toList ++ rest) =
      lexemesOf (es.flatMap entryValues) ++ Lexeme.scan rest := by
  rw [Text.toList_joined, List.flatMap_map]
  induction es with
  | nil => rfl
  | cons e es ih =>
      obtain ⟨he, hes⟩ := List.forall_mem_cons.mp hclean
      rw [List.flatMap_cons, List.flatMap_cons, List.append_assoc, scan_entry he, ih hes, lexemesOf_append,
        List.append_assoc]

/-! ## The block -/

theorem writeIdentifier_feature (f : FeatureType) : Text.writeIdentifier f.name.toList = f.name.toList := by
  cases f <;> decide

theorem isName_feature (f : FeatureType) : Text.IsName f.name := by
  cases f <;> exact ⟨by decide, by unfold Text.IsClean; decide⟩

/-- The values that a map is written as. -/
def textValues (m : FeatureValues) : List ComponentValue :=
  [.token (.atKeyword m.feature.name), .token .blank, .block (.bracket .curly) (bodyValues m.entries)]

theorem scan_text (hclean : ∀ e ∈ m.entries, Text.IsClean e.1) (rest : List Char) :
    Lexeme.scan (m.text.toList ++ rest) = lexemesOf (textValues m) ++ Lexeme.scan rest := by
  have hend : Lexeme.scan ((if m.entries.isEmpty then "\x7d" else " \x7d").toList ++ rest) =
      lexemesOf (if m.entries.isEmpty then [] else [.token .blank]) ++ .token (.close .curly) :: Lexeme.scan rest := by
    cases m.entries.isEmpty with
    | true => exact scan_closing rest
    | false =>
        have hblank : Lexeme.scan (' ' :: '\x7d' :: rest) = .token .blank :: Lexeme.scan ('\x7d' :: rest) :=
          scan_blank (by rw [scan_closing]; rintro _ ⟨⟩)
        rw [scan_closing] at hblank
        exact hblank
  have htext : m.text.toList ++ rest = '@' :: (Text.writeIdentifier m.feature.name.toList ++ ' ' :: '\x7b' ::
      ((Text.joined "" (m.entries.map entryText)).toList ++
        ((if m.entries.isEmpty then "\x7d" else " \x7d").toList ++ rest))) := by
    rw [text, writeIdentifier_feature]
    simp
  have hstops : ∀ cs, Stops (' ' :: cs) := fun _ => ⟨rfl, by decide⟩
  have hcloser : Opener.closer (.bracket .curly) = .curly := rfl
  rw [htext, scan_at_write (isName_feature _) (hstops _), scan_opening, scan_entries hclean, hend, textValues,
    bodyValues]
  simp only [lexemesOf, lexemes, lexemesOf_append, hcloser, List.append_assoc, List.cons_append, List.nil_append]

theorem eq_token_of_mem_bodyValues {v : ComponentValue} (h : v ∈ bodyValues es) :
    ∃ t, v = .token t ∧ ∀ b, t ≠ .close b := by
  have hblank : ∃ t, (.token .blank : ComponentValue) = .token t ∧ ∀ b, t ≠ .close b := ⟨_, rfl, by rintro _ ⟨⟩⟩
  rcases List.mem_append.mp h with h | h
  · obtain ⟨e, -, h⟩ := List.mem_flatMap.mp h
    simp only [entryValues, nameOf, numbersOf, numberOf, List.mem_cons, List.mem_append, List.mem_flatMap] at h
    grind
  · split at h
    · cases h
    · rwa [List.mem_singleton.mp h]

/-- The text of a map is read as one block behind the name of its kind. -/
theorem spells_text (hclean : ∀ e ∈ m.entries, Text.IsClean e.1) (form : ContentForm) :
    Spells form m.text (textValues m) [.rule ⟨some m.feature.name, [], some (bodyValues m.entries)⟩] where
  reads rest _ := scan_text hclean rest
  first := ⟨_, rfl, by rintro ⟨⟩⟩
  closed := by
    have hbody : Enclosable (bodyValues m.entries) := by
      refine ⟨sealedAll_of_closesNothing _ (eachOf_iff.mpr fun v hv => ?_), fun hmem => ?_⟩
      · obtain ⟨t, rfl, ht⟩ := eq_token_of_mem_bodyValues hv
        rintro b hb
        cases hb
        exact ht b rfl
      · obtain ⟨t, ht, hne⟩ := eq_token_of_mem_bodyValues hmem
        cases ht
        exact hne _ rfl
    exact enclosable_cons.mpr ⟨enclosable_token (by rintro ⟨⟩), enclosable_cons.mpr
      ⟨enclosable_token (by rintro ⟨⟩), hbody.block⟩⟩
  split us := by
    have hplain : Plain true [.token .blank] := plain_cons.mpr ⟨⟨by rintro _ ⟨⟩, rfl⟩, List.forall_mem_nil _⟩
    have hpiece : Piece form (textValues m)
        (some (.rule ⟨some m.feature.name, trim [.token .blank], some (bodyValues m.entries)⟩)) := .atBlock hplain
    exact split_piece hpiece us

/-! ## Reading the block -/

/-- The declaration that an entry is read as, if its name is not empty. -/
def declarationOf (e : String × List Nat) : WrittenDeclaration := ⟨e.1, trim (numbersOf e.2), false⟩

theorem eq_of_mem_numbersOf {v : ComponentValue} (h : v ∈ numbersOf ns) :
    v = .token .blank ∨ ∃ n ∈ ns, v = numberOf n := by
  obtain ⟨n, hn, h⟩ := List.mem_flatMap.mp h
  rcases List.mem_cons.mp h with rfl | h
  · exact .inl rfl
  · exact .inr ⟨n, hn, List.mem_singleton.mp h⟩

theorem plain_numbersOf (ns : List Nat) : ∀ v ∈ numbersOf ns, v.isSemicolon = false := by
  intro v hv
  rcases eq_of_mem_numbersOf hv with rfl | ⟨n, -, rfl⟩ <;> rfl

theorem split_entry (e : String × List Nat) (vs : List ComponentValue) :
    split .declarations (entryValues e ++ vs) =
      (if e.1 = "" then [] else [.declaration (declarationOf e)]) ++ split .declarations vs := by
  have hblank : Piece .declarations [.token .blank] none := .skipped rfl
  have hnumbers : ∀ v ∈ .token .colon :: numbersOf e.2, v.isSemicolon = false :=
    List.forall_mem_cons.mpr ⟨rfl, plain_numbersOf e.2⟩
  rw [entryValues, List.cons_append, ← List.singleton_append, split_piece hblank, nameOf]
  by_cases hempty : e.1 = ""
  · -- a run that starts with a colon is given up at its semicolon
    have hpiece : Piece .declarations (.token .colon :: (numbersOf e.2 ++ [.token .semicolon])) none := by
      have hplain : Plain true (.token .colon :: numbersOf e.2) := by
        refine plain_cons.mpr ⟨⟨by rintro _ ⟨⟩, rfl⟩, fun v hv => ?_⟩
        rcases eq_of_mem_numbersOf hv with rfl | ⟨n, -, rfl⟩ <;> exact ⟨by rintro _ ⟨⟩, rfl⟩
      exact .givenUp ⟨rfl, by rintro _ ⟨⟩, rfl⟩ rfl rfl hplain
    rw [if_pos hempty, if_pos hempty, List.nil_append, split_piece hpiece]
    rfl
  · have hpiece : Piece .declarations
        (.token (.ident e.1) :: (.token .colon :: numbersOf e.2 ++ [.token .semicolon]))
        (some (.declaration (declarationOf e))) := by
      have hvalue : WrittenDeclaration.ofValues? (.token (.ident e.1) :: .token .colon :: numbersOf e.2) =
          some (declarationOf e) := by
        show some _ = some _
        rw [splitImportance_of_no_word fun v hv => ?_, declarationOf]
        rcases eq_of_mem_numbersOf hv with rfl | ⟨n, -, rfl⟩ <;> rfl
      rw [← Option.map_some, ← hvalue]
      exact .declaration rfl hnumbers
    rw [if_neg hempty, if_neg hempty]
    exact split_piece hpiece vs

/-- The entries that have a name are read as declarations, and nothing else is. -/
theorem split_bodyValues (es : List (String × List Nat)) :
    split .declarations (bodyValues es) =
      (es.filter (·.1 ≠ "")).map fun e => .declaration (declarationOf e) := by
  have hend : split .declarations (if es.isEmpty then [] else [.token .blank]) = [] := by
    split
    · rw [Statement.split]
    · rw [Statement.split, nextItem_skipped rfl, Statement.split]
      rfl
  have hentries : ∀ vs, split .declarations (es.flatMap entryValues ++ vs) =
      ((es.filter (·.1 ≠ "")).map fun e => .declaration (declarationOf e)) ++ split .declarations vs := by
    intro vs
    clear hend
    induction es with
    | nil => rfl
    | cons e es ih =>
        rw [List.flatMap_cons, List.append_assoc, split_entry, ih]
        by_cases hempty : e.1 = ""
        · rw [if_pos hempty, List.filter_cons_of_neg (by simpa using hempty), List.nil_append]
        · rw [if_neg hempty, List.filter_cons_of_pos (by simpa using hempty)]
          rfl
  rw [bodyValues, hentries, hend, List.append_nil]

theorem value?_numberOf {n : Nat} (h : n ≤ 99) : value? (numberOf n) = some n := by
  have hint : (integer none n).int = some (n : Int) := by
    rw [int_integer, if_neg (by rintro ⟨⟩), min_eq_left (by omega)]
  have hsigned : (integer none n).signed = false := signed_integer none n
  rw [numberOf]
  generalize integer none n = k at hint hsigned
  obtain ⟨v, i, signed⟩ := k
  cases hint
  cases hsigned
  rw [value?, if_pos (Int.natCast_nonneg n), Int.toNat_natCast]

/-- Numbers that a kind of feature accepts are read as they were written. -/
theorem ofValues?_declarationOf (h : ∀ n ∈ e.2, n ≤ 99) : ofValues? (declarationOf e).value = some e.2 := by
  have hvalues : withoutBlanks (numbersOf e.2) = e.2.map numberOf := by
    rw [numbersOf, withoutBlanks, List.filter_flatMap, List.map_eq_flatMap]
    rfl
  rw [ofValues?, declarationOf, withoutBlanks_trim, hvalues]
  generalize e.2 = ns at h
  induction ns with
  | nil => rfl
  | cons n ns ih =>
      obtain ⟨hn, hns⟩ := List.forall_mem_cons.mp h
      rw [List.map_cons, List.mapM_cons, value?_numberOf hn, ih hns]
      rfl

/-- What entries are read as puts them into the map, one after the other. -/
theorem declareAll_declarationOf (h : ∀ e ∈ es, m.feature.accepts e.2 = true) :
    m.declareAll (es.map declarationOf) =
      { m with entries := es.foldl (fun es e => SortedMap.insert (· < ·) e.1 e.2 es) m.entries } := by
  induction es generalizing m with
  | nil => rfl
  | cons e es ih =>
      obtain ⟨he, hes⟩ := List.forall_mem_cons.mp h
      have hvalues := ofValues?_declarationOf (le_of_accepts he)
      have hdeclare : m.declare? (declarationOf e) = some (m.put e.1 e.2) := by
        refine declare?_eq_some.mpr ⟨e.2, ?_, hvalues, he, rfl⟩
        rw [FeatureType.admits, hvalues]
        exact he
      rw [List.map_cons, declareAll, List.foldl_cons, hdeclare]
      exact ih (m := m.put e.1 e.2) hes

/-- What is read of a map is the map without the entry that has no name. -/
theorem declareAll_erase {f : FeatureType} (h : m.IsWritable f) :
    (empty f).declareAll ((m.entries.filter (·.1 ≠ "")).map declarationOf) = m.erase "" := by
  have hlawful := h.lawful.erase ""
  have haccepts : ∀ e ∈ m.entries.filter (·.1 ≠ ""), (empty f).feature.accepts e.2 = true := by
    intro e he
    have hf : (empty f).feature = m.feature := h.feature.symm
    rw [hf]
    exact hlawful.accepted e he
  rw [declareAll_declarationOf haccepts, empty]
  simp only
  rw [SortedMap.foldl_insert SortedMap.orders_string _ [] hlawful.sorted, List.nil_append, erase, SortedMap.erase,
    ← h.feature]

end FeatureValues

namespace Draft

open FeatureValues

/-- The name of a kind of feature, with a block behind it, starts an empty map of that kind. -/
theorem read_feature (f : FeatureType) (vs : List ComponentValue) (ns : Namespaces) :
    (⟨some f.name, [], some vs⟩ : Statement).read .fontFeatureValues ns = .ok (.featureBlock (.empty f)) := by
  have hkind : AtRule.kindOf (AtRule.canonicalName f.name) true = .ok .featureBlock := by
    cases f <;> decide +kernel
  have hfeature : FeatureType.ofName? f.name = some f := by cases f <;> decide
  refine Statement.read_eq_ok.mpr ⟨hkind, rfl, ?_⟩
  show (FeatureType.ofName? f.name).bind _ = _
  rw [hfeature]
  rfl

theorem writtenFeatures?_statement (f : FeatureType) (es : List (String × List Nat)) (ns : Namespaces) :
    writtenFeatures? ns (.rule ⟨some f.name, [], some (bodyValues es)⟩) =
      some ⟨f, (es.filter (·.1 ≠ "")).map declarationOf⟩ := by
  have hdeclarations : ((⟨some f.name, [], some (bodyValues es)⟩ : Statement).items .declarations).filterMap
      Item.declaration? = (es.filter (·.1 ≠ "")).map declarationOf := by
    show (split .declarations (bodyValues es)).filterMap Item.declaration? = _
    rw [split_bodyValues, List.filterMap_map]
    exact congrFun List.filterMap_eq_map _
  rw [writtenFeatures?, read_feature]
  exact congrArg (fun ds => some (WrittenFeatures.mk f ds)) hdeclarations

/-- The text of a map, read in the body of a rule for feature values, is one block of its kind. -/
theorem writtenFeatures?_text {f : FeatureType} {m : FeatureValues} (h : m.IsWritable f) (ns : Namespaces) :
    (split .declarations (ComponentValue.ofText m.text)).filterMap (writtenFeatures? ns) =
      [⟨f, (m.entries.filter (·.1 ≠ "")).map declarationOf⟩] := by
  rw [(spells_text h.clean .declarations).split_ofText, h.feature,
    List.filterMap_cons_some (writtenFeatures?_statement f m.entries ns), List.filterMap_nil]

theorem blocksOf_singleton (f : FeatureType) (ds : List WrittenDeclaration) :
    blocksOf (gathered [⟨f, ds⟩]) FeatureType.all = [((FeatureValues.empty f).declareAll ds).tree] := by
  have hgathered : gathered [⟨f, ds⟩] =
      Function.update (fun _ => none) f (some ((FeatureValues.empty f).declareAll ds)) := gathered_concat [] ⟨f, ds⟩
  rw [hgathered]
  cases f <;> rfl

end Draft

namespace FeatureValues

variable {m m' : FeatureValues}

theorem erase_eq_self_iff (m : FeatureValues) (name : String) : m.erase name = m ↔ m.get? name = none := by
  constructor
  · intro h
    rw [← h]
    exact SortedMap.find?_erase name m.entries
  · intro h
    rw [get?, SortedMap.find?, Option.map_eq_none_iff, List.find?_eq_none] at h
    have hentries : SortedMap.erase name m.entries = m.entries :=
      SortedMap.erase_of_ne fun e he => by simpa using h e he
    rw [erase, hentries]

/-- What is read of the text of a map is one block of its kind, with the entries that have a name. -/
theorem children_text {f : FeatureType} (h : m.IsWritable f) (o : ReadOptions) (ns : Namespaces) (c : RuleContext)
    (families : List FamilyName) {st : Statement} (hst : st.block = some (ofText m.text)) :
    (Draft.ofStatement o ns c (.fontFeatureValues families) st).tree.children = [(m.erase "").tree] := by
  have hitems : st.items .fontFeatureValues = split .declarations (ofText m.text) := by
    rw [Statement.items, hst]
    rfl
  rw [Draft.children_ofStatement_features, hitems, Draft.writtenFeatures?_text h, Draft.blocksOf_singleton,
    declareAll_erase h]

theorem tree_inj (h : [m.tree] = [m'.tree]) : m = m' := by
  have hfeatures := congrArg (fun ts => ts.head?.bind fun t : Tree Rule => t.value.head.features?) h
  exact Option.some.inj hfeatures

/-- The text of a map that edits made, read as the body of a rule for feature values, is one block of the same kind,
with the entries that have a name.  So it is the map itself if and only if no name is empty. -/
theorem text_reads_back_iff {f : FeatureType} (h : Made f m) (o : ReadOptions) (ns : Namespaces)
    (c : RuleContext) (families : List FamilyName) (st : Statement) (hst : st.block = some (ofText m.text)) :
    let read := (Draft.ofStatement o ns c (.fontFeatureValues families) st).tree.children
    read = [(m.erase "").tree] ∧ (read = [m.tree] ↔ m.get? "" = none) := by
  intro read
  have hread : read = [(m.erase "").tree] := children_text h.isWritable o ns c families hst
  refine ⟨hread, ?_⟩
  rw [hread, ← erase_eq_self_iff]
  exact ⟨tree_inj, fun herase => by rw [herase]⟩

/-- Two names that need escapes are read back, an empty name is not. -/
theorem text_reads_back_iff_escaped :
    let m : FeatureValues := ⟨.styleset, [("-", [1, 20]), ("a:b;", [0])]⟩
    let read := fun m : FeatureValues => (Draft.ofStatement ⟨.basic, false⟩ .empty .stylesheet (.fontFeatureValues [])
      ⟨some "font-feature-values", [], some (ofText m.text)⟩).tree.children
    read m = [m.tree] ∧ read (m.put "" [7]) = [m.tree] := by
  intro m read
  have hclean : ∀ name : String, '\x00' ∉ name.toList → Text.IsClean name := fun _ h => h
  have hone : Made .styleset ⟨.styleset, [("a:b;", [0])]⟩ :=
    .set .empty (hclean "a:b;" (by decide)) (show (empty .styleset).set "a:b;" [0] = .ok _ from rfl)
  have hm : Made .styleset m :=
    .set hone (hclean "-" (by decide)) (show set _ "-" [1, 20] = .ok _ from rfl)
  have hput : Made .styleset (m.put "" [7]) := .set hm (hclean "" (by decide)) (show m.set "" [7] = .ok _ from rfl)
  refine ⟨(text_reads_back_iff hm _ _ _ _ _ rfl).2.mpr (by decide), ?_⟩
  exact (text_reads_back_iff hput _ _ _ _ _ rfl).1

/-- A name may be empty, and then the entry is lost in the text. -/
theorem not_text_reads_back :
    ¬ ∀ (f : FeatureType) (m : FeatureValues), Made f m → ∀ st : Statement, st.block = some (ofText m.text) →
      (Draft.ofStatement ⟨.basic, false⟩ .empty .stylesheet (.fontFeatureValues []) st).tree.children = [m.tree] := by
  intro h
  have hclean : Text.IsClean "" := List.not_mem_nil
  have hm : Made .swash ⟨.swash, [("", [1])]⟩ :=
    .set .empty hclean (show (empty .swash).set "" [1] = .ok _ from rfl)
  let st : Statement := ⟨none, [], some (ofText (FeatureValues.text ⟨.swash, [("", [1])]⟩))⟩
  have hst : st.block = some (ofText (FeatureValues.text ⟨.swash, [("", [1])]⟩)) := rfl
  have hread := children_text hm.isWritable ⟨.basic, false⟩ .empty .stylesheet [] hst
  exact absurd (tree_inj (hread.symm.trans (h _ _ hm st hst))) (by decide)

end FeatureValues

end StyleTree
