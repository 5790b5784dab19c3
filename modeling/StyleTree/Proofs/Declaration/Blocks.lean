/-
# `Proofs.Declaration.Blocks` — a block and its text

A block is written one declaration behind the other, and what one of them
says can spill over into the next: by an open string or comment, by an open
bracket, or by a semicolon in its value.  A value is sealed if it has none
of these (`isSealed`), and a name is plain if it needs no escapes.

If that is so of all declarations, then one declaration is read for each
that was written, with its name (`split_joined`), and the block is what is
read if and only if the grammar takes each value as it stands
(`readsBack_iff`).
-/
import Mathlib.Data.List.Basic
import StyleTree.Rule.Draft
import StyleTree.Proofs.Declaration.Names
import StyleTree.Proofs.ComponentValue.Runs
import StyleTree.Proofs.Statement.Splitting
import StyleTree.Proofs.ComponentValue.Nesting
import StyleTree.Proofs.Token.Locality

namespace StyleTree

open ComponentValue Statement

variable {g : ValueGrammar} {b : DeclarationBlock} {s : String}

/-! ## Runs of values -/

/-- The text ends in a semicolon that is outside of all strings, comments and brackets. -/
def isClosed (s : String) : Bool :=
  Scan.endsInSemicolon s.toList && (ofText s).getLast?.any isSemicolon

theorem ofText_of_isClosed (h : isClosed s = true) : ofText s = (ofText s).dropLast ++ [.token .semicolon] := by
  rw [isClosed, Bool.and_eq_true, Option.any_eq_true] at h
  obtain ⟨-, v, hlast, hv⟩ := h
  obtain rfl := eq_semicolon hv
  obtain ⟨vs, hvs⟩ := List.getLast?_eq_some_iff.mp hlast
  rw [hvs, List.dropLast_concat]

/-- Behind a closed text, what follows is read for itself. -/
theorem split_append_of_isClosed (h : isClosed s = true) (t : String) :
    split .declarations (ofText (s ++ t)) = split .declarations (ofText s) ++ split .declarations (ofText t) := by
  have hs := ofText_of_isClosed h
  rw [isClosed, Bool.and_eq_true] at h
  have hvalues : ofText (s ++ t) = ofText s ++ ofText t := by
    unfold ofText at hs ⊢
    rw [String.toList_append, Scan.scan_append ((Scan.endsInSemicolon_eq _).symm.trans h.1), nest_append (stack_of_concat hs)]
  rw [hvalues, hs, List.append_assoc, List.singleton_append]
  exact split_append_of_semicolon (by decide) _ (ofText t)

/-- Blanks in front of a text are values in front of its values. -/
theorem nest_blank {d : Char} (hd : Scan.isBlank d = true) (cs : List Char) :
    nest [] [] (Lexeme.scan (d :: cs)) = .token .blank :: nest [] [] (Lexeme.scan (Scan.skipBlanks cs)) := by
  rw [Lexeme.scan_cons, Scan.next_blank hd, Option.toList_some, List.singleton_append, nest_token]

theorem nest_skipBlanks (cs : List Char) :
    ∃ bs : List ComponentValue, (∀ v ∈ bs, v.isBlank = true) ∧
      nest [] [] (Lexeme.scan cs) = bs ++ nest [] [] (Lexeme.scan (Scan.skipBlanks cs)) := by
  cases cs with
  | nil => exact ⟨[], List.forall_mem_nil _, rfl⟩
  | cons d cs =>
      rw [Scan.skipBlanks, List.dropWhile_cons]
      split
      · next hd => exact ⟨[.token .blank], List.forall_mem_singleton.mpr rfl, nest_blank hd cs⟩
      · exact ⟨[], List.forall_mem_nil _, rfl⟩

theorem split_append_of_isBlank {bs : List ComponentValue} (h : ∀ v ∈ bs, v.isBlank = true)
    (vs : List ComponentValue) : split .declarations (bs ++ vs) = split .declarations vs := by
  induction bs with
  | nil => rfl
  | cons v bs ih =>
      obtain ⟨hv, h⟩ := List.forall_mem_cons.mp h
      have hskip : isSkipped .declarations v = true := by
        unfold isBlank at hv
        split at hv
        · rfl
        · cases hv
      rw [List.cons_append, split, nextItem_skipped hskip]
      exact ih h

/-- A blank in front of a text changes nothing. -/
theorem split_blank (t : String) :
    split .declarations (ofText (" " ++ t)) = split .declarations (ofText t) := by
  obtain ⟨bs, hbs, ht⟩ := nest_skipBlanks t.toList
  have hblank : (" " ++ t).toList = ' ' :: t.toList := String.toList_append
  unfold ofText
  rw [hblank, nest_blank rfl, ht, split_append_of_isBlank hbs]
  exact split_append_of_isBlank (List.forall_mem_singleton.mpr rfl) _

/-! ## One declaration -/

/-- The value of a declaration as it is written behind the name and the colon. -/
def DeclaredValue.tail (v : DeclaredValue) : String :=
  v.text ++ (if v.important then " !important;" else ";")

/-- What is read behind the colon, up to the semicolon. -/
def DeclaredValue.values (v : DeclaredValue) : List ComponentValue := (ofText v.tail).dropLast

/-- The value ends at its own semicolon: no string, comment or bracket is left open in it, and it has no
other semicolon outside of brackets. -/
def DeclaredValue.isSealed (v : DeclaredValue) : Bool :=
  isClosed v.tail && v.values.all (!·.isSemicolon)

/-- The declaration that is read where an entry was written. -/
def WrittenDeclaration.ofEntry (e : String × DeclaredValue) : WrittenDeclaration :=
  let v := splitImportance e.2.values
  ⟨e.1, v.1, v.2⟩

namespace DeclarationBlock

variable {e : String × DeclaredValue}

theorem toList_entryText (e : String × DeclaredValue) :
    (entryText e).toList = e.1.toList ++ ':' :: ' ' :: e.2.tail.toList := by
  have hcolon : (": " : String).toList = [':', ' '] := rfl
  rw [entryText, String.append_assoc, ← DeclaredValue.tail, String.toList_append, String.toList_append, hcolon,
    List.append_assoc]
  rfl

/-- The scan of an entry comes to its value. -/
theorem scan_entryText (hname : isPlainName e.1 = true) :
    Lexeme.scan (entryText e).toList =
      .token (.ident e.1) :: .token .colon :: Lexeme.scan (' ' :: e.2.tail.toList) := by
  obtain ⟨d, ds, hds, hnext⟩ := next_of_isPlainName hname (' ' :: e.2.tail.toList)
  rw [toList_entryText, hds, Lexeme.scan_cons, hnext, Lexeme.scan_cons]
  rfl

theorem endsIn_entryText (hname : isPlainName e.1 = true) (h : Scan.endsIn ';' e.2.tail.toList = true) :
    Scan.endsIn ';' (entryText e).toList = true := by
  obtain ⟨d, ds, hds, hnext⟩ := next_of_isPlainName hname (' ' :: e.2.tail.toList)
  have hvalue : Scan.endsIn ';' (' ' :: e.2.tail.toList) = true := by
    refine Scan.endsIn_of_next ?_
    rw [Scan.next_blank rfl]
    exact Scan.endsIn_skipBlanks h
  rw [toList_entryText, hds]
  refine Scan.endsIn_of_next ?_
  rw [hnext]
  exact Scan.endsIn_of_next hvalue

/-- The values of an entry: its name, a colon and the values of its tail, but for the blanks in front. -/
theorem ofText_entryText (hname : isPlainName e.1 = true) (hclosed : isClosed e.2.tail = true) :
    ∃ bs us, (∀ v ∈ bs, v.isBlank = true) ∧ e.2.values = bs ++ us ∧
      ofText (entryText e) =
        .token (.ident e.1) :: .token .colon :: .token .blank :: us ++ [.token .semicolon] := by
  obtain ⟨bs, hbs, htail⟩ := nest_skipBlanks e.2.tail.toList
  have hvalues : ofText e.2.tail = e.2.values ++ [.token .semicolon] := ofText_of_isClosed hclosed
  rw [ofText, htail] at hvalues
  have hentry : ofText (entryText e) = .token (.ident e.1) :: .token .colon :: .token .blank ::
      nest [] [] (Lexeme.scan (Scan.skipBlanks e.2.tail.toList)) := by
    rw [ofText, scan_entryText hname, nest_token, nest_token, nest_blank rfl]
  rw [hentry]
  generalize nest [] [] (Lexeme.scan (Scan.skipBlanks e.2.tail.toList)) = vs at hvalues ⊢
  rcases List.eq_nil_or_concat vs with rfl | ⟨us, u, rfl⟩
  · rw [List.append_nil] at hvalues
    have hblank := hbs (.token .semicolon) (hvalues ▸ List.mem_append_right _ List.mem_cons_self)
    cases hblank
  · rw [List.concat_eq_append, ← List.append_assoc] at hvalues
    obtain ⟨hbsus, hu⟩ := List.append_inj' hvalues rfl
    cases hu
    refine ⟨bs, us, hbs, hbsus.symm, ?_⟩
    rw [List.concat_eq_append]
    rfl

theorem ofValues?_entry {bs us : List ComponentValue} (hbs : ∀ v ∈ bs, v.isBlank = true)
    (hvalues : e.2.values = bs ++ us) :
    WrittenDeclaration.ofValues? (.token (.ident e.1) :: .token .colon :: .token .blank :: us) =
      some (.ofEntry e) := by
  have htrim : trim (.token .blank :: us) = trim e.2.values := by
    rw [hvalues, trim_append_of_isBlank hbs]
    exact trim_append_of_isBlank (List.forall_mem_singleton.mpr rfl) us
  have hsplit : WrittenDeclaration.splitImportance (.token .blank :: us) =
      WrittenDeclaration.splitImportance e.2.values := by
    rw [WrittenDeclaration.splitImportance, WrittenDeclaration.splitImportance, htrim]
  show some _ = some _
  rw [hsplit, WrittenDeclaration.ofEntry]

/-- An entry with a plain name and a sealed value is closed, and read as one declaration. -/
theorem split_entryText (hname : isPlainName e.1 = true) (hv : e.2.isSealed = true) :
    isClosed (entryText e) = true ∧
      split .declarations (ofText (entryText e)) = [.declaration (.ofEntry e)] := by
  rw [DeclaredValue.isSealed, Bool.and_eq_true, List.all_eq_true] at hv
  obtain ⟨hclosed, hplain⟩ := hv
  obtain ⟨bs, us, hbs, hvalues, hentry⟩ := ofText_entryText hname hclosed
  have hus : ∀ v ∈ .token .colon :: .token .blank :: us, v.isSemicolon = false := by
    refine List.forall_mem_cons.mpr ⟨rfl, List.forall_mem_cons.mpr ⟨rfl, fun v hv => ?_⟩⟩
    simpa using hplain v (hvalues ▸ List.mem_append_right _ hv)
  constructor
  · rw [isClosed, Bool.and_eq_true, Scan.endsInSemicolon_eq] at hclosed ⊢
    refine ⟨endsIn_entryText hname hclosed.1, ?_⟩
    rw [hentry, List.getLast?_concat]
    rfl
  · have hpiece : Piece .declarations (ofText (entryText e)) (some (.declaration (.ofEntry e))) := by
      rw [hentry, ← Option.map_some, ← ofValues?_entry hbs hvalues]
      exact .declaration rfl hus
    have hsplit := split_piece hpiece []
    rw [List.append_nil] at hsplit
    rw [hsplit, split]
    rfl

/-! ## A block and its text -/

/-- What is read from the text of the block are declarations, and they make the block. -/
def ReadsBack (g : ValueGrammar) (b : DeclarationBlock) : Prop :=
  (∀ item ∈ split .declarations (ofText b.text), ∃ d, item = .declaration d) ∧
    (empty b.context).declareAll g ((split .declarations (ofText b.text)).filterMap Item.declaration?) = b

/-- No declaration of the block spills over: names that are not of the table are plain, and all values are
sealed. -/
def IsSealed (b : DeclarationBlock) : Prop :=
  ∀ e ∈ b.entries, (isCustomProperty e.1 = true → isPlainName e.1 = true) ∧ e.2.isSealed = true

instance (b : DeclarationBlock) : Decidable b.IsSealed :=
  inferInstanceAs (Decidable (∀ e ∈ b.entries, _))

/-- The grammar takes the value as it stands: the same text and importance. -/
def IsReread (g : ValueGrammar) (c : DeclarationContext) (e : String × DeclaredValue) : Prop :=
  g e.1 c (WrittenDeclaration.ofEntry e).value = some e.2.text ∧
    (WrittenDeclaration.ofEntry e).important = e.2.important

instance (g : ValueGrammar) (c : DeclarationContext) (e : String × DeclaredValue) : Decidable (IsReread g c e) :=
  inferInstanceAs (Decidable (_ ∧ _))

/-- The block holds what may be declared in its context, each name once and in canonical order. -/
structure IsRegular (b : DeclarationBlock) : Prop where
  sorted : SortedMap.Sorted b.context.precedes b.entries
  canonical : ∀ e ∈ b.entries, canonicalName e.1 = e.1
  known : ∀ e ∈ b.entries, ValueGrammar.knows b.context e.1 = true
  important : ∀ e ∈ b.entries, e.2.important = true → b.context.admitsImportance = true

/-- One declaration is read for each entry, with its name. -/
theorem split_joined (es : List (String × DeclaredValue))
    (h : ∀ e ∈ es, isPlainName e.1 = true ∧ e.2.isSealed = true) :
    split .declarations (ofText (Text.joined " " (es.map entryText))) =
      es.map fun e => .declaration (.ofEntry e) := by
  induction es with
  | nil => rw [List.map_nil, Text.joined, ofText_empty, split, List.map_nil]
  | cons e es ih =>
      obtain ⟨⟨hname, hv⟩, hrest⟩ := List.forall_mem_cons.mp h
      obtain ⟨hclosed, he⟩ := split_entryText hname hv
      -- A last declaration has nothing behind it, not even a blank.
      cases es with
      | nil => exact he
      | cons e' es =>
          have hcons : (e' :: es).map entryText ≠ [] := List.cons_ne_nil _ _
          rw [List.map_cons, Text.joined, String.append_assoc, split_append_of_isClosed hclosed, split_blank, he,
            ih hrest]
          · rfl
          · exact hcons

/-- Of the declarations those that are valid are inserted, one after the other. -/
theorem declareAll_eq (g : ValueGrammar) (ds : List WrittenDeclaration) : ∀ b : DeclarationBlock,
    b.declareAll g ds =
      ⟨b.context, (ds.filterMap fun d => g.validate? b.context d.name d.value d.important).foldl
        (fun m e => SortedMap.insert b.context.precedes e.1 e.2 m) b.entries⟩ := by
  induction ds with
  | nil => exact fun b => rfl
  | cons d ds ih =>
      intro b
      rw [declareAll, List.foldl_cons, ← declareAll, List.filterMap_cons]
      cases hd : g.validate? b.context d.name d.value d.important with
      | none =>
          have hdeclare : b.declare? g d = none := by rw [declare?, hd, Option.map_none]
          rw [hdeclare]
          exact ih b
      | some e =>
          have hdeclare : b.declare? g d = some (b.insert e.1 e.2) := by rw [declare?, hd, Option.map_some]
          have he : canonicalName e.1 = e.1 := ValueGrammar.canonicalName_of_validate? hd
          rw [hdeclare, Option.getD_some, ih, insert, he, List.foldl_cons]

/-- The valid declaration that is read where an entry was written, if there is one. -/
def reread? (g : ValueGrammar) (c : DeclarationContext) (e : String × DeclaredValue) :
    Option (String × DeclaredValue) :=
  let d := WrittenDeclaration.ofEntry e
  g.validate? c d.name d.value d.important

/-- In a regular block, that is the entry itself if and only if the grammar takes the value as it stands. -/
theorem IsRegular.reread?_eq_some (h : b.IsRegular) {e : String × DeclaredValue} (he : e ∈ b.entries) :
    reread? g b.context e = some e ↔ IsReread g b.context e := by
  rw [reread?, ValueGrammar.validate?_eq_some]
  constructor
  · rintro ⟨-, himportant, -, -, ht⟩
    exact ⟨ht, himportant.symm⟩
  · rintro ⟨ht, himportant⟩
    exact ⟨(h.canonical e he).symm, himportant.symm, h.known e he, himportant ▸ h.important e he, ht⟩

theorem IsRegular.isPlainName (h : b.IsRegular) (hsealed : b.IsSealed) {e : String × DeclaredValue}
    (he : e ∈ b.entries) : isPlainName e.1 = true := by
  have hknown := h.known e he
  rw [ValueGrammar.knows] at hknown
  split at hknown
  · next hcustom => exact (hsealed e he).1 hcustom
  · exact Table.isPlainName_of_isRecognized hknown

/-- What is read of a regular block stands in the order in which it was written. -/
theorem IsRegular.declareAll_ofEntry (h : b.IsRegular) (g : ValueGrammar) :
    (empty b.context).declareAll g (b.entries.map .ofEntry) =
      ⟨b.context, b.entries.filterMap (reread? g b.context)⟩ := by
  rw [declareAll_eq, List.filterMap_map, empty]
  refine congrArg _ (SortedMap.foldl_insert b.context.orders_precedes _ [] ?_)
  refine (List.Pairwise.and_mem.mp h.sorted).filterMap _ ?_
  -- a name that is valid is that of the entry
  rintro e₁ e₂ ⟨h₁, h₂, hlt⟩ d₁ hd₁ d₂ hd₂
  have hd₁ : d₁.1 = canonicalName e₁.1 := (ValueGrammar.validate?_eq_some.mp hd₁).1
  have hd₂ : d₂.1 = canonicalName e₂.1 := (ValueGrammar.validate?_eq_some.mp hd₂).1
  rw [h.canonical e₁ h₁] at hd₁
  rw [h.canonical e₂ h₂] at hd₂
  show b.context.precedes d₁.1 d₂.1 = true
  rw [hd₁, hd₂]
  exact hlt

/-- A regular block that is sealed is read back if and only if the grammar takes each value as it stands. -/
theorem readsBack_iff (h : b.IsRegular) (hsealed : b.IsSealed) :
    split .declarations (ofText b.text) = b.entries.map (fun e => .declaration (.ofEntry e)) ∧
      (b.ReadsBack g ↔ ∀ e ∈ b.entries, IsReread g b.context e) := by
  have hitems : split .declarations (ofText b.text) = b.entries.map (fun e => .declaration (.ofEntry e)) :=
    split_joined b.entries fun e he => ⟨h.isPlainName hsealed he, (hsealed e he).2⟩
  have hdeclarations : (b.entries.map (fun e => Item.declaration (.ofEntry e))).filterMap Item.declaration? =
      b.entries.map .ofEntry := by
    rw [List.filterMap_map]
    exact congrFun List.filterMap_eq_map _
  have hread : b.ReadsBack g ↔ (empty b.context).declareAll g (b.entries.map .ofEntry) = b := by
    rw [ReadsBack, hitems, hdeclarations]
    refine and_iff_right fun item hitem => ?_
    obtain ⟨e, -, rfl⟩ := List.mem_map.mp hitem
    exact ⟨_, rfl⟩
  have hentries : (⟨b.context, b.entries.filterMap (reread? g b.context)⟩ : DeclarationBlock) = b ↔
      b.entries.filterMap (reread? g b.context) = b.entries.map id := by
    rw [List.map_id]
    exact ⟨congrArg entries, congrArg (DeclarationBlock.mk b.context)⟩
  refine ⟨hitems, ?_⟩
  rw [hread, h.declareAll_ofEntry g, hentries, List.filterMap_eq_map_iff_forall_eq_some]
  exact forall₂_congr fun e he => h.reread?_eq_some he

end DeclarationBlock

end StyleTree
