/-
# `Proofs.Condition.Writable` — conditions can be written and read back

What a condition is written as (`canon`) is made of the values that were
read: names in lower case, normalised contents of functions, single blanks.
So it can be written and read back as values (`writable_canon`), as long as
no address without quotes is left in it and no two blanks come together.

The contents of parentheses are a condition again, a declaration or a
feature, or as they stood; each of them can be written where it was read
(`replaces_canon`, `replaces_declared`, `replaces_tidiedInside`).
-/
import StyleTree.Proofs.ComponentValue.Writable
import StyleTree.Proofs.Condition.Enclosed

namespace StyleTree.Condition

open ComponentValue Lexeme

variable {g : Vocabulary} {e : List ComponentValue → List ComponentValue} {n : String} {d : WrittenDeclaration}
  {v : ComponentValue} {vs ws us : List ComponentValue} {o : Opener}

theorem toLower_eq_zero {c : Char} : c.toLower = '\x00' ↔ c = '\x00' := by
  rcases Nat.lt_or_ge c.toNat 128 with h | h
  · exact Scan.ascii_forall (P := fun c => c.toLower = '\x00' ↔ c = '\x00') (by decide +kernel) h
  · rw [toLower_of_le h]

/-- A name in lower case is a name. -/
theorem isName_foldCase (h : Text.IsName n) : Text.IsName (Text.foldCase n) where
  nonempty hempty := by
    rw [← String.toList_eq_nil_iff, Text.foldCase, String.toList_ofList, List.map_eq_nil_iff] at hempty
    exact h.toList_ne_nil hempty
  clean hmem := by
    rw [Text.foldCase, String.toList_ofList] at hmem
    obtain ⟨c, hc, hzero⟩ := List.mem_map.mp hmem
    exact h.clean (toLower_eq_zero.mp hzero ▸ hc)

/-! ## Runs with single blanks -/

theorem head?_spread (ws : List ComponentValue) : (spread ws).head? = ws.head? := by
  cases ws with
  | nil => rfl
  | cons v ws => cases ws <;> rfl

theorem getLast?_spread (ws : List ComponentValue) : (spread ws).getLast? = ws.getLast? := by
  induction ws with
  | nil => rfl
  | cons v ws ih =>
      cases ws with
      | nil => rfl
      | cons u us =>
          have hfirst : ∃ rest, spread (u :: us) = u :: rest := by
            cases us with
            | nil => exact ⟨[], rfl⟩
            | cons w us => exact ⟨_, rfl⟩
          obtain ⟨rest, hrest⟩ := hfirst
          show (v :: .token .blank :: spread (u :: us)).getLast? = _
          rw [hrest] at ih ⊢
          rw [List.getLast?_cons_cons, List.getLast?_cons_cons, List.getLast?_cons_cons, ih]

theorem trim_spread (h : ∀ v ∈ ws, v.isBlank = false) : trim (spread ws) = spread ws :=
  trim_of_ends (fun v hv => h v (List.mem_of_mem_head? (head?_spread ws ▸ hv)))
    fun v hv => h v (List.mem_of_mem_getLast? (getLast?_spread ws ▸ hv))

theorem mem_spread {v : ComponentValue} (h : v ∈ spread ws) : v ∈ ws ∨ v = .token .blank := by
  induction ws with
  | nil => cases h
  | cons u ws ih =>
      cases ws with
      | nil => exact Or.inl h
      | cons w ws =>
          rcases List.mem_cons.mp h with rfl | h
          · exact Or.inl List.mem_cons_self
          rcases List.mem_cons.mp h with rfl | h
          · exact Or.inr rfl
          · exact (ih h).imp_left (List.mem_cons_of_mem u)

theorem isBlank_of_mem_canonEach {g : Vocabulary} {e : List ComponentValue → List ComponentValue} {v : ComponentValue}
    (h : v ∈ canonEach g e vs) : v.isBlank = false := by
  rw [canonEach_eq_map] at h
  obtain ⟨u, hu, rfl⟩ := List.mem_map.mp h
  rw [isBlank_canon]
  simpa using (List.mem_filter.mp hu).2

theorem subset_spread (ws : List ComponentValue) : ws ⊆ spread ws := by
  induction ws with
  | nil => exact List.Subset.refl _
  | cons v ws ih =>
      cases ws with
      | nil => exact List.Subset.refl _
      | cons u us => exact List.cons_subset_cons v (List.subset_cons_of_subset _ ih)

/-- Values that can be written can be written with single blanks in between. -/
theorem writable_spread (hws : ∀ v ∈ ws, Writable v) : ∀ v ∈ spread ws, Writable v := by
  intro v hv
  rcases mem_spread hv with hv | rfl
  · exact hws v hv
  · exact writable_blank

/-! ## Values that are kept as they stood -/

/-- A block with normalised contents can be written; its function may have another name. -/
theorem writable_block_tidied {p : Opener} (h : Fresh (.block o vs)) (hp : (Lexeme.opening p).Legible)
    (hurl : OpensUrl (.opening p) → OpensUrl (.opening o)) (hcloser : p.closer = o.closer) :
    Writable (.block p (tidied vs)) :=
  writable_block hp (fun hopens => head?_layOut_of_startsQuoted vs (h.quotes.1 (hurl hopens)))
    (by rw [hcloser]; exact h.closed.1) (replaces_tidied fun _ hv => h.of_mem hv) (isChain_layOut _ _)

theorem writable_tidyInside (h : Fresh v) (hurl : ∀ u, v ≠ .token (.url u)) : Writable (tidyInside v) := by
  cases v with
  | token t => exact writable_token h.legible fun u hu => hurl u (congrArg _ hu)
  | block o vs => exact writable_block_tidied h h.legible.1 id rfl

theorem mem_of_tidyInside {t : Token} (h : tidyInside v = .token t) : v = .token t := by
  cases v with
  | token x => exact h
  | block o vs => cases h

theorem replaces_tidiedInside (h : ∀ v ∈ vs, Fresh v) (hclear : Clear (lexemesOf (tidiedInside vs))) :
    Replaces (tidiedInside vs) vs where
  writable v hv := by
    have hkept : ∀ u, v ≠ .token (.url u) := by
      rintro u rfl
      exact (hclear.of_mem hv).address u (List.mem_singleton_self _)
    rcases mem_layOut hv with hv | rfl
    · obtain ⟨w, hw, rfl⟩ := List.mem_map.mp hv
      exact writable_tidyInside (h w hw) fun u hu => hkept u (by rw [hu]; rfl)
    · exact writable_blank
  close b hb := by
    rcases mem_layOut hb with hb | hb
    · obtain ⟨w, hw, hclose⟩ := List.mem_map.mp hb
      exact mem_of_tidyInside hclose ▸ hw
    · cases hb

/-! ## Canonical values -/

/-- What `e` gives for what the vocabulary reads in parentheses can be written there. -/
def Renders (e : List ComponentValue → List ComponentValue) : Prop :=
  ∀ vs, (∀ v ∈ vs, Fresh v) → Replaces (e vs) vs

theorem eq_of_canon_close {b : Bracket} (h : canon g e v = .token (.close b)) : v = .token (.close b) := by
  cases v with
  | token t => cases t <;> first | exact h | cases h
  | block o vs =>
      cases o with
      | function n => cases h
      | bracket r => cases r <;> cases h

/-- The values of a run that can be written one by one can be written as a condition. -/
theorem replaces_canonEach (h : ∀ v ∈ vs, Writable (canon g e v)) : Replaces (spread (canonEach g e vs)) vs := by
  have hmem : ∀ v ∈ canonEach g e vs, ∃ u ∈ vs, canon g e u = v := by
    intro v hv
    rw [canonEach_eq_map] at hv
    obtain ⟨u, hu, hcanon⟩ := List.mem_map.mp hv
    exact ⟨u, List.mem_of_mem_filter hu, hcanon⟩
  refine ⟨writable_spread fun v hv => ?_, fun b hb => ?_⟩
  · obtain ⟨u, hu, rfl⟩ := hmem v hv
    exact h u hu
  · rcases mem_spread hb with hb | hb
    · obtain ⟨u, hu, hclose⟩ := hmem _ hb
      exact eq_of_canon_close hclose ▸ hu
    · cases hb

theorem mem_canonEach (hv : v ∈ vs) (hblank : v.isBlank = false) : canon g e v ∈ canonEach g e vs := by
  rw [canonEach_eq_map]
  exact List.mem_map_of_mem (List.mem_filter.mpr ⟨hv, by rw [hblank]; rfl⟩)

theorem opensUrl_of_foldCase (h : OpensUrl (.opening (.function (Text.foldCase n)))) :
    OpensUrl (.opening (.function n)) := by
  obtain ⟨m, hm, hurl⟩ := h
  cases hm
  exact ⟨n, rfl, by rwa [sameWord_foldCase] at hurl⟩

theorem writable_canon_token {t : Token} (h : Fresh (.token t)) (hclear : Clear (lexemes (canon g e (.token t)))) :
    Writable (canon g e (.token t)) := by
  have hne : ∀ u, t ≠ .url u := by
    rintro u rfl
    exact hclear.address u (List.mem_singleton_self _)
  cases t with
  | ident n => exact writable_ident (isName_foldCase h.legible)
  | _ => exact writable_token h.legible hne

theorem writable_canon_function (h : Fresh (.block (.function n) vs)) :
    Writable (canon g e (.block (.function n) vs)) := by
  rw [canon]
  split
  · exact writable_block_tidied h (isName_foldCase h.legible.1) opensUrl_of_foldCase rfl
  · exact writable_block_tidied h h.legible.1 id rfl

mutual

/-- A value can be written as a condition writes it. -/
theorem writable_canon (he : Renders e) : ∀ v : ComponentValue, Fresh v → Clear (lexemes (canon g e v)) →
    Writable (canon g e v)
  | .token _ => writable_canon_token
  | .block o vs => fun h hclear => by
      have hfresh : ∀ v ∈ vs, Fresh v := fun v hv => h.of_mem hv
      cases o with
      | function n => exact writable_canon_function h
      | bracket b =>
          cases b with
          | square => exact writable_block_tidied h trivial id rfl
          | curly => exact writable_block_tidied h trivial id rfl
          | round =>
              rw [canon] at hclear ⊢
              have hinside := hclear.inside
              refine writable_block trivial (by rintro ⟨m, hm, -⟩; cases hm) h.closed.1 ?_ hinside.spaced
              by_cases hcondition : (ofValues? g true vs).isSome = true
              · rw [if_pos hcondition] at hinside ⊢
                exact replaces_canonEach (writable_canonEach he vs hfresh fun v hv hblank =>
                  hinside.of_mem (subset_spread _ (mem_canonEach hv hblank)))
              rw [if_neg hcondition] at hinside ⊢
              by_cases henclosed : (g.enclosed vs).isSome = true
              · rw [if_pos henclosed]
                exact he vs hfresh
              · rw [if_neg henclosed] at hinside ⊢
                exact replaces_tidiedInside hfresh hinside

theorem writable_canonEach (he : Renders e) : ∀ vs : List ComponentValue, (∀ v ∈ vs, Fresh v) →
    (∀ v ∈ vs, v.isBlank = false → Clear (lexemes (canon g e v))) → ∀ v ∈ vs, Writable (canon g e v)
  | [] => fun _ _ v hv => absurd hv List.not_mem_nil
  | v :: vs => fun h hclear => by
      obtain ⟨hv, hvs⟩ := List.forall_mem_cons.mp h
      obtain ⟨hvclear, hvsclear⟩ := List.forall_mem_cons.mp hclear
      refine List.forall_mem_cons.mpr ⟨?_, writable_canonEach he vs hvs hvsclear⟩
      cases hblank : v.isBlank with
      | true =>
          rw [isBlank_iff.mp hblank]
          exact writable_blank
      | false => exact writable_canon he v hv (hvclear hblank)

end

/-- A condition that was read can be written where it was read. -/
theorem replaces_canon (he : Renders e) (h : ∀ v ∈ vs, Fresh v)
    (hclear : Clear (lexemesOf (spread (canonEach g e vs)))) :
    Replaces (spread (canonEach g e vs)) vs :=
  replaces_canonEach (writable_canonEach he vs h fun _ hv hblank =>
    hclear.of_mem (subset_spread _ (mem_canonEach hv hblank)))

/-! ## Declarations and features -/

/-- The name and the value of a declaration are among its values. -/
theorem mem_of_declaration (h : WrittenDeclaration.ofValues? vs = some d) :
    (.token (.ident d.name) : ComponentValue) ∈ vs ∧ ∀ v ∈ d.value, v ∈ vs := by
  obtain ⟨rest, value, hname, hcolon, hvalue⟩ := declaration_iff.mp h
  have hrest : ∀ v ∈ .token (.ident d.name) :: rest, v ∈ vs := fun v hv =>
    (List.dropWhile_sublist _).subset (hname ▸ hv)
  have hbehind : ∀ v ∈ .token .colon :: value, v ∈ rest := fun v hv =>
    (List.dropWhile_sublist _).subset (hcolon ▸ hv)
  refine ⟨hrest _ List.mem_cons_self, fun v hv => ?_⟩
  have hmem : v ∈ (WrittenDeclaration.splitImportance value).1 := by rwa [hvalue]
  exact hrest v (List.mem_cons_of_mem _ (hbehind v (List.mem_cons_of_mem _ (mem_of_mem_splitImportance hmem))))

theorem writable_importance : ∀ v ∈ importance, Writable v := by
  simp only [importance, List.forall_mem_cons, List.not_mem_nil, false_implies, implies_true, and_true]
  exact ⟨writable_blank, writable_token ⟨rfl, rfl, rfl, rfl, rfl⟩ (by rintro u ⟨⟩), writable_ident (by decide)⟩

theorem replaces_declared {name : String} (hname : Text.IsName name) (h : ∀ v ∈ d.value, Fresh v) :
    Replaces (declared name d) d.value := by
  have hvalue := replaces_tidied h
  have hcolon : Writable (.token .colon) := writable_token trivial (by rintro u ⟨⟩)
  have hwritable : ∀ v ∈ tidied d.value ++ if d.important then importance else [], Writable v := by
    intro v hv
    refine (List.mem_append.mp hv).elim (hvalue.writable v) fun hv => ?_
    split at hv
    · exact writable_importance v hv
    · cases hv
  refine ⟨?_, fun b hb => ?_⟩
  · simpa only [declared, List.forall_mem_cons] using ⟨writable_ident hname, hcolon, writable_blank, hwritable⟩
  · refine hvalue.close b ?_
    unfold declared at hb
    split at hb <;> simpa [importance] using hb

/-- A declaration that was read can be written where it was read. -/
theorem replaces_of_declaration {name : String → String} (hname : ∀ n, Text.IsName n → Text.IsName (name n))
    (h : ∀ v ∈ vs, Fresh v) (hd : WrittenDeclaration.ofValues? (trim vs) = some d) :
    Replaces (declared (name d.name) d) vs := by
  obtain ⟨hident, hvalue⟩ := mem_of_declaration hd
  have hlegible : Text.IsName d.name := (h _ (mem_of_mem_trim hident)).legible
  exact (replaces_declared (hname _ hlegible) fun v hv => h v (mem_of_mem_trim (hvalue v hv))).mono
    fun v hv => mem_of_mem_trim (hvalue v hv)

theorem isName_declaredName (h : Text.IsName n) : Text.IsName (declaredName n) := by
  unfold declaredName
  split
  · exact h
  · exact isName_foldCase h

theorem renders_declarationValues : Renders declarationValues := by
  intro vs h
  unfold declarationValues
  split
  · next hd => exact replaces_of_declaration (fun _ => isName_declaredName) h hd
  · exact ⟨fun _ hv => absurd hv List.not_mem_nil, by rintro b ⟨⟩⟩

theorem renders_featureValues : Renders featureValues := by
  intro vs h
  have htrim : ∀ v ∈ trim vs, v ∈ vs := fun v hv => mem_of_mem_trim hv
  unfold featureValues
  split
  · next n hone =>
      have hident : Fresh (.token (.ident n)) := h _ (htrim _ (hone ▸ List.mem_singleton_self _))
      refine ⟨fun v hv => ?_, fun b hb => ?_⟩
      · rw [List.mem_singleton.mp hv]
        exact writable_ident (isName_foldCase hident.legible)
      · cases List.mem_singleton.mp hb
  · split
    · next hd => exact replaces_of_declaration (fun _ => isName_foldCase) h hd
    · exact (replaces_tidied fun v hv => h v (htrim v hv)).mono htrim

end StyleTree.Condition
