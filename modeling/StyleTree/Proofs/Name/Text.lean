/-
# `Proofs.Name.Text` — names of layers, pages and families read back

Layers, pages and font families are written as identifiers and strings with
separators between them: a point, a colon, a blank, or a comma with a blank.
Each is written as the text of some values (`isPrelude_text`), which are read
as what they came from (`ofValues?_values`); lists between commas are read
member by member (`mapM_commaParts`).  What the text is written on the
understanding of holds of every name that was read: it has passed the checks
of its production (`IsValid`) and can be written (`IsLegible`).
-/
import StyleTree.Proofs.Condition.Queries
import StyleTree.Proofs.Rule.Productions
import StyleTree.Proofs.Statement.Preludes

namespace StyleTree

open ComponentValue Scan

variable {vs : List ComponentValue} {rest : List Char}

theorem MediaList.separated_eq (parts : List (List ComponentValue)) :
    separated parts = [.token .comma, .token .blank].intercalate parts := by
  induction parts with
  | nil => rfl
  | cons p parts ih =>
      cases parts with
      | nil => rw [separated, List.intercalate_singleton]
      | cons q parts => rw [separated, ih, List.intercalate_cons_cons, List.append_assoc]; rfl

/-- Members of a list are read between commas as each is read alone. -/
theorem ComponentValue.mapM_commaParts_map {α β : Type} {xs : List α} {b : α → List ComponentValue}
    {f : List ComponentValue → Option β} {g : α → β} (hne : xs ≠ [])
    (hxs : ∀ x ∈ xs, f (b x) = some (g x) ∧ trim (b x) = b x ∧ ∀ v ∈ b x, v.isComma = false) :
    (commaParts ([.token .comma, .token .blank].intercalate (xs.map b))).mapM f = some (xs.map g) := by
  have hparts : commaParts ([.token .comma, .token .blank].intercalate (xs.map b)) = xs.map b := by
    rw [← MediaList.separated_eq]
    refine MediaList.commaParts_separated (fun hnil => hne (List.map_eq_nil_iff.mp hnil)) fun p hp => ?_
    obtain ⟨x, hx, rfl⟩ := List.mem_map.mp hp
    exact (hxs x hx).2
  rw [hparts]
  clear hne hparts
  induction xs with
  | nil => rfl
  | cons x xs ih =>
      obtain ⟨hx, hxs⟩ := List.forall_mem_cons.mp hxs
      rw [List.map_cons, List.mapM_cons, hx.1, ih hxs]
      rfl

/-- Members of a list are read back between commas if each is read back alone. -/
theorem ComponentValue.mapM_commaParts {α : Type} {xs : List α} {b : α → List ComponentValue}
    {f : List ComponentValue → Option α} (hne : xs ≠ [])
    (hxs : ∀ x ∈ xs, f (b x) = some x ∧ trim (b x) = b x ∧ ∀ v ∈ b x, v.isComma = false) :
    (commaParts ([.token .comma, .token .blank].intercalate (xs.map b))).mapM f = some xs :=
  (mapM_commaParts_map hne hxs).trans (congrArg some (List.map_id' xs))

/-! ## Layers -/

namespace LayerName

variable {n : LayerName}

/-- The names in it can be written and read back. -/
def IsLegible (n : LayerName) : Prop := ∀ s ∈ n.segments, Text.IsName s

/-- The values that a layer is written as. -/
def values (n : LayerName) : List ComponentValue :=
  [.token (.delim '.')].intercalate (n.segments.map fun s => [.token (.ident s)])

theorem values_eq (s : String) (ss : List String) :
    values ⟨s :: ss⟩ = .token (.ident s) :: ss.flatMap fun t => [.token (.delim '.'), .token (.ident t)] := by
  show [ComponentValue.token (.delim '.')].intercalate ([ComponentValue.token (.ident s)] :: _) = _
  rw [intercalate_cons, List.flatMap_map]
  rfl

theorem moreSegments_values {ss : List String} (h : ∀ s ∈ ss, Name.isCustom s = true) :
    moreSegments (ss.flatMap fun t => [.token (.delim '.'), .token (.ident t)]) = some (ss, []) := by
  induction ss with
  | nil => rfl
  | cons s ss ih =>
      obtain ⟨hs, hss⟩ := List.forall_mem_cons.mp h
      have hsegment : segment? (.token (.ident s)) = some s := if_pos hs
      rw [List.flatMap_cons, List.cons_append, List.cons_append, List.nil_append, moreSegments, hsegment]
      simp only [ih hss, Option.map_some]

theorem ofValues?_values (h : n.IsValid) : ofValues? n.values = some n := by
  obtain ⟨segments⟩ := n
  obtain ⟨hne, hcustom⟩ := h
  cases segments with
  | nil => exact absurd rfl hne
  | cons s ss =>
      obtain ⟨hs, hss⟩ := List.forall_mem_cons.mp hcustom
      have hread : production (values ⟨s :: ss⟩) = some (⟨s :: ss⟩, []) := by
        rw [values_eq]
        show (Option.map _ (segment? (.token (.ident s)))).bind _ = _
        rw [segment?, if_pos hs]
        show (moreSegments _).bind _ = _
        rw [moreSegments_values hss]
        rfl
      rw [ofValues?, Production.whole, hread]
      rfl

theorem isPrelude_text (hvalid : n.IsValid) (h : n.IsLegible) : IsPrelude n.text n.values := by
  obtain ⟨segments⟩ := n
  have hreads : ReadsAs (text ⟨segments⟩) (values ⟨segments⟩) := by
    refine readsAs_joined (fun s hs => readsAs_identifier (h s hs)) hvalid.1 (@endsName_cons '.' (by decide))
      fun s hs rest _ => ?_
    exact scan_point (startsWithDigit_of_startsIdentifier (startsIdentifier_identifier (h s hs) rest))
  cases segments with
  | nil => exact absurd rfl hvalid.1
  | cons s ss =>
      have htokens : values ⟨s :: ss⟩ =
          (Token.ident s :: ss.flatMap fun t => [Token.delim '.', Token.ident t]).map .token := by
        rw [values_eq, List.map_cons, List.map_flatMap]
        rfl
      rw [htokens] at hreads ⊢
      refine isPrelude_tokens _ hreads (List.cons_ne_nil _ _) fun t ht => ?_
      rcases List.mem_cons.mp ht with rfl | ht
      · exact ⟨by rintro ⟨⟩, by rintro ⟨⟩, by rintro ⟨⟩⟩
      · obtain ⟨s', -, ht⟩ := List.mem_flatMap.mp ht
        rcases List.mem_cons.mp ht with rfl | ht
        · exact ⟨by rintro ⟨⟩, by rintro ⟨⟩, by rintro ⟨⟩⟩
        · obtain rfl := List.mem_singleton.mp ht
          exact ⟨by rintro ⟨⟩, by rintro ⟨⟩, by rintro ⟨⟩⟩

theorem isComma_values : ∀ v ∈ n.values, v.isComma = false := by
  intro v hv
  rcases mem_intercalate hv with hv | ⟨p, hp, hv⟩
  · rw [List.mem_singleton.mp hv]
    rfl
  · obtain ⟨s, -, rfl⟩ := List.mem_map.mp hp
    rw [List.mem_singleton.mp hv]
    rfl

theorem isName_of_segment? {v : ComponentValue} {s : String} (hv : Each Lexeme.Legible v) (h : segment? v = some s) :
    Text.IsName s := by
  unfold segment? at h
  split at h
  · split at h
    · cases h
      exact hv
    · cases h
  · cases h

theorem isName_of_moreSegments {ss : List String} {left : List ComponentValue} (hvs : EachOf Lexeme.Legible vs)
    (h : moreSegments vs = some (ss, left)) : ∀ s ∈ ss, Text.IsName s := by
  induction vs using moreSegments.induct generalizing ss with
  | case1 v vs s hs ih =>
      rw [moreSegments, hs] at h
      obtain ⟨⟨ss', left'⟩, hmore, h⟩ := Option.map_eq_some_iff.mp h
      cases h
      exact List.forall_mem_cons.mpr ⟨isName_of_segment? hvs.2.1 hs, ih hvs.2.2 hmore⟩
  | case2 v vs hs =>
      rw [moreSegments, hs] at h
      cases h
  | case3 => cases h
  | case4 vs hmore hlast =>
      rw [moreSegments] at h
      · cases h
        exact List.forall_mem_nil _
      · exact hmore
      · exact hlast

theorem isLegible_of_ofValues? (hvs : EachOf Lexeme.Legible vs) (h : ofValues? vs = some n) : n.IsLegible := by
  obtain ⟨left, hread⟩ := Production.exists_of_whole h
  obtain ⟨s, ws, hs, hread⟩ := Production.bind_eq_some.mp hread
  obtain ⟨more, ws', hmore, hread⟩ := Production.bind_eq_some.mp hread
  cases hread
  obtain ⟨v, hv, hsegment, hsub⟩ := Production.exists_of_taken hs
  exact List.forall_mem_cons.mpr ⟨isName_of_segment? (eachOf_iff.mp hvs v hv) hsegment,
    isName_of_moreSegments (hvs.of_subset hsub) hmore⟩

end LayerName

/-! ## Pages -/

namespace PageSelector

variable {p : PageSelector}

/-- The name can be written and read back; the pseudo-classes always can. -/
def IsLegible (p : PageSelector) : Prop := ∀ n ∈ p.name, Text.IsName n

/-- The values that a pseudo-class of pages is written as. -/
def classValues (c : String) : List ComponentValue := [.token .colon, .token (.ident c)]

/-- The values that a page selector is written as. -/
def values (p : PageSelector) : List ComponentValue :=
  p.name.toList.map (fun n => .token (.ident n)) ++ p.pseudoClasses.flatMap classValues

theorem knownClass {c : String} (h : c ∈ knownClasses) :
    Text.IsName c ∧ Text.identifier c = c ∧ Text.foldCase c = c := by
  revert c
  decide

theorem classesOf_values {cs : List String} (h : ∀ c ∈ cs, c ∈ knownClasses) :
    classesOf (cs.flatMap classValues) = some cs := by
  induction cs with
  | nil => rfl
  | cons c cs ih =>
      obtain ⟨hc, hcs⟩ := List.forall_mem_cons.mp h
      rw [List.flatMap_cons, classValues, List.cons_append, List.cons_append, List.nil_append, classesOf]
      simp only [(knownClass hc).2.2, if_pos hc, ih hcs, Option.map_some]

theorem ofValues?_values (h : p.IsValid) : ofValues? p.values = some p := by
  obtain ⟨name, classes⟩ := p
  have hclasses := classesOf_values h.2
  cases name with
  | some n => exact congrArg (Option.map _) hclasses
  | none =>
      cases classes with
      | nil => exact absurd rfl (h.1.resolve_left Bool.false_ne_true)
      | cons c cs => exact congrArg (Option.map _) hclasses

theorem readsAs_class {c : String} (h : c ∈ knownClasses) : ReadsAs (":" ++ c) (classValues c) := by
  intro rest hrest
  obtain ⟨hname, hplain, -⟩ := knownClass h
  have hcolon : Lexeme.scan (':' :: (c.toList ++ rest)) = .token .colon :: Lexeme.scan (c.toList ++ rest) :=
    scan_of_next rfl
  have hident := scan_identifier hname hrest
  rw [hplain] at hident
  rw [String.toList_append, List.append_assoc]
  refine hcolon.trans ?_
  rw [hident]
  rfl

theorem endsName_classes (cs : List String) (hrest : EndsName rest) :
    EndsName ((cs.flatMap fun c => (":" ++ c).toList) ++ rest) := by
  cases cs with
  | nil => exact hrest
  | cons c cs =>
      rw [List.flatMap_cons, String.toList_append, List.append_assoc, List.append_assoc]
      exact @endsName_cons ':' (by decide) _

theorem readsAs_classes {cs : List String} (h : ∀ c ∈ cs, c ∈ knownClasses) :
    ReadsAs (Text.joined "" (cs.map (":" ++ ·))) (cs.flatMap classValues) := by
  intro rest hrest
  rw [Text.toList_joined, List.flatMap_map]
  induction cs with
  | nil => rfl
  | cons c cs ih =>
      obtain ⟨hc, hcs⟩ := List.forall_mem_cons.mp h
      rw [List.flatMap_cons, List.flatMap_cons, List.append_assoc, readsAs_class hc _ (endsName_classes cs hrest), ih hcs,
        lexemesOf_append, List.append_assoc]

theorem isPrelude_text (hvalid : p.IsValid) (h : p.IsLegible) : IsPrelude p.text p.values := by
  obtain ⟨name, classes⟩ := p
  have hclasses := readsAs_classes hvalid.2
  have hreads : ReadsAs (text ⟨name, classes⟩) (values ⟨name, classes⟩) := by
    cases name with
    | none =>
        intro rest hrest
        rw [text, String.toList_append]
        exact hclasses rest hrest
    | some n =>
        refine (readsAs_identifier (h n rfl)).append hclasses fun rest hrest => ?_
        rw [Text.toList_joined, List.flatMap_map]
        exact endsName_classes classes hrest
  have htokens : values ⟨name, classes⟩ =
      (name.toList.map Token.ident ++ classes.flatMap fun c => [Token.colon, Token.ident c]).map .token := by
    rw [values, List.map_append, List.map_map, List.map_flatMap]
    rfl
  rw [htokens] at hreads ⊢
  refine isPrelude_tokens _ hreads ?_ fun t ht => ?_
  · rcases hvalid.1 with hname | hne
    · obtain ⟨n, rfl⟩ := Option.isSome_iff_exists.mp hname
      exact List.cons_ne_nil _ _
    · obtain ⟨c, cs, rfl⟩ := List.exists_cons_of_ne_nil hne
      exact List.append_ne_nil_of_right_ne_nil _ (List.cons_ne_nil _ _)
  · rcases List.mem_append.mp ht with ht | ht
    · obtain ⟨n, -, rfl⟩ := List.mem_map.mp ht
      exact ⟨by rintro ⟨⟩, by rintro ⟨⟩, by rintro ⟨⟩⟩
    · obtain ⟨c, -, ht⟩ := List.mem_flatMap.mp ht
      rcases List.mem_cons.mp ht with rfl | ht
      · exact ⟨by rintro ⟨⟩, by rintro ⟨⟩, by rintro ⟨⟩⟩
      · obtain rfl := List.mem_singleton.mp ht
        exact ⟨by rintro ⟨⟩, by rintro ⟨⟩, by rintro ⟨⟩⟩

theorem isComma_values : ∀ v ∈ p.values, v.isComma = false := by
  intro v hv
  rcases List.mem_append.mp hv with hv | hv
  · obtain ⟨n, -, rfl⟩ := List.mem_map.mp hv
    rfl
  · obtain ⟨c, -, hv⟩ := List.mem_flatMap.mp hv
    rcases List.mem_cons.mp hv with rfl | hv
    · rfl
    · rw [List.mem_singleton.mp hv]
      rfl

theorem isLegible_of_ofValues? (hvs : EachOf Lexeme.Legible vs) (h : ofValues? vs = some p) : p.IsLegible := by
  unfold ofValues? at h
  split at h
  · cases h
  · obtain ⟨cs, -, rfl⟩ := Option.map_eq_some_iff.mp h
    rintro n ⟨⟩
    exact hvs.1
  · obtain ⟨cs, -, rfl⟩ := Option.map_eq_some_iff.mp h
    rintro n ⟨⟩

end PageSelector

/-! ## Families -/

namespace FamilyName

variable {f : FamilyName} {ws : List String}

/-- The names in it can be written and read back. -/
def IsLegible : FamilyName → Prop
  | quoted n => Text.IsClean n
  | words ws => ∀ w ∈ ws, Text.IsName w

/-- The values that a family is written as. -/
def values : FamilyName → List ComponentValue
  | quoted n => [.token (.string n)]
  | words ws => [.token .blank].intercalate (ws.map fun w => [.token (.ident w)])

theorem withoutBlanks_words (ws : List String) :
    withoutBlanks (values (words ws)) = ws.map fun w => .token (.ident w) := by
  have hmore : ∀ us : List String, withoutBlanks (us.flatMap fun w => [.token .blank] ++ [.token (.ident w)]) =
      us.map fun w => .token (.ident w) := by
    intro us
    induction us with
    | nil => rfl
    | cons u us ih =>
        rw [List.flatMap_cons, withoutBlanks_append, ih]
        rfl
  cases ws with
  | nil => rfl
  | cons w ws =>
      rw [values, List.map_cons, intercalate_cons, List.flatMap_map, withoutBlanks_append, hmore]
      rfl

theorem mapM_ident? (ws : List String) :
    (ws.map fun w => ComponentValue.token (.ident w)).mapM ident? = some ws := by
  induction ws with
  | nil => rfl
  | cons w ws ih =>
      rw [List.map_cons, List.mapM_cons, ih]
      rfl

theorem ofWords_of_isValid (h : (words ws).IsValid) : ofWords ws = some (words ws) := by
  cases ws with
  | nil => exact absurd rfl h.1
  | cons w us =>
      cases us with
      | nil => exact if_pos (h.2 w rfl)
      | cons u us => rfl

theorem ofValues?_values (h : f.IsValid) : ofValues? f.values = some f := by
  cases f with
  | quoted n => rfl
  | words ws =>
      have hread : ((withoutBlanks (values (words ws))).mapM ident?).bind ofWords = some (words ws) := by
        rw [withoutBlanks_words, mapM_ident?]
        exact ofWords_of_isValid h
      unfold ofValues?
      split
      · next n hvs =>
          rw [hvs] at hread
          cases hread
      · exact hread

theorem isPrelude_text (hvalid : f.IsValid) (h : f.IsLegible) : IsPrelude f.text f.values := by
  cases f with
  | quoted n => exact isPrelude_quoted h
  | words ws => exact isPrelude_joined (fun w hw => isPrelude_identifier (h w hw)) hvalid.1 (.inl ⟨rfl, rfl⟩)

theorem isComma_values : ∀ v ∈ f.values, v.isComma = false := by
  intro v hv
  cases f with
  | quoted n =>
      rw [List.mem_singleton.mp hv]
      rfl
  | words ws =>
      rcases mem_intercalate hv with hv | ⟨p, hp, hv⟩
      · rw [List.mem_singleton.mp hv]
        rfl
      · obtain ⟨w, -, rfl⟩ := List.mem_map.mp hp
        rw [List.mem_singleton.mp hv]
        rfl

theorem isLegible_of_ofValues? (hvs : EachOf Lexeme.Legible vs) (h : ofValues? vs = some f) : f.IsLegible := by
  unfold ofValues? at h
  split at h
  · cases h
    exact hvs.1
  · obtain ⟨ws, hread, h⟩ := Option.bind_eq_some_iff.mp h
    have hwords : ∀ w ∈ ws, Text.IsName w := by
      intro w hw
      have hmem : some w ∈ (withoutBlanks vs).map ident? := map_of_mapM hread ▸ List.mem_map_of_mem hw
      obtain ⟨v, hv, hident⟩ := List.mem_map.mp hmem
      have hlegible := eachOf_iff.mp hvs v (List.mem_of_mem_filter hv)
      rwa [ident?_eq_some_iff.mp hident] at hlegible
    unfold ofWords at h
    split at h
    · cases h
    · split at h
      · cases h
        exact hwords
      · cases h
    · cases h
      exact hwords

end FamilyName

end StyleTree
