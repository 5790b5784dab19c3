/-
# `Proofs.Condition.Text` — conditions and their texts

The text of a condition is made of names and values, and read again it is
the same condition (`condition_text_reads_back`), if the names need no
escape and none of its lexemes runs into the next.  Names are written
without escapes, and a comment that held two tokens apart is not written,
so this need not be so: the medium `\31 x` is written `1x`, which is a
number with a unit.

Three things are shown of each kind of condition, here of those on support
and on containers: the values that it is written as (`supportsValues`,
`containerValues`) read as the same condition, they can be written and read
back, and they are what the text shows.
-/
import StyleTree.Proofs.Condition.Queries
import StyleTree.Rule.Head

namespace StyleTree.Condition

open ComponentValue

variable {f : Token → Token} {vs ws : List ComponentValue} {s t : String}

/-! ## Conditions on support -/

/-- The values of a condition on support. -/
def supportsValues (vs : List ComponentValue) : List ComponentValue :=
  if (ofValues? supports true vs).isSome then spread (canonEach supports declarationValues vs) else declarationValues vs

theorem supports?_supportsValues {bare : Bool} (h : (supports? bare vs).isSome = true) :
    supports? bare (supportsValues vs) = supports? bare vs := by
  unfold supportsValues
  cases hc : ofValues? supports true vs with
  | some c =>
      have hread : ofValues? supports true (spread (canonEach supports declarationValues vs)) = some c := by
        rw [ofValues?_canon steady_supports, hc]
      rw [Option.isSome_some, if_pos rfl, supports?, supports?, hread, hc]
  | none =>
      rw [supports?, hc] at h
      rw [Option.isSome_none, if_neg Bool.false_ne_true]
      cases bare with
      | false => cases h
      | true =>
          have hdeclaration : (declaration vs).isSome = true := h
          have hread : ofValues? supports true (declarationValues vs) = none :=
            steady_supports.condition (by rw [isSome_enclosed_supports, ← isSome_declaration, hdeclaration]) hc
          rw [supports?, supports?, hc, hread]
          exact declaration_declarationValues hdeclaration

theorem writable_supportsValues (h : ∀ v ∈ vs, Fresh v) (hclear : Clear (lexemesOf (supportsValues vs))) :
    ∀ v ∈ supportsValues vs, Writable v := by
  unfold supportsValues at *
  by_cases hcondition : (ofValues? supports true vs).isSome = true
  · rw [if_pos hcondition] at hclear ⊢
    exact (replaces_canon renders_declarationValues h hclear).writable
  · rw [if_neg hcondition]
    exact (renders_declarationValues vs h).writable

/-- The names that the text of a condition on support takes over. -/
def supportsNames (vs : List ComponentValue) : List String :=
  if (ofValues? supports true vs).isSome then bareNamesEach supports declarationValues vs
  else (leadingName? (declarationValues vs)).toList

theorem shows_supports {bare : Bool} (h : supports? bare vs = some t) (hnames : ArePlain (supportsNames vs)) :
    Shows t (supportsValues vs) := by
  unfold supportsNames supportsValues at *
  rw [supports?] at h
  cases hc : ofValues? supports true vs with
  | some c =>
      rw [hc] at h hnames
      cases h
      exact shows_condition portrays_supports hnames hc
  | none =>
      rw [hc] at h hnames
      cases bare with
      | false => cases h
      | true => exact shows_declaration h hnames

theorem supports?_respell (hf : Token.Respells f) (bare : Bool) (vs : List ComponentValue) :
    supports? bare (vs.map (respell f)) = supports? bare vs := by
  rw [supports?, supports?, ofValues?_respell hf (supports_ignoresSpelling hf), declaration_respell hf]

/-! ## Conditions on containers -/

theorem containerName?_eq (v : ComponentValue) : containerName? v =
    v.ident?.bind fun n => if Name.isCustom n && !Text.isAmong reservedContainers n then some n else none := by
  cases v with
  | block o vs => rfl
  | token t => cases t <;> rfl

theorem eq_of_containerName? {v : ComponentValue} {n : String} (h : containerName? v = some n) :
    v = .token (.ident n) := by
  rw [containerName?_eq] at h
  obtain ⟨m, hm, hn⟩ := Option.bind_eq_some_iff.mp h
  rw [ident?_eq_some_iff.mp hm]
  split at hn
  · rw [Option.some.inj hn]
  · cases hn

theorem splitContainerName_named {v : ComponentValue} {n : String} (h : containerName? v = some n)
    (vs : List ComponentValue) : splitContainerName (v :: vs) = (some n, vs) := by
  have hblank : ¬ v.isBlank = true := by
    rw [eq_of_containerName? h]
    exact Bool.false_ne_true
  unfold splitContainerName
  simp only [List.dropWhile_cons_of_neg hblank, h]

theorem splitContainerName_unnamed {v : ComponentValue} (hv : v.isBlank = false) (h : containerName? v = none)
    (vs : List ComponentValue) : splitContainerName (v :: vs) = (none, v :: vs) := by
  have hblank : ¬ v.isBlank = true := Bool.eq_false_iff.mp hv
  unfold splitContainerName
  simp only [List.dropWhile_cons_of_neg hblank, h]

theorem of_splitContainerName {name : Option String} (h : splitContainerName vs = (name, ws)) :
    name = none ∧ ws = vs ∨ ∃ n, name = some n ∧ containerName? (.token (.ident n)) = some n ∧
      ∀ v ∈ .token (.ident n) :: ws, v ∈ vs := by
  unfold splitContainerName at h
  split at h
  · split at h
    · next v rest hfirst _ n hn =>
        cases h
        have hv := eq_of_containerName? hn
        subst hv
        exact .inr ⟨n, rfl, hn, fun v hv => (List.dropWhile_sublist _).subset (hfirst ▸ hv)⟩
    · cases h
      exact .inl ⟨rfl, rfl⟩
  · cases h
    exact .inl ⟨rfl, rfl⟩

theorem container?_of_split {name : Option String} (h : splitContainerName vs = (name, ws)) :
    container? vs =
      if ws.all isBlank then if name.isSome then some (name, none) else none
      else (ofValues? container true ws).map fun q => (name, some q) := by
  rw [container?, h]

/-- The values of a condition on containers, with the name in front. -/
def containerValues (vs : List ComponentValue) : List ComponentValue :=
  spread ((splitContainerName vs).1.toList.map (fun n => .token (.ident n)) ++
    canonEach container featureValues (splitContainerName vs).2)

theorem ofValues?_blank {g : Vocabulary} {allowOr : Bool} (vs : List ComponentValue) :
    ofValues? g allowOr (.token .blank :: vs) = ofValues? g allowOr vs := by
  rw [ofValues?, ofValues?, dense_operands, dense_operands]
  rfl

/-- What begins a condition on containers names none, in lower case as before. -/
theorem containerName?_canon {v : ComponentValue} (h : ofValues? container true vs = some t)
    (hvs : withoutBlanks vs = v :: ws) : containerName? (canon container featureValues v) = none := by
  have hfirst : v.isWord "not" = true ∨ (term container v).isSome = true := by
    have hcondition := ofValues?_eq_some_iff.mp h
    rw [hvs] at hcondition
    cases hcondition with
    | negated hn _ => exact .inl hn
    | joined _ hx _ => exact .inr (by rw [hx]; rfl)
  rw [containerName?_eq, ident?_canon]
  cases hv : v.ident? with
  | none => rfl
  | some n =>
      have hident := ident?_eq_some_iff.mp hv
      subst hident
      have hnot : Text.sameWord n "not" = true := hfirst.resolve_right Bool.false_ne_true
      have hfold : Text.foldCase n = "not" := by
        rw [Text.sameWord_iff] at hnot
        exact hnot
      show (if Name.isCustom (Text.foldCase n) && !Text.isAmong reservedContainers (Text.foldCase n) then _ else none) = _
      rw [hfold]
      rfl

/-- A name alone, or in front of a condition, is read as it is written. -/
theorem container?_named {n : String} (hn : containerName? (.token (.ident n)) = some n) (ws : List ComponentValue) :
    container? (spread (.token (.ident n) :: canonEach container featureValues ws)) =
      if ws.all isBlank then some (some n, none)
      else (ofValues? container true ws).map fun q => (some n, some q) := by
  have hall : ws.all isBlank = (canonEach container featureValues ws).isEmpty := by
    rw [all_isBlank, canonEach_eq_map, List.isEmpty_map]
  have hread : ofValues? container true (spread (canonEach container featureValues ws)) = ofValues? container true ws :=
    ofValues?_canon steady_container ws
  have hblank : ∀ v ∈ canonEach container featureValues ws, v.isBlank = false := fun v hv => isBlank_of_mem_canonEach hv
  rw [hall]
  cases hcanon : canonEach container featureValues ws with
  | nil =>
      exact container?_of_split (splitContainerName_named hn [])
  | cons c cs =>
      rw [hcanon] at hread hblank
      have hsplit : splitContainerName (spread (.token (.ident n) :: c :: cs)) =
          (some n, .token .blank :: spread (c :: cs)) :=
        splitContainerName_named hn _
      have hsome : (.token .blank :: spread (c :: cs)).all isBlank = false := by
        show (true && (spread (c :: cs)).all isBlank) = false
        rw [Bool.true_and, all_isBlank, withoutBlanks_spread hblank]
        rfl
      rw [container?_of_split hsplit, hsome, if_neg Bool.false_ne_true, ofValues?_blank, hread]
      rfl

/-- A condition without a name in front is read without one. -/
theorem container?_unnamed (h : ofValues? container true vs = some t) :
    container? (spread (canonEach container featureValues vs)) = some (none, some t) := by
  have hread : ofValues? container true (spread (canonEach container featureValues vs)) = some t := by
    rw [ofValues?_canon steady_container, h]
  have hvalues := withoutBlanks_canon (g := container) (e := featureValues) vs
  cases hvs : withoutBlanks vs with
  | nil =>
      rw [ofValues?, dense_operands, hvs] at h
      cases h
  | cons v us =>
      obtain ⟨rest, hrest⟩ : ∃ rest, spread (canonEach container featureValues vs) =
          canon container featureValues v :: rest := by
        have hhead := head?_spread (canonEach container featureValues vs)
        rw [canonEach_eq_map, hvs, List.map_cons, List.head?_cons] at hhead
        exact List.head?_eq_some_iff.mp (by rw [canonEach_eq_map, hvs, List.map_cons, hhead])
      have hblank : (canon container featureValues v).isBlank = false := by
        rw [isBlank_canon]
        have hmem : v ∈ withoutBlanks vs := hvs ▸ List.mem_cons_self
        simpa using (List.mem_filter.mp hmem).2
      have hsplit : splitContainerName (spread (canonEach container featureValues vs)) =
          (none, spread (canonEach container featureValues vs)) := by
        rw [hrest]
        exact splitContainerName_unnamed hblank (containerName?_canon h hvs) rest
      have hsome : (spread (canonEach container featureValues vs)).all isBlank = false := by
        rw [all_isBlank, hvalues, hvs]
        rfl
      rw [container?_of_split hsplit, hsome, if_neg Bool.false_ne_true, hread]
      rfl

theorem container?_containerValues (h : (container? vs).isSome = true) :
    container? (containerValues vs) = container? vs := by
  unfold containerValues
  rcases hsplit : splitContainerName vs with ⟨name, ws⟩
  rw [container?_of_split hsplit] at h ⊢
  rcases of_splitContainerName hsplit with ⟨rfl, rfl⟩ | ⟨n, rfl, hn⟩
  · cases hall : ws.all isBlank with
    | true =>
        rw [hall] at h
        cases h
    | false =>
        rw [hall, if_neg Bool.false_ne_true, Option.isSome_map] at h
        obtain ⟨t, ht⟩ := Option.isSome_iff_exists.mp h
        rw [if_neg Bool.false_ne_true, ht]
        exact container?_unnamed ht
  · exact container?_named hn.1 ws

theorem containerName?_respell (hf : Token.Respells f) (v : ComponentValue) :
    containerName? (respell f v) = containerName? v := by
  rw [containerName?_eq, containerName?_eq, (keepsMarks_respell hf).ident?]

theorem writable_containerValues (h : ∀ v ∈ vs, Fresh v) (hclear : Clear (lexemesOf (containerValues vs))) :
    ∀ v ∈ containerValues vs, Writable v := by
  unfold containerValues at *
  rcases hsplit : splitContainerName vs with ⟨name, ws⟩
  rw [hsplit] at hclear
  have hfresh : (∀ v ∈ ws, Fresh v) ∧ ∀ n ∈ name, Fresh (.token (.ident n)) := by
    rcases of_splitContainerName hsplit with ⟨rfl, rfl⟩ | ⟨n, rfl, -, hmem⟩
    · exact ⟨h, by rintro n ⟨⟩⟩
    · refine ⟨fun v hv => h v (hmem v (List.mem_cons_of_mem _ hv)), ?_⟩
      rintro m ⟨⟩
      exact h _ (hmem _ List.mem_cons_self)
  refine writable_spread fun v hv => ?_
  have hvclear := hclear.of_mem (subset_spread _ hv)
  rcases List.mem_append.mp hv with hv | hv
  · obtain ⟨n, hn, rfl⟩ := List.mem_map.mp hv
    exact writable_ident (hfresh.2 n (Option.mem_toList.mp hn)).legible
  · rw [canonEach_eq_map] at hv
    obtain ⟨u, hu, rfl⟩ := List.mem_map.mp hv
    exact writable_canon renders_featureValues u (hfresh.1 u (List.mem_of_mem_filter hu)) hvclear

/-- The names that the text of a condition on containers takes over. -/
def containerNames (vs : List ComponentValue) : List String :=
  (splitContainerName vs).1.toList ++ bareNamesEach container featureValues (splitContainerName vs).2

theorem shows_named {n : String} (hn : Text.identifier n = n) (h : Shows t (spread ws)) (hne : ws ≠ []) :
    Shows (n ++ " " ++ t) (spread (.token (.ident n) :: ws)) := by
  obtain ⟨v, us, rfl⟩ := List.exists_cons_of_ne_nil hne
  rw [spread_cons, String.append_assoc]
  exact (shows_ident hn).append (shows_behind h)

/-- The name and the condition show their values. -/
theorem shows_container {name q : Option String} (h : container? vs = some (name, q))
    (hnames : ArePlain (containerNames vs)) :
    Shows (Text.joined " " (name.toList ++ q.toList)) (containerValues vs) := by
  unfold containerNames containerValues at *
  rcases hsplit : splitContainerName vs with ⟨first, ws⟩
  rw [container?_of_split hsplit] at h
  rw [hsplit] at hnames
  obtain ⟨hfirst, hws⟩ := List.forall_mem_append.mp hnames
  split at h
  · next hall =>
      have hnone : canonEach container featureValues ws = [] := by
        rw [all_isBlank, List.isEmpty_iff] at hall
        rw [canonEach_eq_map, hall, List.map_nil]
      cases first with
      | none => cases h
      | some n =>
          cases h
          rw [hnone]
          exact shows_ident (hfirst n (List.mem_singleton_self n))
  · obtain ⟨t, ht, hread⟩ := Option.map_eq_some_iff.mp h
    cases hread
    have hshows := shows_condition portrays_container hws ht
    cases name with
    | none => exact hshows
    | some n =>
        have hne : canonEach container featureValues ws ≠ [] := by
          rw [canonEach_eq_map, Ne, List.map_eq_nil_iff]
          exact (ofValues?_eq_some_iff.mp ht).ne_nil
        exact shows_named (hfirst n (List.mem_singleton_self n)) hshows hne

theorem container?_respell (hf : Token.Respells f) (vs : List ComponentValue) :
    container? (vs.map (respell f)) = container? vs := by
  have hblank : isBlank ∘ respell f = isBlank := funext (keepsMarks_respell hf).isBlank
  have hsplit : splitContainerName (vs.map (respell f)) =
      ((splitContainerName vs).1, (splitContainerName vs).2.map (respell f)) := by
    rw [splitContainerName, splitContainerName, List.dropWhile_map, hblank]
    cases vs.dropWhile isBlank with
    | nil => rfl
    | cons v rest =>
        simp only [List.map_cons, containerName?_respell hf]
        split <;> rfl
  rw [container?_of_split hsplit, container?_of_split (Prod.eta (splitContainerName vs)).symm, all_isBlank,
    withoutBlanks_respell hf, List.isEmpty_map, ← all_isBlank,
    ofValues?_respell hf (container_ignoresSpelling hf)]

/-! ## Texts -/

/-- The text of media queries, of a condition on support and of one on containers is read as the same text, with as
many queries and the same name, if the names in it need no escape and its lexemes do not run together. -/
theorem condition_text_reads_back (text : String) :
    (ArePlain (MediaList.names (ofText text)) → IsPlain (MediaList.values (ofText text)) →
      (MediaList.ofText (MediaList.ofText text).text).text = (MediaList.ofText text).text ∧
        (MediaList.ofText (MediaList.ofText text).text).size = (MediaList.ofText text).size) ∧
    (∀ bare t, supports? bare (ofText text) = some t →
      ArePlain (supportsNames (ofText text)) → IsPlain (supportsValues (ofText text)) →
        supports? bare (ofText t) = some t) ∧
    (∀ n q t, container? (ofText text) = some (n, q) → (RuleHead.container n q).condition? = some t →
      ArePlain (containerNames (ofText text)) → IsPlain (containerValues (ofText text)) →
        container? (ofText t) = some (n, q)) := by
  have hfresh := fresh_ofText text
  have hf := Token.respells_alike
  refine ⟨fun hnames h => ?_, fun bare t ht hnames h => ?_, fun n q t hp ht hnames h => ?_⟩
  · have hread := ofText_of_shows (MediaList.shows_text _ hnames) (MediaList.writable_values hfresh h.clear) h
    have hqueries := MediaList.ofValues_values (ofText text)
    rwa [← MediaList.ofValues_respell hf, ← hread] at hqueries
  · have hread := ofText_of_shows (shows_supports ht hnames) (writable_supportsValues hfresh h.clear) h
    rw [hread, supports?_respell hf, supports?_supportsValues (Option.isSome_iff_exists.mpr ⟨t, ht⟩), ht]
  · cases ht
    have hread := ofText_of_shows (shows_container hp hnames) (writable_containerValues hfresh h.clear) h
    rw [hread, container?_respell hf, container?_containerValues (Option.isSome_iff_exists.mpr ⟨_, hp⟩), hp]

theorem condition_text_reads_back_nested :
    ((MediaList.ofText "(a: 1.5px) and (not (b: c))").text = "(a: 1.5px) and (not (b: c))" ∧
        (MediaList.ofText "(a: 1.5px) and (not (b: c))").size = 1) ∧
      (supports? false (ofText "(A:1.50px)And ( not (B:c) )") = some "(a: 1.5px) and (not (b: c))" ∧
        supports? false (ofText "(a: 1.5px) and (not (b: c))") = some "(a: 1.5px) and (not (b: c))") ∧
      container? (ofText "(A:1.50px)And ( not (B:c) )") = some (none, some "(a: 1.5px) and (not (b: c))") ∧
        container? (ofText "(a: 1.5px) and (not (b: c))") = some (none, some "(a: 1.5px) and (not (b: c))") := by
  have hall := condition_text_reads_back "(A:1.50px)And ( not (B:c) )"
  have hmedia : (MediaList.ofText "(A:1.50px)And ( not (B:c) )").text = "(a: 1.5px) and (not (b: c))" := by
    decide +kernel
  have hsize : (MediaList.ofText "(A:1.50px)And ( not (B:c) )").size = 1 := by decide +kernel
  have hsupports : supports? false (ofText "(A:1.50px)And ( not (B:c) )") = some "(a: 1.5px) and (not (b: c))" := by
    decide +kernel
  have hcontainer : container? (ofText "(A:1.50px)And ( not (B:c) )") =
      some (none, some "(a: 1.5px) and (not (b: c))") := by
    decide +kernel
  rw [hmedia, hsize] at hall
  refine ⟨hall.1 ?_ ?_, ⟨hsupports, hall.2.1 _ _ hsupports ?_ ?_⟩, hcontainer, hall.2.2 _ _ _ hcontainer rfl ?_ ?_⟩
  all_goals decide +kernel

/-- A media type that begins with a digit is written without its escape. -/
theorem not_condition_text_reads_back : ¬ ∀ text : String,
    (MediaList.ofText (MediaList.ofText text).text).text = (MediaList.ofText text).text :=
  fun h => absurd (h "\\31 x") (by decide +kernel)

end StyleTree.Condition
