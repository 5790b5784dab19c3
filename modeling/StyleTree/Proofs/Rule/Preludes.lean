/-
# `Proofs.Rule.Preludes` — heads made of names read back

Twelve kinds of rules say nothing before their block but names: an address
with a prefix, layers, pages, families, or one name (`RuleKind.named`).  A
head of such a kind is written as an at-keyword and some values
(`keyword`, `values`, `introduces`); the keyword gives the kind
(`classify_keyword`), and the production of the kind makes the same head of
the values (`ofPrelude?_values`).

What is needed for it comes from the production that made the head: its
checks (`IsValid`), and that names which were read can be written
(`IsLegible`, `isLegible_of_ofPrelude?`).
-/
import StyleTree.Rule.AtRule
import StyleTree.Rule.Text
import StyleTree.Proofs.Name.Text
import StyleTree.Proofs.Statement.Origin

namespace StyleTree

open ComponentValue Prelude

variable {vs us rest : List ComponentValue}

/-- The kinds of rules with nothing but names in front of their block. -/
def RuleKind.named : List RuleKind :=
  [namespaceRule, layerStatement, layerBlock, page, margin, keyframes, fontFeatureValues, fontPaletteValues, counterStyle,
   property, positionTry, colorProfile]

/-! ## Names that were read -/

theorem Production.optional_cases {α : Type} {p : Production α} {o : Option α} (h : optional p vs = some (o, rest)) :
    (∃ a, o = some a ∧ p vs = some (a, rest)) ∨ o = none ∧ rest = vs := by
  rcases Option.or_eq_some_iff.mp (Option.orElse_eq_or.symm.trans h) with h | ⟨-, h⟩
  · obtain ⟨⟨a, ws⟩, hp, h⟩ := Option.bind_eq_some_iff.mp h
    cases h
    exact .inl ⟨a, rfl, hp⟩
  · cases h
    exact .inr ⟨rfl, rfl⟩

theorem Prelude.isClean_of_address? {v : ComponentValue} {u : String} (hv : Each Lexeme.Legible v)
    (h : address? v = some u) : Text.IsClean u := by
  unfold address? at h
  split at h
  · cases h
    exact hv
  unfold url? at h
  split at h
  · cases h
    exact hv
  · next n ws _ =>
      split at h
      · split at h
        · next u' hws =>
            cases h
            have hmem : ComponentValue.token (.string u) ∈ withoutBlanks ws := hws ▸ List.mem_cons_self
            exact eachOf_iff.mp hv.2 _ (List.mem_of_mem_filter hmem)
        · cases h
      · cases h
  · cases h

theorem Prelude.isName_of_onlyIdent? {n : String} (hvs : EachOf Lexeme.Legible vs) (h : onlyIdent? vs = some n) :
    Text.IsName n := by
  unfold onlyIdent? at h
  split at h
  · cases h
    exact hvs.1
  · cases h

namespace RuleHead

/-- The names and addresses in a head can be written and read back. -/
def IsLegible : RuleHead → Prop
  | namespaceRule n u => (∀ p ∈ n, Text.IsName p) ∧ Text.IsClean u
  | layerStatement l => ∀ n ∈ l, n.IsLegible
  | layerBlock n => ∀ m ∈ n, m.IsLegible
  | page l => ∀ p ∈ l, p.IsLegible
  | keyframes n => Text.IsClean n
  | fontFeatureValues fs => ∀ f ∈ fs, f.IsLegible
  | fontPaletteValues n | counterStyle n | property n | positionTry n | colorProfile n => Text.IsName n
  | _ => True

theorem isLegible_namespaceRule {n : Option String} {u : String} (hvs : EachOf Lexeme.Legible vs)
    (h : namespaceParts.whole vs = some (n, u)) : (namespaceRule n u).IsLegible := by
  obtain ⟨left, h⟩ := Production.exists_of_whole h
  obtain ⟨o, ws, ho, h⟩ := Production.bind_eq_some.mp h
  obtain ⟨a, ws', ha, h⟩ := Production.bind_eq_some.mp h
  cases h
  obtain ⟨v, hv, haddress, -⟩ := Production.exists_of_taken ha
  rcases Production.optional_cases ho with ⟨p, rfl, hp⟩ | ⟨rfl, rfl⟩
  · obtain ⟨w, hw, hident, hsub⟩ := Production.exists_of_taken hp
    refine ⟨?_, isClean_of_address? (eachOf_iff.mp hvs v (hsub hv)) haddress⟩
    rintro _ ⟨⟩
    have hlegible := eachOf_iff.mp hvs w hw
    rwa [ident?_eq_some_iff.mp hident] at hlegible
  · exact ⟨by rintro _ ⟨⟩, isClean_of_address? (eachOf_iff.mp hvs v hv) haddress⟩

/-- A head that was read can be written. -/
theorem isLegible_of_ofPrelude? {k : RuleKind} {st : Statement} {c : RuleContext} {ns : Namespaces} {head : RuleHead}
    (hst : EachOf Lexeme.Legible st.prelude) (h : ofPrelude? k st c ns = some head) : head.IsLegible := by
  have hvs : EachOf Lexeme.Legible (trim st.prelude) := hst.of_subset fun _ hv => mem_of_mem_trim hv
  have honly : ∀ {p : String → Bool} {n : String}, (onlyIdent? (trim st.prelude)).filter p = some n → Text.IsName n :=
    fun h => isName_of_onlyIdent? hvs (Option.filter_eq_some_iff.mp h).1
  cases k with
  | namespaceRule =>
      obtain ⟨⟨n, u⟩, hread, rfl⟩ := Option.map_eq_some_iff.mp h
      exact isLegible_namespaceRule hvs hread
  | layerStatement =>
      obtain ⟨l, hread, rfl⟩ := Option.map_eq_some_iff.mp h
      intro n hn
      obtain ⟨ws, hsub, hws⟩ := (of_mapM_commaParts hread).2 n hn
      exact LayerName.isLegible_of_ofValues? (hvs.of_subset hsub) hws
  | layerBlock =>
      simp only [ofPrelude?] at h
      split at h
      · cases h
        rintro m ⟨⟩
      · obtain ⟨n, hn, rfl⟩ := Option.map_eq_some_iff.mp h
        rintro m ⟨⟩
        exact LayerName.isLegible_of_ofValues? hvs hn
  | page =>
      obtain ⟨l, hread, rfl⟩ := Option.map_eq_some_iff.mp h
      unfold PageSelector.listOfValues? at hread
      split at hread
      · cases hread
        exact List.forall_mem_nil _
      · intro p hp
        obtain ⟨ws, hsub, hws⟩ := (of_mapM_commaParts hread).2 p hp
        exact PageSelector.isLegible_of_ofValues? (hvs.of_subset hsub) hws
  | keyframes =>
      obtain ⟨n, hread, rfl⟩ := Option.map_eq_some_iff.mp h
      unfold keyframesName? at hread
      split at hread
      · next hts =>
          split at hread <;> cases hread
          rw [hts] at hvs
          exact hvs.1.clean
      · next hts =>
          split at hread <;> cases hread
          rw [hts] at hvs
          exact hvs.1
      · cases hread
  | fontFeatureValues =>
      obtain ⟨fs, hread, rfl⟩ := Option.map_eq_some_iff.mp h
      intro f hf
      obtain ⟨ws, hsub, hws⟩ := (of_mapM_commaParts hread).2 f hf
      exact FamilyName.isLegible_of_ofValues? (hvs.of_subset hsub) hws
  | fontPaletteValues | counterStyle | property | positionTry =>
      obtain ⟨n, hread, rfl⟩ := Option.map_eq_some_iff.mp h
      exact honly hread
  | colorProfile =>
      obtain ⟨n, hread, rfl⟩ := Option.map_eq_some_iff.mp h
      unfold profileName? at hread
      split at hread
      · cases hread
        exact (by decide : Text.IsName "device-cmyk")
      · exact honly hread
  | margin =>
      obtain ⟨i, hi, h⟩ := Option.bind_eq_some_iff.mp h
      obtain rfl := nothing_eq_some h
      trivial
  | featureBlock =>
      obtain ⟨f, -, h⟩ := Option.bind_eq_some_iff.mp h
      obtain rfl := nothing_eq_some h
      trivial
  | fontFace | startingStyle | viewTransition =>
      obtain rfl := nothing_eq_some h
      trivial
  | media =>
      cases h
      trivial
  | _ =>
      obtain ⟨a, -, rfl⟩ := Option.map_eq_some_iff.mp h
      trivial

/-! ## What a head is written as -/

/-- The name of the at-rule. -/
def keyword : RuleHead → String
  | namespaceRule _ _ => "namespace"
  | layerStatement _ | layerBlock _ => "layer"
  | page _ => "page"
  | margin i => (margin i).marginName
  | keyframes _ => "keyframes"
  | fontFeatureValues _ => "font-feature-values"
  | fontPaletteValues _ => "font-palette-values"
  | counterStyle _ => "counter-style"
  | property _ => "property"
  | positionTry _ => "position-try"
  | colorProfile _ => "color-profile"
  | _ => ""

/-- The values of the prelude. -/
def values : RuleHead → List ComponentValue
  | namespaceRule n u =>
    n.toList.flatMap (fun p => [.token (.ident p), .token .blank]) ++ [.block (.function "url") [.token (.string u)]]
  | layerStatement l => [.token .comma, .token .blank].intercalate (l.map LayerName.values)
  | layerBlock n => (n.map LayerName.values).getD []
  | page l => [.token .comma, .token .blank].intercalate (l.map PageSelector.values)
  | keyframes n => [.token (if Name.isKeyframes n then .ident n else .string n)]
  | fontFeatureValues fs => [.token .comma, .token .blank].intercalate (fs.map FamilyName.values)
  | fontPaletteValues n | counterStyle n | property n | positionTry n | colorProfile n => [.token (.ident n)]
  | _ => []

variable {head : RuleHead}

open Statement (Introduces IsKeyword statementOf endText)

theorem introduces_named {kw n : String} (h : Text.IsName n) :
    Introduces kw (namedHead kw n) [.token (.ident n)] := by
  rw [namedHead]
  exact .followed (isPrelude_identifier h)

/-- The text of a head is its at-keyword with its values behind. -/
theorem introduces (hk : head.kind ∈ RuleKind.named) (hvalid : head.IsValid) (h : head.IsLegible) :
    Introduces head.keyword head.text head.values := by
  cases head with
  | namespaceRule n u =>
      cases n with
      | none => exact .followed (isPrelude_url h.2)
      | some p =>
          have htext : text (namespaceRule (some p) u) =
              "@namespace " ++ (Text.identifier p ++ " " ++ Text.url u) := by
            show "@namespace " ++ ("" ++ Text.identifier p ++ " ") ++ Text.url u = _
            rw [String.empty_append, String.append_assoc]
          rw [htext]
          exact .followed ((isPrelude_identifier (h.1 p rfl)).spaced (isPrelude_url h.2))
  | layerStatement l =>
      exact .followed (isPrelude_joined (fun n hn => LayerName.isPrelude_text (hvalid.2 n hn) (h n hn)) hvalid.1
        (.inr ⟨rfl, rfl⟩))
  | layerBlock n =>
      cases n with
      | none => exact .bare
      | some n =>
          have htext : text (layerBlock (some n)) = "@" ++ "layer" ++ " " ++ n.text := by
            show "@layer" ++ (" " ++ n.text ++ "") = _
            rw [String.append_empty, ← String.append_assoc]
            rfl
          rw [htext]
          exact .followed (LayerName.isPrelude_text (hvalid n rfl) (h n rfl))
  | page l =>
      cases l with
      | nil => exact .bare
      | cons p ps =>
          exact .followed (isPrelude_joined (fun q hq => PageSelector.isPrelude_text (hvalid q hq) (h q hq))
            (List.cons_ne_nil p ps) (.inr ⟨rfl, rfl⟩))
  | margin i => exact .bare
  | keyframes n =>
      have hname : IsPrelude (Name.keyframesText n)
          [.token (if Name.isKeyframes n then .ident n else .string n)] := by
        unfold Name.keyframesText
        split
        · exact isPrelude_identifier ⟨hvalid, h⟩
        · exact isPrelude_quoted h
      exact .followed hname
  | fontFeatureValues fs =>
      exact .followed (isPrelude_joined (fun f hf => FamilyName.isPrelude_text (hvalid.2 f hf) (h f hf)) hvalid.1
        (.inr ⟨rfl, rfl⟩))
  | fontPaletteValues n | counterStyle n | property n | positionTry n | colorProfile n => exact introduces_named h
  | _ => simp [kind, RuleKind.named] at hk

/-! ## Reading it -/

theorem isKeyword_margin : ∀ i < MarginBox.names.length, IsKeyword (margin i).marginName ∧
    AtRule.kindOf (AtRule.canonicalName (margin i).marginName) true = .ok .margin ∧
    MarginBox.index? (margin i).marginName = some i := by
  decide +kernel

/-- The at-keyword of a head stands for its kind. -/
theorem classify_keyword (hk : head.kind ∈ RuleKind.named) (hvalid : head.IsValid) : IsKeyword head.keyword ∧
    AtRule.kindOf (AtRule.canonicalName head.keyword) (!head.isStatement) = .ok head.kind := by
  cases head with
  | margin i =>
      obtain ⟨hkeyword, hkind, -⟩ := isKeyword_margin i hvalid.1
      exact ⟨hkeyword, hkind⟩
  | namespaceRule _ _ | layerStatement _ | layerBlock _ | page _ | keyframes _ | fontFeatureValues _ | fontPaletteValues _
  | counterStyle _ | property _ | positionTry _ | colorProfile _ =>
      simp only [keyword, isStatement, kind]
      decide +kernel
  | _ => simp [kind, RuleKind.named] at hk

theorem classify_statementOf (kw : String) (vs : List ComponentValue) (b : Bool) (c : RuleContext) :
    (statementOf kw vs b).classify c = AtRule.kindOf (AtRule.canonicalName kw) (!b) := by
  cases b <;> rfl

/-- A dashed name is not that of the device profile. -/
theorem not_device_of_isDashed {n : String} (h : Name.isDashed n = true) : Text.sameWord n "device-cmyk" = false := by
  unfold Name.isDashed at h
  split at h
  · next cs hn =>
      refine Bool.eq_false_iff.mpr fun hsame => ?_
      unfold Text.sameWord at hsame
      rw [hn, beq_iff_eq] at hsame
      exact absurd (List.cons.inj hsame).1 (by decide)
  · cases h

theorem profileName?_values {n : String} (h : (colorProfile n).IsValid) : profileName? [.token (.ident n)] = some n := by
  rcases h with rfl | h
  · decide
  · have hdevice := not_device_of_isDashed h
    show (if Text.sameWord n "device-cmyk" = true then _ else (some n).filter Name.isDashed) = _
    rw [hdevice, if_neg Bool.false_ne_true, Option.filter_some, if_pos h]

theorem keyframesName?_values {n : String} (h : n ≠ "") :
    keyframesName? [.token (if Name.isKeyframes n then .ident n else .string n)] = some n := by
  by_cases hn : Name.isKeyframes n = true
  · rw [if_pos hn]
    exact if_pos hn
  · rw [if_neg hn]
    exact if_neg fun hempty => h (String.isEmpty_iff.mp hempty)

theorem namespaceParts_values (n : Option String) (u : String) :
    namespaceParts.whole (namespaceRule n u).values = some (n, u) := by
  cases n <;> rfl

theorem listOfValues?_values {l : List PageSelector} (h : ∀ p ∈ l, p.IsValid ∧ trim p.values = p.values ∧ p.values ≠ []) :
    PageSelector.listOfValues? ([.token .comma, .token .blank].intercalate (l.map PageSelector.values)) = some l := by
  cases l with
  | nil => rfl
  | cons p ps =>
      have hblank :
        ([.token .comma, .token .blank].intercalate ((p :: ps).map PageSelector.values)).all isBlank = false := by
        obtain ⟨-, htrim, hne⟩ := h p List.mem_cons_self
        obtain ⟨v, us, hvs⟩ := List.exists_cons_of_ne_nil hne
        have hfirst : v ∈ (trim p.values).head? := by
          rw [htrim, hvs]
          rfl
        have hv : v.isBlank = false := isBlank_of_head?_trim hfirst
        rw [List.map_cons, intercalate_cons, hvs, List.cons_append, List.all_cons, hv, Bool.false_and]
      rw [PageSelector.listOfValues?, hblank, if_neg Bool.false_ne_true]
      refine mapM_commaParts (List.cons_ne_nil p ps) fun q hq => ?_
      obtain ⟨hvalid, htrim, -⟩ := h q hq
      exact ⟨PageSelector.ofValues?_values hvalid, htrim, PageSelector.isComma_values⟩

/-- The values of a head are read as the head. -/
theorem ofPrelude?_values (hk : head.kind ∈ RuleKind.named) (hvalid : head.IsValid) (h : head.IsLegible) (b : Bool)
    (c : RuleContext) (ns : Namespaces) :
    ofPrelude? head.kind (statementOf head.keyword head.values b) c ns = some head := by
  have htrim : trim head.values = head.values := (introduces hk hvalid h).trim
  have hvalues : trim (statementOf head.keyword head.values b).prelude = head.values := htrim
  unfold ofPrelude?
  simp only [hvalues]
  cases head with
  | namespaceRule n u => exact congrArg (Option.map _) (namespaceParts_values n u)
  | layerStatement l =>
      refine congrArg (Option.map _) (mapM_commaParts hvalid.1 fun n hn => ?_)
      exact ⟨LayerName.ofValues?_values (hvalid.2 n hn), (LayerName.isPrelude_text (hvalid.2 n hn) (h n hn)).trimmed,
        LayerName.isComma_values⟩
  | layerBlock n =>
      cases n with
      | none => rfl
      | some n =>
          have hne : n.values ≠ [] := (LayerName.isPrelude_text (hvalid n rfl) (h n rfl)).nonempty
          refine (if_neg fun hnil => hne (List.isEmpty_iff.mp hnil)).trans ?_
          exact congrArg (Option.map _) (LayerName.ofValues?_values (hvalid n rfl))
  | page l =>
      refine congrArg (Option.map _) (listOfValues?_values fun p hp => ?_)
      have hprelude := PageSelector.isPrelude_text (hvalid p hp) (h p hp)
      exact ⟨hvalid p hp, hprelude.trimmed, hprelude.nonempty⟩
  | margin i =>
      show (MarginBox.index? (margin i).marginName).bind _ = _
      rw [(isKeyword_margin i hvalid.1).2.2]
      rfl
  | keyframes n => exact congrArg (Option.map _) (keyframesName?_values hvalid)
  | fontFeatureValues fs =>
      refine congrArg (Option.map _) (mapM_commaParts hvalid.1 fun f hf => ?_)
      exact ⟨FamilyName.ofValues?_values (hvalid.2 f hf), (FamilyName.isPrelude_text (hvalid.2 f hf) (h f hf)).trimmed,
        FamilyName.isComma_values⟩
  | fontPaletteValues n | property n | positionTry n =>
      exact congrArg (Option.map _) (Option.filter_eq_some_iff.mpr ⟨rfl, hvalid⟩)
  | counterStyle n =>
      have hn : Name.isCounterStyle n = true := by
        rw [Name.isCounterStyle, hvalid.1, hvalid.2]
        rfl
      exact congrArg (Option.map _) (Option.filter_eq_some_iff.mpr ⟨rfl, hn⟩)
  | colorProfile n => exact congrArg (Option.map _) (profileName?_values hvalid)
  | _ => simp [kind, RuleKind.named] at hk

/-! ## Rules with an empty block -/

/-- A rule with this head and nothing in its block is written as one statement, however it is split; the statement
is of the kind of the head, and its prelude is read as the head. -/
def ReadsBack (head : RuleHead) : Prop :=
  ∀ r : Rule, r.head = head → r.declarationText = [] → ∃ st : Statement,
    (∀ form, Statement.split form (ofText (Rule.text (.node r []))) = [.rule st]) ∧
      Statement.single (ofText (Rule.text (.node r []))) = .ok st ∧
      ∀ c ns, st.classify c = .ok head.kind ∧ ofPrelude? head.kind st c ns = some head

theorem text_of_empty {r : Rule} (hk : r.head.kind ∈ RuleKind.named) (hr : r.declarationText = []) :
    Rule.text (.node r []) = r.head.text ++ endText r.head.isStatement := by
  obtain ⟨head, declarations, context⟩ := r
  rw [Rule.text, Rule.texts, Rule.textWith, hr]
  cases head with
  | featureBlock m => simp [RuleHead.kind, RuleKind.named] at hk
  | _ => rfl

theorem readsBack (hk : head.kind ∈ RuleKind.named) (hvalid : head.IsValid) (h : head.IsLegible) : head.ReadsBack := by
  rintro r rfl hr
  have hwritten := introduces hk hvalid h
  obtain ⟨hkeyword, hkind⟩ := classify_keyword hk hvalid
  refine ⟨statementOf r.head.keyword r.head.values r.head.isStatement, fun form => ?_, ?_, fun c ns => ⟨?_, ?_⟩⟩
  · rw [text_of_empty hk hr, Statement.split_introduced hkeyword hwritten]
  · rw [text_of_empty hk hr, Statement.single_introduced hkeyword hwritten]
  · exact (classify_statementOf ..).trans hkind
  · exact ofPrelude?_values hk hvalid h _ c ns

end RuleHead

end StyleTree
