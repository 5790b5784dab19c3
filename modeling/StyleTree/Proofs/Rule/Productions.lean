/-
# `Proofs.Rule.Productions` — what the productions of preludes promise

Each kind of rule has a production for what stands before its block, and
text is written of the result on the understanding that it has passed the
checks of that production.  `RuleHead.IsProduced` says that a head is what
the production of its kind makes of some values; `RuleHead.IsValid` says
what may then be relied on, kind by kind.  That the second follows from the
first (`IsProduced.isValid`) comes down to one lemma for each production
with a check of its own:

    a list between commas       has a member, and each was read from a part
    a layer                     is a path of custom identifiers
    a key                       has offsets between 0% and 100% only
    a page                      has a name or a pseudo-class that is known
    a family                    of one word is a custom identifier
    a container                 has a name or a condition
-/
import StyleTree.Proofs.ComponentValue.Runs
import StyleTree.Proofs.Rule.Reading

namespace StyleTree

open ComponentValue Prelude

variable {α : Type} {vs rest : List ComponentValue}

/-! ## Productions -/

namespace Production

variable {a : α}

theorem bind_eq_some {β : Type} {x : Production α} {f : α → Production β} {r : β × List ComponentValue} :
    (x >>= f) vs = some r ↔ ∃ a ws, x vs = some (a, ws) ∧ f a ws = some r := by
  show (x vs).bind (fun r => f r.1 r.2) = some r ↔ _
  rw [Option.bind_eq_some_iff]
  constructor
  · rintro ⟨⟨a, ws⟩, hx, hf⟩
    exact ⟨a, ws, hx, hf⟩
  · rintro ⟨a, ws, hx, hf⟩
    exact ⟨(a, ws), hx, hf⟩

theorem exists_of_taken {f : ComponentValue → Option α} (h : taken f vs = some (a, rest)) :
    ∃ v ∈ vs, f v = some a ∧ rest ⊆ vs := by
  unfold taken at h
  split at h
  · next v us hvs =>
      obtain ⟨b, hb, he⟩ := Option.map_eq_some_iff.mp h
      cases he
      have hsub : v :: rest ⊆ vs := hvs ▸ (List.dropWhile_sublist isBlank).subset
      exact ⟨v, hsub List.mem_cons_self, hb, fun u hu => hsub (List.mem_cons_of_mem v hu)⟩
  · cases h

theorem exists_of_whole {p : Production α} (h : p.whole vs = some a) : ∃ ws, p vs = some (a, ws) := by
  unfold whole at h
  split at h
  · next hread =>
      split at h
      · cases h
        exact ⟨_, hread⟩
      · cases h
  · cases h

end Production

open Production (bind_eq_some)

/-- A part that is there was read from something. -/
theorem Prelude.part_eq_some {p : Production (List ComponentValue)} {f : List ComponentValue → Option α} {a : α}
    (h : part p f vs = some (some a, rest)) : ∃ ws, f ws = some a := by
  obtain ⟨o, us, -, h⟩ := bind_eq_some.mp h
  cases o with
  | none => cases h
  | some ws =>
      cases hf : f ws with
      | none =>
          simp only [hf] at h
          cases h
      | some b =>
          simp only [hf] at h
          cases h
          exact ⟨ws, hf⟩

/-! ## Lists between commas -/

/-- If all members of a list are read, then the results are those of its members. -/
theorem ComponentValue.map_of_mapM {β : Type} {f : α → Option β} : ∀ {as : List α} {bs : List β},
    as.mapM f = some bs → as.map f = bs.map some
  | [], bs, h => by
      cases h
      rfl
  | a :: as, bs, h => by
      rw [List.mapM_cons] at h
      cases ha : f a with
      | none =>
          rw [ha] at h
          cases h
      | some b =>
          cases has : as.mapM f with
          | none =>
              rw [ha, has] at h
              cases h
          | some bs' =>
              rw [ha, has] at h
              cases h
              rw [List.map_cons, List.map_cons, ha, map_of_mapM has]

/-- A list between commas has a member, and each was read from some of the values. -/
theorem ComponentValue.of_mapM_commaParts {f : List ComponentValue → Option α} {as : List α}
    (h : (commaParts vs).mapM f = some as) : as ≠ [] ∧ ∀ a ∈ as, ∃ ws ⊆ vs, f ws = some a := by
  have hmap := map_of_mapM h
  constructor
  · rintro rfl
    rw [List.map_nil, List.map_eq_nil_iff, commaParts, List.map_eq_nil_iff] at hmap
    exact splitOn_ne_nil isComma vs hmap
  · intro a ha
    have hmem : some a ∈ (commaParts vs).map f := hmap ▸ List.mem_map_of_mem ha
    obtain ⟨ws, hpart, hws⟩ := List.mem_map.mp hmem
    obtain ⟨us, hus, rfl⟩ := List.mem_map.mp hpart
    exact ⟨_, fun v hv => mem_of_mem_splitOn hus (mem_of_mem_trim hv), hws⟩

/-! ## Names -/

namespace LayerName

/-- A path of custom identifiers, at least one. -/
def IsValid (n : LayerName) : Prop := n.segments ≠ [] ∧ ∀ s ∈ n.segments, Name.isCustom s = true

theorem isCustom_of_segment? {v : ComponentValue} {s : String} (h : segment? v = some s) :
    Name.isCustom s = true := by
  unfold segment? at h
  split at h
  · split at h
    · next hn =>
        cases h
        exact hn
    · cases h
  · cases h

theorem isCustom_of_moreSegments {ss : List String} (h : moreSegments vs = some (ss, rest)) :
    ∀ s ∈ ss, Name.isCustom s = true := by
  induction vs using moreSegments.induct generalizing ss with
  | case1 v vs s hs ih =>
      rw [moreSegments, hs] at h
      obtain ⟨⟨ss', rest'⟩, hmore, h⟩ := Option.map_eq_some_iff.mp h
      cases h
      exact List.forall_mem_cons.mpr ⟨isCustom_of_segment? hs, ih hmore⟩
  | case2 v vs hs =>
      rw [moreSegments, hs] at h
      cases h
  | case3 => cases h
  | case4 vs hmore hlast =>
      rw [moreSegments] at h
      · cases h
        exact List.forall_mem_nil _
      · exact hmore
      · exact hlast

theorem isValid_of_ofValues? {n : LayerName} (h : ofValues? vs = some n) : n.IsValid := by
  obtain ⟨us, hread⟩ := Production.exists_of_whole h
  obtain ⟨s, ws, hs, hread⟩ := bind_eq_some.mp hread
  obtain ⟨more, ws', hmore, hread⟩ := bind_eq_some.mp hread
  cases hread
  obtain ⟨v, -, hv, -⟩ := Production.exists_of_taken hs
  exact ⟨List.cons_ne_nil _ _,
    List.forall_mem_cons.mpr ⟨isCustom_of_segment? hv, isCustom_of_moreSegments hmore⟩⟩

end LayerName

namespace KeyframeKey

open Number

/-- The number is not less than zero, and not more than a hundred. -/
def IsPercent (x : Single) : Prop :=
  ∃ n d, x.magnitude.quotient? = some (n, d) ∧ 0 < d ∧ n ≤ 100 * d ∧ (x.negative = true → n = 0)

/-- At least one offset, and each between 0% and 100%. -/
def IsValid (k : KeyframeKey) : Prop := k.offsets ≠ [] ∧ ∀ x ∈ k.offsets, IsPercent x

theorem isPercent_of_isBetween {x : Single} (h : x.isBetween 0 100 = true) : IsPercent x := by
  obtain ⟨negative, magnitude⟩ := x
  cases magnitude with
  | finite m e =>
      refine ⟨_, _, rfl, Nat.pow_pos (Nat.succ_pos 1), ?_⟩
      cases negative with
      | true =>
          -- only zero is both negative and no less than zero
          obtain rfl : m = 0 := by
            cases m with
            | zero => rfl
            | succ m => cases h
          rw [Magnitude.scaledUp, Nat.zero_mul]
          exact ⟨Nat.zero_le _, fun _ => rfl⟩
      | false =>
          refine ⟨?_, fun h => by cases h⟩
          rw [Single.isBetween, if_neg Bool.false_ne_true, Bool.and_eq_true] at h
          have hle := of_decide_eq_true h.2
          exact le_of_eq_of_le (Nat.mul_one _).symm hle
  | infinite => cases negative <;> cases h
  | undefined => cases negative <;> cases h

theorem isPercent_of_ofPart? {x : Single} (h : ofPart? vs = some x) : IsPercent x := by
  unfold ofPart? at h
  split at h
  · exact isPercent_of_isBetween (Option.filter_eq_some_iff.mp h).2
  · cases h

theorem isValid_of_ofValues? {k : KeyframeKey} (h : ofValues? vs = some k) : k.IsValid := by
  obtain ⟨xs, hxs, rfl⟩ := Option.map_eq_some_iff.mp h
  obtain ⟨hne, hall⟩ := of_mapM_commaParts hxs
  refine ⟨hne, fun x hx => ?_⟩
  obtain ⟨ws, -, hws⟩ := hall x hx
  exact isPercent_of_ofPart? hws

end KeyframeKey

namespace PageSelector

/-- A name or a pseudo-class, and no pseudo-class but those of pages. -/
def IsValid (s : PageSelector) : Prop :=
  (s.name.isSome = true ∨ s.pseudoClasses ≠ []) ∧ ∀ c ∈ s.pseudoClasses, c ∈ knownClasses

/-- Each class is one of those known, and only where nothing is written there is none. -/
theorem of_classesOf {cs : List String} (h : classesOf vs = some cs) :
    (∀ c ∈ cs, c ∈ knownClasses) ∧ (cs = [] → vs = []) := by
  fun_induction classesOf vs generalizing cs with
  | case1 =>
      cases h
      exact ⟨List.forall_mem_nil _, fun _ => rfl⟩
  | case2 name vs folded hknown =>
      next ih =>
        obtain ⟨cs', hcs', rfl⟩ := Option.map_eq_some_iff.mp h
        exact ⟨List.forall_mem_cons.mpr ⟨hknown, (ih hcs').1⟩, fun hnil => by cases hnil⟩
  | case3 => cases h
  | case4 => cases h

theorem isValid_of_ofValues? {s : PageSelector} (h : ofValues? vs = some s) : s.IsValid := by
  unfold ofValues? at h
  split at h
  · cases h
  · obtain ⟨cs, hcs, rfl⟩ := Option.map_eq_some_iff.mp h
    exact ⟨Or.inl rfl, (of_classesOf hcs).1⟩
  · next hne _ =>
      obtain ⟨cs, hcs, rfl⟩ := Option.map_eq_some_iff.mp h
      exact ⟨Or.inr fun hnil => hne ((of_classesOf hcs).2 hnil), (of_classesOf hcs).1⟩

theorem isValid_of_listOfValues? {l : List PageSelector} (h : listOfValues? vs = some l) :
    ∀ s ∈ l, s.IsValid := by
  unfold listOfValues? at h
  split at h
  · cases h
    exact List.forall_mem_nil _
  · intro s hs
    obtain ⟨ws, -, hws⟩ := (of_mapM_commaParts h).2 s hs
    exact isValid_of_ofValues? hws

end PageSelector

namespace FamilyName

/-- A family that is not quoted has a word, and if there is only one, that is a custom identifier. -/
def IsValid : FamilyName → Prop
  | quoted _ => True
  | words ws => ws ≠ [] ∧ ∀ w, ws = [w] → Name.isCustom w = true

theorem isValid_of_ofWords {ws : List String} {f : FamilyName} (h : ofWords ws = some f) : f.IsValid := by
  unfold ofWords at h
  split at h
  · cases h
  · split at h
    · next hcustom =>
        cases h
        refine ⟨List.cons_ne_nil _ _, ?_⟩
        rintro _ ⟨⟩
        exact hcustom
    · cases h
  · next hnil hone =>
      cases h
      exact ⟨hnil, fun w hw => absurd hw (hone w)⟩

theorem isValid_of_ofValues? {f : FamilyName} (h : ofValues? vs = some f) : f.IsValid := by
  unfold ofValues? at h
  split at h
  · cases h
    trivial
  · obtain ⟨ws, -, hws⟩ := Option.bind_eq_some_iff.mp h
    exact isValid_of_ofWords hws

end FamilyName

/-! ## Conditions and lists of selectors -/

/-- The name of a container is a custom identifier that does not read as a condition. -/
theorem Condition.isCustom_of_containerName? {v : ComponentValue} {n : String} (h : containerName? v = some n) :
    Name.isCustom n = true ∧ Text.isAmong reservedContainers n = false := by
  unfold containerName? at h
  split at h
  · split at h
    · next hn =>
        cases h
        simpa using hn
    · cases h
  · cases h

theorem Condition.of_container? {n q : Option String} (h : container? vs = some (n, q)) :
    (n.isSome = true ∨ q.isSome = true) ∧
      ∀ m ∈ n, Name.isCustom m = true ∧ Text.isAmong reservedContainers m = false := by
  have hname : ∀ m ∈ (splitContainerName vs).1,
      Name.isCustom m = true ∧ Text.isAmong reservedContainers m = false := by
    intro m hm
    unfold splitContainerName at hm
    split at hm
    · split at hm
      · next hv =>
          cases hm
          exact isCustom_of_containerName? hv
      · cases hm
    · cases hm
  unfold container? at h
  simp only at h
  split at h
  · split at h
    · next hsome =>
        cases h
        exact ⟨Or.inl hsome, hname⟩
    · cases h
  · obtain ⟨c, -, he⟩ := Option.map_eq_some_iff.mp h
    cases he
    exact ⟨Or.inr rfl, hname⟩

/-- The bounds of a scope are lists of selectors, where they are given. -/
theorem Prelude.bounds_of_scopeBounds {ns : Namespaces} {start stop : Option (List Selector)}
    (h : scopeBounds ns vs = some ((start, stop), rest)) :
    (∀ l ∈ start, ∃ ws, Selector.listOfValues ns .absolute ws = some l) ∧
      ∀ l ∈ stop, ∃ ws, Selector.listOfValues ns .relative ws = some l := by
  obtain ⟨first, us, hstart, h⟩ := bind_eq_some.mp h
  obtain ⟨o, us', -, h⟩ := bind_eq_some.mp h
  have hfirst : ∀ l ∈ first, ∃ ws, Selector.listOfValues ns .absolute ws = some l := by
    rintro l ⟨⟩
    exact part_eq_some hstart
  cases o with
  | none =>
      cases h
      exact ⟨hfirst, by rintro l ⟨⟩⟩
  | some _ =>
      obtain ⟨ws, us'', -, h⟩ := bind_eq_some.mp h
      cases hstop : Selector.listOfValues ns .relative ws with
      | none =>
          simp only [hstop] at h
          cases h
      | some l =>
          simp only [hstop] at h
          cases h
          refine ⟨hfirst, ?_⟩
          rintro l ⟨⟩
          exact ⟨ws, hstop⟩

theorem Prelude.isValid_of_importLayer {n : LayerName} (h : importLayer vs = some (some (.named n), rest)) :
    n.IsValid := by
  rcases Option.or_eq_some_iff.mp (Option.orElse_eq_or.symm.trans h) with h | ⟨-, h⟩
  · obtain ⟨-, us, -, h⟩ := bind_eq_some.mp h
    cases h
  · obtain ⟨ws, hws⟩ := part_eq_some h
    obtain ⟨m, hm, he⟩ := Option.map_eq_some_iff.mp hws
    cases he
    exact LayerName.isValid_of_ofValues? hm

theorem Prelude.isValid_of_importClauses {p : ImportPrelude} {n : LayerName} (h : importClauses vs = some (p, rest))
    (hn : p.layer = some (.named n)) : n.IsValid := by
  obtain ⟨href, us, -, h⟩ := bind_eq_some.mp h
  obtain ⟨layer, ws, hlayer, h⟩ := bind_eq_some.mp h
  obtain ⟨supports, us, -, h⟩ := bind_eq_some.mp h
  obtain ⟨media, us, -, h⟩ := bind_eq_some.mp h
  cases h
  obtain rfl : layer = some (.named n) := hn
  exact isValid_of_importLayer hlayer

/-! ## Heads -/

namespace RuleHead

/-- The head is what the production of its kind makes of some values; the selectors of a style rule are read in
the mode of the context.  A block of feature values has no prelude. -/
def IsProduced (c : RuleContext) : RuleHead → Prop
  | style l => ∃ ns vs, Selector.listOfValues ns c.selectorMode vs = some l
  | importRule p => ∃ vs rest, importClauses vs = some (p, rest)
  | namespaceRule n u => ∃ vs, namespaceParts.whole vs = some (n, u)
  | layerStatement l => ∃ vs, (commaParts vs).mapM LayerName.ofValues? = some l
  | layerBlock n => ∀ m ∈ n, ∃ vs, LayerName.ofValues? vs = some m
  | media l => ∃ vs, l = MediaList.ofValues vs
  | supports c => ∃ vs, Condition.supports? false vs = some c
  | container n q => ∃ vs, Condition.container? vs = some (n, q)
  | page l => ∃ vs, PageSelector.listOfValues? vs = some l
  | margin i => ∃ name, MarginBox.index? name = some i
  | keyframes n => ∃ vs, keyframesName? vs = some n
  | keyframe k => ∃ vs, KeyframeKey.ofValues? vs = some k
  | fontFeatureValues fs => ∃ vs, FamilyName.listOfValues? vs = some fs
  | fontPaletteValues n | property n | positionTry n => ∃ vs, dashedName? vs = some n
  | counterStyle n => ∃ vs, (onlyIdent? vs).filter Name.isCounterStyle = some n
  | scope start stop => ∃ ns vs, (scopeBounds ns).whole vs = some (start, stop)
  | colorProfile n => ∃ vs, profileName? vs = some n
  | fontFace | featureBlock _ | startingStyle | viewTransition => True

/-- What may be relied on where a head is written or edited. -/
def IsValid : RuleHead → Prop
  | style l => l ≠ []
  | importRule p => ∀ n, p.layer = some (.named n) → n.IsValid
  | layerStatement l => l ≠ [] ∧ ∀ n ∈ l, n.IsValid
  | layerBlock n => ∀ m ∈ n, m.IsValid
  | container n q =>
    (n.isSome = true ∨ q.isSome = true) ∧
      ∀ m ∈ n, Name.isCustom m = true ∧ Text.isAmong Condition.reservedContainers m = false
  | page l => ∀ s ∈ l, s.IsValid
  | margin i => i < MarginBox.names.length ∧ (MarginBox.name? i).isSome = true
  | keyframes n => n ≠ ""
  | keyframe k => k.IsValid
  | fontFeatureValues fs => fs ≠ [] ∧ ∀ f ∈ fs, f.IsValid
  | fontPaletteValues n | property n | positionTry n => Name.isDashed n = true
  | counterStyle n => Name.isCustom n = true ∧ Text.isAmong Name.predefinedCounters n = false
  | scope start stop => (∀ l ∈ start, l ≠ []) ∧ ∀ l ∈ stop, l ≠ []
  | colorProfile n => n = "device-cmyk" ∨ Name.isDashed n = true
  | _ => True

theorem isProduced_of_ofPrelude? {k : RuleKind} {st : Statement} {c : RuleContext} {ns : Namespaces}
    {head : RuleHead} (h : ofPrelude? k st c ns = some head) : head.IsProduced c := by
  cases k with
  | importRule =>
      obtain ⟨⟨p, ws⟩, hp, rfl⟩ := Option.map_eq_some_iff.mp h
      exact ⟨_, _, hp⟩
  | layerBlock =>
      simp only [ofPrelude?] at h
      split at h
      · cases h
        rintro m ⟨⟩
      · obtain ⟨n, hn, rfl⟩ := Option.map_eq_some_iff.mp h
        rintro m ⟨⟩
        exact ⟨_, hn⟩
  | media =>
      cases h
      exact ⟨_, rfl⟩
  | margin =>
      obtain ⟨i, hi, h⟩ := Option.bind_eq_some_iff.mp h
      obtain rfl := nothing_eq_some h
      exact ⟨_, hi⟩
  | featureBlock =>
      obtain ⟨f, -, h⟩ := Option.bind_eq_some_iff.mp h
      obtain rfl := nothing_eq_some h
      trivial
  | fontFace | startingStyle | viewTransition =>
      obtain rfl := nothing_eq_some h
      trivial
  | style | scope =>
      obtain ⟨a, ha, rfl⟩ := Option.map_eq_some_iff.mp h
      exact ⟨_, _, ha⟩
  | _ =>
      obtain ⟨a, ha, rfl⟩ := Option.map_eq_some_iff.mp h
      exact ⟨_, ha⟩

/-- A name that is no string is a custom identifier, and those are not empty. -/
theorem ne_empty_of_keyframesName? {n : String} (h : keyframesName? vs = some n) : n ≠ "" := by
  unfold keyframesName? at h
  rintro rfl
  split at h
  · split at h
    · next hn =>
        cases h
        cases hn
    · cases h
  · split at h
    · cases h
    · next hn =>
        cases h
        exact hn rfl
  · cases h

theorem lt_of_index? {name : String} {i : Nat} (h : MarginBox.index? name = some i) :
    i < MarginBox.names.length :=
  (List.findIdx?_eq_some_iff_getElem.mp h).1

theorem isDashed_of_dashedName? {n : String} (h : dashedName? vs = some n) : Name.isDashed n = true :=
  (Option.filter_eq_some_iff.mp h).2

/-- The checks that a production makes may be relied on. -/
theorem IsProduced.isValid {c : RuleContext} {head : RuleHead} (h : head.IsProduced c) : head.IsValid := by
  cases head with
  | style l =>
      obtain ⟨ns, vs, h⟩ := h
      exact Selector.ne_nil_of_listOfValues h
  | importRule p =>
      obtain ⟨vs, rest, h⟩ := h
      exact fun n hn => isValid_of_importClauses h hn
  | layerStatement l =>
      obtain ⟨vs, h⟩ := h
      obtain ⟨hne, hall⟩ := of_mapM_commaParts h
      refine ⟨hne, fun n hn => ?_⟩
      obtain ⟨ws, -, hws⟩ := hall n hn
      exact LayerName.isValid_of_ofValues? hws
  | layerBlock n =>
      intro m hm
      obtain ⟨vs, h⟩ := h m hm
      exact LayerName.isValid_of_ofValues? h
  | container n q =>
      obtain ⟨vs, h⟩ := h
      exact Condition.of_container? h
  | page l =>
      obtain ⟨vs, h⟩ := h
      exact PageSelector.isValid_of_listOfValues? h
  | margin i =>
      obtain ⟨name, h⟩ := h
      have hlt := lt_of_index? h
      exact ⟨hlt, by rw [MarginBox.name?, List.getElem?_eq_getElem hlt]; rfl⟩
  | keyframes n =>
      obtain ⟨vs, h⟩ := h
      exact ne_empty_of_keyframesName? h
  | keyframe k =>
      obtain ⟨vs, h⟩ := h
      exact KeyframeKey.isValid_of_ofValues? h
  | fontFeatureValues fs =>
      obtain ⟨vs, h⟩ := h
      obtain ⟨hne, hall⟩ := of_mapM_commaParts h
      refine ⟨hne, fun f hf => ?_⟩
      obtain ⟨ws, -, hws⟩ := hall f hf
      exact FamilyName.isValid_of_ofValues? hws
  | fontPaletteValues n | property n | positionTry n =>
      obtain ⟨vs, h⟩ := h
      exact isDashed_of_dashedName? h
  | counterStyle n =>
      obtain ⟨vs, h⟩ := h
      have hn := (Option.filter_eq_some_iff.mp h).2
      rw [Name.isCounterStyle, Bool.and_eq_true, Bool.not_eq_true'] at hn
      exact hn
  | scope start stop =>
      obtain ⟨ns, vs, h⟩ := h
      obtain ⟨rest, h⟩ := Production.exists_of_whole h
      obtain ⟨hstart, hstop⟩ := bounds_of_scopeBounds h
      refine ⟨fun l hl => ?_, fun l hl => ?_⟩
      · obtain ⟨ws, hws⟩ := hstart l hl
        exact Selector.ne_nil_of_listOfValues hws
      · obtain ⟨ws, hws⟩ := hstop l hl
        exact Selector.ne_nil_of_listOfValues hws
  | colorProfile n =>
      obtain ⟨vs, h⟩ := h
      unfold profileName? at h
      split at h
      · cases h
        exact Or.inl rfl
      · exact Or.inr (isDashed_of_dashedName? h)
  | _ => trivial

end RuleHead

end StyleTree
