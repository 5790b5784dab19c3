/-
# `Proofs.Sheet.Contexts` — the rules of a sheet stand in their contexts

A sheet stores with each rule the context it stands in, and nothing else
keeps that in step with where the rule really stands.  Rules come in by
four ways:

    a statement         it was read in the context of the list it joins
    a scope             makes a style rule for its declarations
    a feature value     makes the block that holds it
    a keyframe          it was read in the context of `@keyframes`

and a change of what a rule says keeps its kind, its context and the
context of its declarations (`Revision.fits`).  So the trees of a sheet fit
the top level, whatever was done to it (`invariant_fits`).  `InContext` is
what that says of the nodes: `fits_of_mem_ids` finds for each node a
context which it fits, and then all its children fit its block.
-/
import StyleTree.Proofs.Rule.Contexts
import StyleTree.Proofs.Sheet.Invariants
import StyleTree.Proofs.Sheet.Links

namespace StyleTree

open StyleTree.Tree (root idsOf bareAll FitAll)

/-! ## Nodes that fit -/

namespace Arena

variable {a : Arena Rule} {keeps : Bool} {k : RuleId}

/-- The node fits a context, and each of its children fits the context of its block. -/
def FitsAt (a : Arena Rule) (keeps : Bool) (k : RuleId) : Prop :=
  ∃ c r, a.value? k = some r ∧ r.Fits keeps c ∧
    ∀ x ∈ a.children k, ∃ r', a.value? x = some r' ∧ r'.Fits keeps r.blockContext

/-- Only a node has children. -/
theorem exists_value?_of_child {p c : RuleId} (hc : c ∈ a.children p) : ∃ r, a.value? p = some r := by
  unfold children at hc
  unfold value?
  cases hp : a.get? p with
  | none =>
      rw [hp] at hc
      cases hc
  | some n => exact ⟨n.value, rfl⟩

/-- The roots of trees that fit a context fit it. -/
theorem fits_of_mem_roots {q : Option RuleId} {c : RuleContext} {ts : List (Tree (RuleId × Rule))}
    (h : HoldsAll a q ts) (hfit : FitAll keeps c (bareAll ts)) :
    ∀ x ∈ ts.map root, ∃ r, a.value? x = some r ∧ r.Fits keeps c := by
  intro x hx
  obtain ⟨t, ht, rfl⟩ := List.mem_map.mp hx
  refine ⟨t.value.2, (holdsAll_iff.mp h t ht).value?, ?_⟩
  rw [Tree.bareAll_eq_map, Tree.fitAll_iff] at hfit
  have hvalue := (hfit t.bare (List.mem_map_of_mem ht)).value
  rwa [Tree.value_bare] at hvalue

mutual

theorem fits_of_mem_ids {q : Option RuleId} : ∀ {t : Tree (RuleId × Rule)} {c : RuleContext},
    Holds a q t → t.bare.Fits keeps c → k ∈ t.ids → a.FitsAt keeps k
  | .node e ts, c, h, hfit, hk => by
      rw [Tree.bare_node, Tree.fits_node] at hfit
      rw [Tree.ids_node] at hk
      rcases List.mem_cons.mp hk with rfl | hk
      · refine ⟨c, e.2, h.value?, hfit.1, ?_⟩
        rw [h.children]
        exact fits_of_mem_roots h.below hfit.2
      · exact fits_of_mem_idsOf h.below hfit.2 hk

theorem fits_of_mem_idsOf {q : Option RuleId} : ∀ {ts : List (Tree (RuleId × Rule))} {c : RuleContext},
    HoldsAll a q ts → FitAll keeps c (bareAll ts) → k ∈ idsOf ts → a.FitsAt keeps k
  | [], _, _, _, hk => absurd hk List.not_mem_nil
  | t :: ts, c, h, hfit, hk => by
      rw [HoldsAll] at h
      rw [Tree.bareAll_cons, Tree.fitAll_cons] at hfit
      rw [Tree.idsOf_cons] at hk
      rcases List.mem_append.mp hk with hk | hk
      · exact fits_of_mem_ids h.1 hfit.1 hk
      · exact fits_of_mem_idsOf h.2 hfit.2 hk

end

end Arena

namespace Sheet

variable {s : Sheet} {ts us : List (Tree (RuleId × Rule))} {e : Edit} {ns : Namespaces}

/-! ## Rules that come in, rules that change -/

theorem Grown.fits {c : RuleContext} {head : RuleHead} {st : Statement} {w : Tree (RuleId × Rule)}
    (h : s.Grown c head st w) : w.bare.Fits s.settings.options.keepsGroupDeclarations c := by
  rw [h.bare]
  exact Draft.fits_tree (Draft.fits_ofStatement h.read _)

theorem fitAll_of_bare {o : ReadOptions} {imports : Bool} {text : String}
    (h : bareAll us = (Draft.ofText o imports text).1.map Draft.tree) :
    FitAll o.keepsGroupDeclarations .stylesheet (bareAll us) := by
  rw [h, Tree.fitAll_iff]
  intro t ht
  obtain ⟨d, hd, rfl⟩ := List.mem_map.mp ht
  exact Draft.fits_tree (Draft.fitsOf_iff.mp (Draft.fitsOf_sheet o imports _ _ _) d hd)

theorem fits_featureBlock (keeps : Bool) (m : FeatureValues) :
    Rule.Fits keeps .fontFeatureValues ⟨.featureBlock m, none, .fontFeatureValues⟩ :=
  ⟨rfl, rfl, Or.inl rfl⟩

/-- No edit takes a rule its declarations or gives it some. -/
theorem Revision.declarationContext?_eq {id : RuleId} {r r' : Rule} (h : s.Revision e id r r') :
    r'.declarationContext? = r.declarationContext? := by
  cases h with
  | blank hb _ | declared hb _ | removed hb =>
      rw [Rule.declarationContext?, Rule.declarationContext?, hb]
      rfl
  | _ => rfl

theorem Revision.fits {id : RuleId} {r r' : Rule} (h : s.Revision e id r r') {keeps : Bool}
    {c : RuleContext} (hr : r.Fits keeps c) : r'.Fits keeps c :=
  hr.of_eq h.kind_eq.1 h.kind_eq.2 h.declarationContext?_eq

/-! ## The trees of a sheet -/

/-- A rule of a sheet stands at no other node of its trees. -/
theorem Planted.everyOf_eq (h : s.Planted ts) {id : RuleId} {r : Rule} (hr : s.rule? id = some r) :
    Tree.EveryOf (fun e => e.1 = id → e.2 = r) ts := by
  refine h.everyOf_iff.mpr fun x r' hr' hx => ?_
  obtain rfl : x = id := hx
  rw [hr, Option.some.injEq] at hr'
  exact hr'.symm

theorem Reshape.fits (h : Reshape s ts e ns us) (hs : s.Planted ts)
    (hfit : FitAll s.settings.options.keepsGroupDeclarations .stylesheet (bareAll ts)) :
    FitAll s.settings.options.keepsGroupDeclarations .stylesheet (bareAll us) := by
  cases h with
  | ignored _ => exact hfit
  | @revised _ _ r f hr hrev =>
      have hb := Rule.blockContext_eq hrev.kind_eq.1 hrev.kind_eq.2
      exact Tree.fitAll_adjustAll hrev.fits hb (hs.everyOf_eq hr) hfit
  | listed _ _ _ hg =>
      rw [Tree.bareAll_eq_map, List.map_insertIdx, ← Tree.bareAll_eq_map]
      exact hfit.insertIdx hg.fits _
  | grafted _ hr _ hg _ => exact Tree.fitAll_graftAll hg.fits (hs.everyOf_eq hr) hfit
  | @founded p x n f name values r m hr hk _ _ _ =>
      refine Tree.fitAll_graftAll ?_ (hs.everyOf_eq hr) hfit
      have hblock : r.blockContext = .fontFeatureValues := by rw [Rule.blockContext, hk]; rfl
      rw [hblock, Tree.bare_node, Tree.fits_node]
      exact ⟨fits_featureBlock _ m, trivial⟩
  | cut _ _ _ => exact Tree.fitAll_pruneAll hfit
  | replaced hbare => exact fitAll_of_bare hbare

/-- Whatever was done to a sheet, its trees fit the top level. -/
theorem invariant_fits : Invariant fun c _ ts =>
    FitAll c.options.keepsGroupDeclarations .stylesheet (bareAll ts) where
  empty _ := Tree.fitAll_nil
  ofText := fitAll_of_bare
  switched _ h := h
  reshape hs h hre := hre.fits hs h

/-! ## The nodes of a sheet -/

/-- Each rule stands where its kind may, its children in the context of its block, and has the
declarations of its kind. -/
structure InContext (s : Sheet) : Prop where
  top : ∀ id ∈ s.rules, ∃ r, s.rule? id = some r ∧ r.context = .stylesheet
  child : ∀ p c, c ∈ s.arena.children p →
    ∃ r r', s.rule? p = some r ∧ s.rule? c = some r' ∧ r'.context = r.blockContext
  allowed : ∀ id r, s.rule? id = some r → r.context.allows r.kind = true
  leaf : ∀ id r, s.rule? id = some r → r.kind.hasChildren = false → s.arena.children id = []
  declares : ∀ id r, s.rule? id = some r → r.kind.hasDeclarations = true →
    ∃ b, r.declarations = some b ∧ DeclarationContext.ofKind? r.kind = some b.context
  /-- Without declarations of its own, a rule has some only if it is a grouping rule under a style rule
  and such rules keep them. -/
  keeps : ∀ id r b, s.rule? id = some r → r.kind.hasDeclarations = false → r.declarations = some b →
    s.settings.options.keepsGroupDeclarations = true ∧ r.kind.isGroup = true ∧
      r.blockContext = .nestedGroup ∧ b.context = .style

theorem InContext.context_eq (h : s.InContext) {p c : RuleId} {r r' : Rule}
    (hc : c ∈ s.arena.children p) (hr : s.rule? p = some r) (hr' : s.rule? c = some r') :
    r'.context = r.blockContext := by
  obtain ⟨r₁, r₁', hr₁, hr₁', hcontext⟩ := h.child p c hc
  obtain rfl : r = r₁ := Option.some.inj (hr.symm.trans hr₁)
  obtain rfl : r' = r₁' := Option.some.inj (hr'.symm.trans hr₁')
  exact hcontext

/-- The block of a rule admits its children. -/
theorem InContext.allows_child (h : s.InContext) {p c : RuleId} {r r' : Rule}
    (hc : c ∈ s.arena.children p) (hr : s.rule? p = some r) (hr' : s.rule? c = some r') :
    r.blockContext.allows r'.kind = true := by
  rw [← h.context_eq hc hr hr']
  exact h.allowed c r' hr'

theorem Planted.inContext (h : s.Planted ts)
    (hfit : FitAll s.settings.options.keepsGroupDeclarations .stylesheet (bareAll ts)) :
    s.InContext := by
  have hat : ∀ id r, s.rule? id = some r →
      ∃ c, r.Fits s.settings.options.keepsGroupDeclarations c ∧ ∀ x ∈ s.arena.children id,
        ∃ r', s.rule? x = some r' ∧ r'.Fits s.settings.options.keepsGroupDeclarations r.blockContext := by
    intro id r hr
    obtain ⟨c, r₀, hr₀, hc, hchildren⟩ :=
      Arena.fits_of_mem_idsOf h.forest.holds hfit (h.mem_idsOf hr)
    obtain rfl : r = r₀ := Option.some.inj (hr.symm.trans hr₀)
    exact ⟨c, hc, hchildren⟩
  constructor
  · intro id hid
    rw [← h.roots] at hid
    obtain ⟨r, hr, hc⟩ := Arena.fits_of_mem_roots h.forest.holds hfit id hid
    exact ⟨r, hr, hc.context_eq⟩
  · intro p c hc
    obtain ⟨r, hr⟩ := Arena.exists_value?_of_child hc
    obtain ⟨-, -, hchildren⟩ := hat p r hr
    obtain ⟨r', hr', hfits⟩ := hchildren c hc
    exact ⟨r, r', hr, hr', hfits.context_eq⟩
  · intro id r hr
    obtain ⟨c, hc, -⟩ := hat id r hr
    rw [hc.context_eq]
    exact hc.allowed
  · intro id r hr hk
    obtain ⟨-, -, hchildren⟩ := hat id r hr
    rw [List.eq_nil_iff_forall_not_mem]
    intro x hx
    -- the block of such a rule admits nothing
    obtain ⟨r', -, hr'⟩ := hchildren x hx
    have hallowed := hr'.allowed
    rw [Rule.blockContext, RuleKind.blockContext_of_hasChildren hk] at hallowed
    cases hallowed
  · intro id r hr hk
    obtain ⟨c, hc, -⟩ := hat id r hr
    exact hc.declares.own hk
  · intro id r b hr hk hb
    obtain ⟨c, hc, -⟩ := hat id r hr
    exact hc.declares.kept hk hb

end Sheet

namespace SharedSheet

/-- Whatever was done to a sheet, its rules stand in their contexts. -/
theorem rules_stand_in_context {σ : SharedSheet} (h : σ.Reachable) : σ.sheet.InContext := by
  obtain ⟨ts, hs, hfit⟩ := Sheet.invariant_fits.of_reachable h
  exact hs.inContext hfit

/-- A grouping rule under a style rule keeps its declarations; a block of feature values is made. -/
theorem rules_stand_in_context_kept :
    let σ := (ofSheet (Sheet.read { HostSettings.scripted with options := ⟨.basic, true⟩ }
      "a{@media print{color:red}} @font-feature-values f{}")).step
        (.edit (.setFeature ⟨3, 1⟩ .styleset "x" [1]))
    σ.sheet.InContext ∧
      (σ.sheet.rule? ⟨2, 1⟩).map (fun r => (r.kind, r.declarationContext?)) = some (.media, some .style) ∧
      σ.sheet.arena.children ⟨3, 1⟩ = [⟨4, 1⟩] := by
  intro σ
  have hσ : σ.Reachable := ⟨_, [.edit (.setFeature ⟨3, 1⟩ .styleset "x" [1])], .read _ _, rfl⟩
  refine ⟨rules_stand_in_context hσ, ?_⟩
  decide +kernel

end SharedSheet

end StyleTree
