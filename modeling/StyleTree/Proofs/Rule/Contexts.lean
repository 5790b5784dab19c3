/-
# `Proofs.Rule.Contexts` — rules stand where their kind may

A rule says in which context it stands, and its kind and that context give
the context of its block.  A tree fits a context if its root stands there,
as the context admits, and the trees below it fit the context of the
root's block; so the context is handed down along the tree.  Besides, each
rule has a set of declarations of its kind or none, but for grouping rules
under a style rule, which may keep one (`Rule.DeclaresOwn`).

Every statement that is read becomes a draft that fits its context
(`fits_ofStatement`), and what a draft grows into fits as well: a child
that is merged into its sibling leaves that sibling of the same kind.
Values that change, trees that are put under a node and subtrees that are
cut off keep a tree fit, if what is put there fits itself.
-/
import StyleTree.Proofs.Rule.Growth
import StyleTree.Proofs.Rule.Reading
import Mathlib.Data.List.InsertIdx

namespace StyleTree

variable {keeps : Bool} {c : RuleContext} {r r' : Rule}

/-! ## A rule in its context -/

/-- The context of the declarations that rules of a kind always have. -/
def RuleKind.declarationContext? (k : RuleKind) : Option DeclarationContext :=
  if k.hasDeclarations then DeclarationContext.ofKind? k else none

namespace Rule

/-- The context of the declarations that the rule has. -/
def declarationContext? (r : Rule) : Option DeclarationContext := r.declarations.map (·.context)

/-- The rule has the declarations of its kind; or it is a grouping rule under a style rule that keeps
its declarations. -/
def DeclaresOwn (keeps : Bool) (r : Rule) : Prop :=
  r.declarationContext? = r.kind.declarationContext? ∨
    keeps = true ∧ r.blockContext = .nestedGroup ∧ r.declarationContext? = some .style

/-- The rule stands in a context that admits it, and has declarations as its kind requires. -/
structure Fits (keeps : Bool) (c : RuleContext) (r : Rule) : Prop where
  context_eq : r.context = c
  allowed : c.allows r.kind = true
  declares : r.DeclaresOwn keeps

theorem blockContext_eq (hk : r'.kind = r.kind) (hc : r'.context = r.context) :
    r'.blockContext = r.blockContext := by
  rw [blockContext, hk, hc, ← blockContext]

/-- What a rule says besides its kind, and what it declares, is free. -/
theorem Fits.of_eq (h : r.Fits keeps c) (hk : r'.kind = r.kind) (hc : r'.context = r.context)
    (hd : r'.declarationContext? = r.declarationContext?) : r'.Fits keeps c := by
  refine ⟨hc.trans h.context_eq, hk ▸ h.allowed, ?_⟩
  rw [DeclaresOwn, hd, hk, blockContext_eq hk hc]
  exact h.declares

end Rule

/-- A block of feature values is one with other values as well. -/
theorem Rule.kind_of_features? {old : FeatureValues} (h : r.head.features? = some old)
    (m : FeatureValues) : ({ r with head := .featureBlock m } : Rule).kind = r.kind := by
  rw [kind, kind, RuleHead.eq_of_features? h]
  rfl

/-- Only grouping rules have the block of a grouping rule under a style rule. -/
theorem RuleKind.isGroup_of_blockContext {k : RuleKind} (h : k.blockContext c = .nestedGroup) :
    k.isGroup = true := by
  cases k <;> first | rfl | cases h

theorem RuleKind.hasDeclarations_of_isGroup {k : RuleKind} (h : k.isGroup = true) :
    k.hasDeclarations = false := by
  cases k <;> first | rfl | cases h

/-- Nothing stands in the block of a rule that has no rules inside. -/
theorem RuleKind.blockContext_of_hasChildren {k : RuleKind} (h : k.hasChildren = false) :
    k.blockContext c = .declarations := by
  cases k <;> first | rfl | cases h

/-- No block is a top level. -/
theorem RuleKind.blockContext_ne_stylesheet (k : RuleKind) (c : RuleContext) :
    k.blockContext c ≠ .stylesheet := by
  unfold blockContext groupContext
  split
  · split <;> simp
  · split <;> simp

/-- Imports and namespaces stand at the top level only. -/
theorem RuleContext.eq_stylesheet_of_allows {k : RuleKind} (hk : k = .importRule ∨ k = .namespaceRule)
    (h : c.allows k = true) : c = .stylesheet := by
  rcases hk with rfl | rfl
  · cases c <;> first | rfl | cases h
  · cases c <;> first | rfl | cases h

theorem RuleKind.isSome_ofKind? {k : RuleKind} (h : k.hasDeclarations = true) :
    (DeclarationContext.ofKind? k).isSome = true := by
  cases k <;> first | rfl | cases h

namespace Rule

/-- A rule of a kind with declarations has those of its kind. -/
theorem DeclaresOwn.own (h : r.DeclaresOwn keeps) (hk : r.kind.hasDeclarations = true) :
    ∃ b, r.declarations = some b ∧ DeclarationContext.ofKind? r.kind = some b.context := by
  rcases h with hown | ⟨-, hblock, -⟩
  · obtain ⟨d, hd⟩ := Option.isSome_iff_exists.mp (RuleKind.isSome_ofKind? hk)
    rw [RuleKind.declarationContext?, if_pos hk, hd] at hown
    obtain ⟨b, hb, rfl⟩ := Option.map_eq_some_iff.mp hown
    exact ⟨b, hb, hd⟩
  · rw [RuleKind.hasDeclarations_of_isGroup (RuleKind.isGroup_of_blockContext hblock)] at hk
    cases hk

/-- Declarations of another rule are kept ones. -/
theorem DeclaresOwn.kept (h : r.DeclaresOwn keeps) (hk : r.kind.hasDeclarations = false)
    {b : DeclarationBlock} (hb : r.declarations = some b) :
    keeps = true ∧ r.kind.isGroup = true ∧ r.blockContext = .nestedGroup ∧ b.context = .style := by
  rw [DeclaresOwn, declarationContext?, hb, Option.map_some] at h
  rcases h with hown | ⟨hkeeps, hblock, hstyle⟩
  · rw [RuleKind.declarationContext?, hk] at hown
    cases hown
  · exact ⟨hkeeps, RuleKind.isGroup_of_blockContext hblock, hblock, Option.some.inj hstyle⟩

end Rule

/-! ## Rules as they are read -/

theorem DeclarationBlock.context_declareAll (g : ValueGrammar) (b : DeclarationBlock)
    (ds : List WrittenDeclaration) : (b.declareAll g ds).context = b.context := by
  unfold DeclarationBlock.declareAll
  induction ds generalizing b with
  | nil => rfl
  | cons d ds ih =>
      rw [List.foldl_cons, ih]
      unfold DeclarationBlock.declare?
      cases g.validate? b.context d.name d.value d.important <;> rfl

namespace Rule

theorem declarationContext?_fresh (head : RuleHead) (c : RuleContext) :
    (fresh head c).declarationContext? = head.kind.declarationContext? := by
  unfold declarationContext? RuleKind.declarationContext? fresh declarationsOf
  split
  · rw [Option.map_map]
    exact Option.map_id'
  · rfl

theorem fits_fresh {head : RuleHead} (h : c.allows head.kind = true) :
    (fresh head c).Fits keeps c :=
  ⟨rfl, h, Or.inl (declarationContext?_fresh head c)⟩

theorem kind_withDeclarations (o : ReadOptions) (r : Rule) (ds : List WrittenDeclaration) :
    (r.withDeclarations o ds).kind = r.kind := by
  rcases head_withDeclarations o r ds with hd | ⟨m, hm, hd⟩
  · exact congrArg RuleHead.kind hd
  · rw [kind, hd, kind, hm]
    rfl

theorem context_withDeclarations (o : ReadOptions) (r : Rule) (ds : List WrittenDeclaration) :
    (r.withDeclarations o ds).context = r.context := by
  unfold withDeclarations
  split
  · rfl
  · split <;> rfl
  · rfl
  · rfl

theorem declarationContext?_withDeclarations (o : ReadOptions) (r : Rule)
    (ds : List WrittenDeclaration) :
    (r.withDeclarations o ds).declarationContext? = r.declarationContext? ∨
      o.keepsGroupDeclarations = true ∧ r.blockContext = .nestedGroup ∧
        (r.withDeclarations o ds).declarationContext? = some (r.declarationContext?.getD .style) := by
  unfold withDeclarations
  split
  · exact Or.inl rfl
  · next hb =>
      split
      · next hk =>
          rw [Bool.and_eq_true] at hk
          refine Or.inr ⟨hk.1, hb, ?_⟩
          simp only [declarationContext?, Option.map_some, DeclarationBlock.context_declareAll]
          cases r.declarations <;> rfl
      · exact Or.inl rfl
  · exact Or.inl rfl
  · refine Or.inl ?_
    simp only [declarationContext?, Option.map_map, Function.comp_def,
      DeclarationBlock.context_declareAll]

theorem Fits.withDeclarations {o : ReadOptions} (h : r.Fits o.keepsGroupDeclarations c)
    (ds : List WrittenDeclaration) : (r.withDeclarations o ds).Fits o.keepsGroupDeclarations c := by
  have hk := kind_withDeclarations o r ds
  have hc := context_withDeclarations o r ds
  rcases declarationContext?_withDeclarations o r ds with hd | ⟨hkeeps, hb, hd⟩
  · exact h.of_eq hk hc hd
  · refine ⟨hc.trans h.context_eq, hk ▸ h.allowed, Or.inr ⟨hkeeps, ?_, ?_⟩⟩
    · rw [blockContext_eq hk hc]
      exact hb
    · rcases h.declares with hown | ⟨-, -, hstyle⟩
      · have hgroup := RuleKind.isGroup_of_blockContext hb
        rw [hd, hown, RuleKind.declarationContext?, RuleKind.hasDeclarations_of_isGroup hgroup]
        rfl
      · rw [hd, hstyle]
        rfl

theorem fits_ofScope (o : ReadOptions) (ds : List WrittenDeclaration) :
    (ofScope o ds).Fits keeps .scope := by
  refine ⟨rfl, rfl, Or.inl ?_⟩
  rw [declarationContext?, ofScope, Option.map_some, DeclarationBlock.context_declareAll]
  rfl

end Rule

/-! ## Trees -/

namespace Tree

mutual

/-- Each rule of the tree fits the context that is handed down to it. -/
def Fits (keeps : Bool) (c : RuleContext) : Tree Rule → Prop
  | .node r ts => r.Fits keeps c ∧ FitAll keeps r.blockContext ts

def FitAll (keeps : Bool) (c : RuleContext) : List (Tree Rule) → Prop
  | [] => True
  | t :: ts => Fits keeps c t ∧ FitAll keeps c ts

end

theorem fits_node {ts : List (Tree Rule)} :
    Fits keeps c (.node r ts) ↔ r.Fits keeps c ∧ FitAll keeps r.blockContext ts := by
  rw [Fits]

@[simp] theorem fitAll_nil : FitAll keeps c [] := trivial

@[simp] theorem fitAll_cons {t : Tree Rule} {ts : List (Tree Rule)} :
    FitAll keeps c (t :: ts) ↔ Fits keeps c t ∧ FitAll keeps c ts := by
  rw [FitAll]

theorem fitAll_iff {ts : List (Tree Rule)} : FitAll keeps c ts ↔ ∀ t ∈ ts, Fits keeps c t := by
  induction ts with
  | nil => simp
  | cons t ts ih => rw [fitAll_cons, ih, List.forall_mem_cons]

theorem FitAll.insertIdx {ts : List (Tree Rule)} {u : Tree Rule} (hts : FitAll keeps c ts)
    (hu : Fits keeps c u) (i : Nat) : FitAll keeps c (ts.insertIdx i u) := by
  rw [fitAll_iff] at hts ⊢
  intro t ht
  rcases List.eq_or_mem_of_mem_insertIdx ht with rfl | ht
  · exact hu
  · exact hts t ht

theorem Fits.value {t : Tree Rule} (h : Fits keeps c t) : t.value.Fits keeps c := by
  cases t
  rw [fits_node] at h
  exact h.1

end Tree

/-! ## Drafts and what they grow into -/

namespace Draft

open StyleTree.Tree (FitAll fits_node fitAll_nil fitAll_cons)

mutual

/-- Each rule of the draft fits the context that is handed down to it. -/
def Fits (keeps : Bool) (c : RuleContext) : Draft → Prop
  | .rule _ r children => r.Fits keeps c ∧ FitsOf keeps r.blockContext children

def FitsOf (keeps : Bool) (c : RuleContext) : List Draft → Prop
  | [] => True
  | d :: ds => Fits keeps c d ∧ FitsOf keeps c ds

end

theorem fitsOf_iff {ds : List Draft} : FitsOf keeps c ds ↔ ∀ d ∈ ds, Fits keeps c d := by
  induction ds with
  | nil => simp [FitsOf]
  | cons d ds ih => rw [FitsOf, ih, List.forall_mem_cons]

/-- The block that takes up feature values is one before and after. -/
theorem fitAll_mergeInto? {m : FeatureValues} : ∀ {ts us : List (Tree Rule)}, FitAll keeps c ts →
    mergeInto? m ts = some us → FitAll keeps c us
  | [], _, _, h => by cases h
  | .node r vs :: ts, us, hts, h => by
      rw [fitAll_cons, fits_node] at hts
      obtain ⟨⟨hr, hvs⟩, hts⟩ := hts
      have hlater : ∀ {us}, (mergeInto? m ts).map (.node r vs :: ·) = some us → FitAll keeps c us := by
        intro us h
        obtain ⟨ws, hws, rfl⟩ := Option.map_eq_some_iff.mp h
        rw [fitAll_cons, fits_node]
        exact ⟨⟨hr, hvs⟩, fitAll_mergeInto? hts hws⟩
      rw [mergeInto?] at h
      split at h
      · next old hold =>
          split at h
          · cases h
            have hk := Rule.kind_of_features? hold (old.merge m)
            rw [fitAll_cons, fits_node, Rule.blockContext_eq hk rfl]
            exact ⟨⟨hr.of_eq hk rfl rfl, hvs⟩, hts⟩
          · exact hlater h
      · exact hlater h

theorem fitAll_settle {first : Bool} {t : Tree Rule} {ts : List (Tree Rule)}
    (ht : t.Fits keeps c) (hts : FitAll keeps c ts) : FitAll keeps c (settle first t ts) := by
  unfold settle
  split
  · exact fitAll_cons.mpr ⟨ht, hts⟩
  · cases hm : t.value.head.features?.bind (mergeInto? · ts) with
    | none => exact hts.insertIdx ht _
    | some us =>
        obtain ⟨m, -, hus⟩ := Option.bind_eq_some_iff.mp hm
        exact fitAll_mergeInto? hts hus

mutual

theorem fits_tree : ∀ {d : Draft} {c : RuleContext}, d.Fits keeps c → d.tree.Fits keeps c
  | .rule first r children, c, h => by
      rw [Fits] at h
      rw [tree, fits_node]
      exact ⟨h.1, fitAll_treesUnder h.2 fitAll_nil⟩

theorem fitAll_treesUnder : ∀ {ds : List Draft} {ts : List (Tree Rule)} {c : RuleContext},
    FitsOf keeps c ds → FitAll keeps c ts → FitAll keeps c (treesUnder ts ds)
  | [], _, _, _, hts => hts
  | .rule first r children :: ds, ts, c, hds, hts => by
      rw [FitsOf] at hds
      rw [treesUnder]
      exact fitAll_treesUnder hds.2 (fitAll_settle (fits_tree hds.1) hts)

end

/-- A statement that was read in a context fits it, with all rules in its block. -/
theorem fits_ofStatement {st : Statement} {ns : Namespaces} {head : RuleHead} {c : RuleContext}
    (h : st.read c ns = .ok head) (o : ReadOptions) :
    (ofStatement o ns c head st).Fits o.keepsGroupDeclarations c := by
  have hfresh : (Rule.fresh head c).Fits o.keepsGroupDeclarations c :=
    Rule.fits_fresh (Statement.read_eq_ok.mp h).2.1
  rw [ofStatement]
  split
  · rw [Fits]
    exact ⟨hfresh, trivial⟩
  · next vs hs =>
      rw [Fits, fitsOf_iff]
      refine ⟨hfresh.withDeclarations _, fun d hd => ?_⟩
      rw [Rule.blockContext_eq (Rule.kind_withDeclarations ..) (Rule.context_withDeclarations ..)]
      rcases mem_childrenOf hd with hd | hd
      · unfold scopeDraft at hd
        split at hd
        · next hscope =>
            cases hd
            rw [Fits, hscope]
            exact ⟨Rule.fits_ofScope o _, trivial⟩
        · cases hd
      · obtain ⟨⟨item, hi⟩, -, hpart⟩ := List.mem_filterMap.mp hd
        cases item with
        | declaration w => cases hpart
        | rule t =>
            simp only at hpart
            split at hpart
            · next head' ht =>
                cases hpart
                have := Statement.sizeOf_block_lt hs hi
                exact fits_ofStatement ht o
            · cases hpart
termination_by sizeOf st.block

/-- Each rule of a text fits, those of its statements the top level. -/
theorem fitsOf_sheet (o : ReadOptions) (imports : Bool) (zone : Zone) (ns : Namespaces)
    (items : List Item) :
    FitsOf o.keepsGroupDeclarations .stylesheet (sheet o imports zone ns items).1 := by
  rw [fitsOf_iff]
  intro d hd
  obtain ⟨st, head, zone', ns', z, -, hr, rfl⟩ := mem_sheet hd
  exact fits_ofStatement (Statement.readTop?_eq_some.mp hr).1 o

end Draft

/-! ## Trees that change -/

namespace Tree

variable {id : RuleId} {n : Nat} {w : Tree (RuleId × Rule)}

mutual

/-- A tree that fits the block of the rule at a node is put under that node. -/
theorem fits_graft (hw : w.bare.Fits keeps r.blockContext) :
    ∀ {t : Tree (RuleId × Rule)} {c : RuleContext}, Every (fun e => e.1 = id → e.2 = r) t →
      t.bare.Fits keeps c → (graft id n w t).bare.Fits keeps c
  | node e ts, c, he, h => by
      rw [every_node] at he
      rw [bare_node, fits_node] at h
      rw [graft, bare_node, fits_node]
      refine ⟨h.1, ?_⟩
      by_cases hid : e.1 = id
      · rw [if_pos hid, bareAll_eq_map, List.map_insertIdx, ← bareAll_eq_map]
        refine h.2.insertIdx ?_ _
        rw [he.1 hid]
        exact hw
      · rw [if_neg hid]
        exact fitAll_graftAll hw he.2 h.2

theorem fitAll_graftAll (hw : w.bare.Fits keeps r.blockContext) :
    ∀ {ts : List (Tree (RuleId × Rule))} {c : RuleContext},
      EveryOf (fun e => e.1 = id → e.2 = r) ts → FitAll keeps c (bareAll ts) →
        FitAll keeps c (bareAll (graftAll id n w ts))
  | [], _, _, h => h
  | t :: ts, c, he, h => by
      rw [everyOf_cons] at he
      rw [bareAll_cons, fitAll_cons] at h
      rw [graftAll, bareAll_cons, fitAll_cons]
      exact ⟨fits_graft hw he.1 h.1, fitAll_graftAll hw he.2 h.2⟩

end

mutual

theorem fits_prune : ∀ {t : Tree (RuleId × Rule)} {c : RuleContext}, t.bare.Fits keeps c →
    (prune id t).bare.Fits keeps c
  | node e ts, c, h => by
      rw [bare_node, fits_node] at h
      rw [prune, bare_node, fits_node]
      exact ⟨h.1, fitAll_pruneAll h.2⟩

theorem fitAll_pruneAll : ∀ {ts : List (Tree (RuleId × Rule))} {c : RuleContext},
    FitAll keeps c (bareAll ts) → FitAll keeps c (bareAll (pruneAll id ts))
  | [], _, h => h
  | t :: ts, c, h => by
      rw [bareAll_cons, fitAll_cons] at h
      rw [pruneAll]
      split
      · exact fitAll_pruneAll h.2
      · rw [bareAll_cons, fitAll_cons]
        exact ⟨fits_prune h.1, fitAll_pruneAll h.2⟩

end

mutual

/-- The rule at a node becomes one of the same kind. -/
theorem fits_adjust {f : Rule → Rule} (hf : ∀ {c}, r.Fits keeps c → (f r).Fits keeps c)
    (hb : (f r).blockContext = r.blockContext) :
    ∀ {t : Tree (RuleId × Rule)} {c : RuleContext}, Every (fun e => e.1 = id → e.2 = r) t →
      t.bare.Fits keeps c → (adjust id f t).bare.Fits keeps c
  | node e ts, c, he, h => by
      rw [every_node] at he
      rw [bare_node, fits_node] at h
      have hts := fitAll_adjustAll hf hb he.2 h.2
      simp only [adjust, Tree.map]
      by_cases hid : e.1 = id
      · rw [he.1 hid] at h hts
        rw [if_pos hid, bare_node, fits_node, he.1 hid, hb]
        exact ⟨hf h.1, hts⟩
      · rw [if_neg hid, bare_node, fits_node]
        exact ⟨h.1, hts⟩

theorem fitAll_adjustAll {f : Rule → Rule} (hf : ∀ {c}, r.Fits keeps c → (f r).Fits keeps c)
    (hb : (f r).blockContext = r.blockContext) :
    ∀ {ts : List (Tree (RuleId × Rule))} {c : RuleContext},
      EveryOf (fun e => e.1 = id → e.2 = r) ts → FitAll keeps c (bareAll ts) →
        FitAll keeps c (bareAll (adjustAll id f ts))
  | [], _, _, h => h
  | t :: ts, c, he, h => by
      rw [everyOf_cons] at he
      rw [bareAll_cons, fitAll_cons] at h
      rw [adjustAll_eq_map, List.map_cons, ← adjustAll_eq_map, bareAll_cons, fitAll_cons]
      exact ⟨fits_adjust hf hb he.1 h.1, fitAll_adjustAll hf hb he.2 h.2⟩

end

end Tree

end StyleTree
