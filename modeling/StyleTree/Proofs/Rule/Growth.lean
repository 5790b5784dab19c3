/-
# `Proofs.Rule.Growth` — the tree that a draft grows into

Planting writes a draft into an arena, node by node.  What comes of it can
be said without an arena: `Draft.tree` is the tree of rules, without ids,
that every planting of the draft makes.  Children are put beside those that
are there already one after the other, as `Draft.settle` says: in front,
into the block that has the same kind of feature values, or at the place
that the fixed order of the siblings gives.
-/
import StyleTree.Rule.Planting
import StyleTree.Proofs.Tree

namespace StyleTree

namespace Tree

variable {α : Type}

/-- The tree without ids. -/
def bare (t : Tree (RuleId × α)) : Tree α := t.map (·.2)

def bareAll (ts : List (Tree (RuleId × α))) : List (Tree α) := mapAll (·.2) ts

@[simp] theorem bare_node (e : RuleId × α) (ts : List (Tree (RuleId × α))) :
    (node e ts).bare = node e.2 (bareAll ts) := rfl

@[simp] theorem bareAll_nil : bareAll ([] : List (Tree (RuleId × α))) = [] := rfl

@[simp] theorem bareAll_cons (t : Tree (RuleId × α)) (ts : List (Tree (RuleId × α))) :
    bareAll (t :: ts) = t.bare :: bareAll ts := rfl

theorem bareAll_eq_map (ts : List (Tree (RuleId × α))) : bareAll ts = ts.map bare := mapAll_eq_map _ ts

@[simp] theorem value_bare (t : Tree (RuleId × α)) : t.bare.value = t.value.2 := value_map _ t

@[simp] theorem children_bare (t : Tree (RuleId × α)) : t.bare.children = bareAll t.children := by
  cases t
  rfl

mutual

theorem every_bare {P : α → Prop} : ∀ {t : Tree (RuleId × α)},
    Every P t.bare ↔ Every (fun e => P e.2) t
  | node e ts => by rw [bare_node, every_node, every_node, everyOf_bareAll]

theorem everyOf_bareAll {P : α → Prop} : ∀ {ts : List (Tree (RuleId × α))},
    EveryOf P (bareAll ts) ↔ EveryOf (fun e => P e.2) ts
  | [] => by rw [bareAll_nil]; exact iff_of_true everyOf_nil everyOf_nil
  | t :: ts => by rw [bareAll_cons, everyOf_cons, everyOf_cons, every_bare, everyOf_bareAll]

end

end Tree

namespace Draft

/-- The place of a rule among its siblings: behind all of its rank, or behind the last. -/
def slot (r : Rule) (siblings : List Rule) : Nat :=
  match r.head.rank? with
  | some n => siblings.findIdx (fun s => s.head.rank?.any (n < ·))
  | none => siblings.length

theorem slot_le_length (r : Rule) (siblings : List Rule) : slot r siblings ≤ siblings.length := by
  unfold slot
  split
  · exact List.findIdx_le_length
  · exact Nat.le_refl _

/-- The siblings with feature values taken up by the first block of their kind, if there is one. -/
def mergeInto? (m : FeatureValues) : List (Tree Rule) → Option (List (Tree Rule))
  | [] => none
  | .node r us :: ts =>
    match r.head.features? with
    | some old =>
      if old.feature = m.feature then some (.node { r with head := .featureBlock (old.merge m) } us :: ts)
      else (mergeInto? m ts).map (.node r us :: ·)
    | none => (mergeInto? m ts).map (.node r us :: ·)

/-- The siblings with one more tree. -/
def settle (first : Bool) (c : Tree Rule) (ts : List (Tree Rule)) : List (Tree Rule) :=
  if first then c :: ts
  else
    (c.value.head.features?.bind (mergeInto? · ts)).getD
      (ts.insertIdx (slot c.value (ts.map Tree.value)) c)

mutual

/-- The rule of a draft with all below it. -/
def tree : Draft → Tree Rule
  | .rule _ r children => .node r (treesUnder [] children)

/-- Siblings and the trees of the drafts behind them. -/
def treesUnder (ts : List (Tree Rule)) : List Draft → List (Tree Rule)
  | [] => ts
  | .rule first r children :: ds => treesUnder (settle first (tree (.rule first r children)) ts) ds

end

@[simp] theorem value_tree : ∀ d : Draft, d.tree.value = d.value
  | .rule _ _ _ => by rw [tree, Tree.value, value]

theorem value_of_bare {w : Tree (RuleId × Rule)} {d : Draft} (h : w.bare = d.tree) : w.value.2 = d.value := by
  rw [← Tree.value_bare, h, value_tree]

end Draft

/-! ## What the root of a draft says -/

theorem RuleHead.eq_of_features? {head : RuleHead} {m : FeatureValues} (h : head.features? = some m) :
    head = .featureBlock m := by
  cases head <;> cases h
  rfl

/-- The declarations of a block change no head, but for a block of feature values. -/
theorem Rule.head_withDeclarations (o : ReadOptions) (r : Rule) (ds : List WrittenDeclaration) :
    (r.withDeclarations o ds).head = r.head ∨
      ∃ m, r.head = .featureBlock m ∧ (r.withDeclarations o ds).head = .featureBlock (m.declareAll ds) := by
  unfold Rule.withDeclarations
  split
  · exact Or.inl rfl
  · split
    · exact Or.inl rfl
    · exact Or.inl rfl
  · next m hm _ _ => exact Or.inr ⟨m, hm, rfl⟩
  · exact Or.inl rfl

theorem Draft.head_ofStatement (o : ReadOptions) (ns : Namespaces) (c : RuleContext)
    (head : RuleHead) (st : Statement) :
    (ofStatement o ns c head st).value.head = head ∨
      ∃ m m', head = .featureBlock m ∧ (ofStatement o ns c head st).value.head = .featureBlock m' := by
  rw [ofStatement]
  split
  · exact Or.inl rfl
  · refine (Rule.head_withDeclarations o (Rule.fresh head c) _).imp_right ?_
    rintro ⟨m, hm, hd⟩
    exact ⟨m, _, hm, hd⟩

theorem Draft.kind_ofStatement (o : ReadOptions) (ns : Namespaces) (c : RuleContext)
    (head : RuleHead) (st : Statement) : (ofStatement o ns c head st).value.kind = head.kind := by
  rcases Draft.head_ofStatement o ns c head st with hd | ⟨m, m', hm, hd⟩
  · rw [Rule.kind, hd]
  · rw [Rule.kind, hd, hm]
    rfl

/-- The declarations of a block give no rule a fixed place. -/
theorem Draft.isSome_rank?_ofStatement {o : ReadOptions} {ns : Namespaces} {c : RuleContext} {head : RuleHead}
    {st : Statement} (h : (ofStatement o ns c head st).value.head.rank?.isSome = true) :
    head.rank?.isSome = true := by
  rcases head_ofStatement o ns c head st with hhead | ⟨m, m', rfl, -⟩
  · rw [← hhead]
    exact h
  · rfl

/-! ## Properties of all rules of a draft -/

namespace Draft

mutual

def Every (P : Rule → Prop) : Draft → Prop
  | .rule _ r children => P r ∧ EveryOf P children

def EveryOf (P : Rule → Prop) : List Draft → Prop
  | [] => True
  | d :: ds => Every P d ∧ EveryOf P ds

end

variable {P : Rule → Prop}

theorem everyOf_iff {ds : List Draft} : EveryOf P ds ↔ ∀ d ∈ ds, Every P d := by
  induction ds with
  | nil => simp [EveryOf]
  | cons d ds ih => rw [EveryOf, ih, List.forall_mem_cons]

mutual

theorem Every.imp {Q : Rule → Prop} (hPQ : ∀ r, P r → Q r) : ∀ {d : Draft}, d.Every P → d.Every Q
  | .rule first r children, h => by
      rw [Every] at h ⊢
      exact ⟨hPQ r h.1, EveryOf.imp hPQ h.2⟩

theorem EveryOf.imp {Q : Rule → Prop} (hPQ : ∀ r, P r → Q r) : ∀ {ds : List Draft}, EveryOf P ds →
    EveryOf Q ds
  | [], _ => trivial
  | d :: ds, h => by
      rw [EveryOf] at h ⊢
      exact ⟨Every.imp hPQ h.1, EveryOf.imp hPQ h.2⟩

end

/-- A property that a block of feature values keeps if it takes up another of its kind. -/
def TakesUp (P : Rule → Prop) : Prop := ∀ {r r' : Rule} {old m : FeatureValues}, P r → P r' →
  r.head = .featureBlock old → r'.head = .featureBlock m → old.feature = m.feature →
    P { r with head := .featureBlock (old.merge m) }

/-- What becomes of siblings that take up feature values: one of them has other values. -/
theorem mergeInto?_eq_some : ∀ {ts us : List (Tree Rule)}, mergeInto? m ts = some us →
    ∃ as bs r vs old, ts = as ++ .node r vs :: bs ∧ r.head = .featureBlock old ∧ old.feature = m.feature ∧
      us = as ++ .node { r with head := .featureBlock (old.merge m) } vs :: bs
  | [], _, h => by cases h
  | .node r vs :: ts, us, h => by
      have hlater : ∀ {us}, (mergeInto? m ts).map (.node r vs :: ·) = some us →
          ∃ as bs r' vs' old, .node r vs :: ts = as ++ .node r' vs' :: bs ∧ r'.head = .featureBlock old ∧
            old.feature = m.feature ∧
              us = as ++ .node { r' with head := .featureBlock (old.merge m) } vs' :: bs := by
        intro us h
        obtain ⟨ws, hws, rfl⟩ := Option.map_eq_some_iff.mp h
        obtain ⟨as, bs, r', vs', old, rfl, hr', hf, rfl⟩ := mergeInto?_eq_some hws
        exact ⟨.node r vs :: as, bs, r', vs', old, rfl, hr', hf, rfl⟩
      rw [mergeInto?] at h
      split at h
      · next old hold =>
          split at h
          · next hf =>
              cases h
              exact ⟨[], ts, r, vs, old, rfl, RuleHead.eq_of_features? hold, hf, rfl⟩
          · exact hlater h
      · exact hlater h

/-- The block that takes up feature values is all that changes. -/
theorem every_mergeInto? (hP : TakesUp P) {r' : Rule} {m : FeatureValues} (hr' : P r')
    (hm : r'.head = .featureBlock m) {ts us : List (Tree Rule)} (hts : Tree.EveryOf P ts)
    (h : mergeInto? m ts = some us) : Tree.EveryOf P us := by
  obtain ⟨as, bs, r, vs, old, rfl, hr, hf, rfl⟩ := mergeInto?_eq_some h
  rw [Tree.everyOf_iff, List.forall_mem_append, List.forall_mem_cons, Tree.every_node] at hts ⊢
  obtain ⟨has, ⟨hrule, hvs⟩, hbs⟩ := hts
  exact ⟨has, ⟨hP hrule hr' hr hm hf, hvs⟩, hbs⟩

theorem every_settle (hP : TakesUp P) {first : Bool} {c : Tree Rule} {ts : List (Tree Rule)}
    (hc : Tree.Every P c) (hts : Tree.EveryOf P ts) : Tree.EveryOf P (settle first c ts) := by
  unfold settle
  split
  · exact Tree.everyOf_cons.mpr ⟨hc, hts⟩
  · have hi : slot c.value (ts.map Tree.value) ≤ ts.length := by
      have hslot := slot_le_length c.value (ts.map Tree.value)
      rwa [List.length_map] at hslot
    cases hm : c.value.head.features?.bind (mergeInto? · ts) with
    | none => exact hts.insertIdx hc hi
    | some us =>
        obtain ⟨m, hfeatures, hus⟩ := Option.bind_eq_some_iff.mp hm
        exact every_mergeInto? hP hc.value (RuleHead.eq_of_features? hfeatures) hts hus

mutual

/-- Such a property goes from a draft to its tree. -/
theorem every_tree (hP : TakesUp P) : ∀ {d : Draft}, d.Every P → Tree.Every P d.tree
  | .rule first r children, h => by
      rw [Every] at h
      rw [tree, Tree.every_node]
      exact ⟨h.1, every_treesUnder hP h.2 Tree.everyOf_nil⟩

theorem every_treesUnder (hP : TakesUp P) : ∀ {ds : List Draft} {ts : List (Tree Rule)},
    EveryOf P ds → Tree.EveryOf P ts → Tree.EveryOf P (treesUnder ts ds)
  | [], _, _, hts => hts
  | .rule first r children :: ds, ts, hds, hts => by
      rw [EveryOf] at hds
      rw [treesUnder]
      exact every_treesUnder hP hds.2 (every_settle hP (every_tree hP hds.1) hts)

end

theorem mem_childrenOf {d : Draft} : ∀ {o : Option Draft} {ps : List Part},
    d ∈ childrenOf o ps → o = some d ∨ .child d ∈ ps
  | _, [], h => by cases h
  | o, .declaration :: ps, h => by
      rw [childrenOf, List.mem_append, Option.mem_toList] at h
      rcases h with h | h
      · exact Or.inl h
      · rcases mem_childrenOf h with h | h
        · cases h
        · exact Or.inr (List.mem_cons_of_mem _ h)
  | o, .child d' :: ps, h => by
      rw [childrenOf, List.mem_cons] at h
      rcases h with rfl | h
      · exact Or.inr List.mem_cons_self
      · rcases mem_childrenOf h with h | h
        · exact Or.inl h
        · exact Or.inr (List.mem_cons_of_mem _ h)

/-- Each rule of a draft was read with the same namespaces, or was made for the declarations of a
scope.  What its block was split into has each property `I` that statements hand on to the items in their blocks. -/
theorem every_ofStatement_of {o : ReadOptions} {ns : Namespaces} {I : Item → Prop}
    (hblock : ∀ {t : Statement} {form : ContentForm} {vs : List ComponentValue}, I (.rule t) → t.block = some vs →
      ∀ item ∈ Statement.split form vs, I item)
    (hdeclare : ∀ r ds, (∀ d ∈ ds, I (.declaration d)) → P r → P (r.withDeclarations o ds))
    (hscope : ∀ ds, (∀ d ∈ ds, I (.declaration d)) → P (Rule.ofScope o ds))
    (hread : ∀ {t : Statement} {c : RuleContext} {head : RuleHead}, I (.rule t) → t.read c ns = .ok head →
      P (Rule.fresh head c))
    (c : RuleContext) (head : RuleHead) (st : Statement) (hst : I (.rule st)) (h : P (Rule.fresh head c)) :
    (ofStatement o ns c head st).Every P := by
  rw [ofStatement]
  split
  · rw [Every]
    exact ⟨h, trivial⟩
  · next vs hs =>
      have hitems := @hblock st (Rule.fresh head c).blockContext.contentForm vs hst hs
      have hds : ∀ d ∈ (Statement.split (Rule.fresh head c).blockContext.contentForm vs).filterMap Item.declaration?,
          I (.declaration d) := by
        intro d hd
        obtain ⟨item, hitem, hd⟩ := List.mem_filterMap.mp hd
        cases item with
        | declaration d' =>
            cases hd
            exact hitems _ hitem
        | rule t => cases hd
      rw [Every, everyOf_iff]
      refine ⟨hdeclare _ _ hds h, fun d hd => ?_⟩
      rcases mem_childrenOf hd with hd | hd
      · unfold scopeDraft at hd
        split at hd
        · cases hd
          exact ⟨hscope _ hds, trivial⟩
        · cases hd
      · obtain ⟨⟨item, hi⟩, -, hpart⟩ := List.mem_filterMap.mp hd
        cases item with
        | declaration w => cases hpart
        | rule t =>
            simp only at hpart
            split at hpart
            · next head' ht =>
                cases hpart
                have := Statement.sizeOf_block_lt hs hi
                have hrule := hitems _ hi
                exact every_ofStatement_of hblock hdeclare hscope hread _ head' t hrule (hread hrule ht)
            · cases hpart
termination_by sizeOf st.block

theorem every_ofStatement {o : ReadOptions} {ns : Namespaces}
    (hdeclare : ∀ r ds, P r → P (r.withDeclarations o ds)) (hscope : ∀ ds, P (Rule.ofScope o ds))
    (hread : ∀ {t : Statement} {c : RuleContext} {head : RuleHead}, t.read c ns = .ok head →
      P (Rule.fresh head c))
    (c : RuleContext) (head : RuleHead) (st : Statement) (h : P (Rule.fresh head c)) :
    (ofStatement o ns c head st).Every P :=
  @every_ofStatement_of P o ns (fun _ => True) (fun _ _ _ _ => trivial) (fun r ds _ => hdeclare r ds)
    (fun ds _ => hscope ds) (fun _ => hread) c head st trivial h

theorem sheet_of_none {o : ReadOptions} {imports : Bool} {st : Statement} {items : List Item} {zone : Zone}
    {ns : Namespaces} (h : st.readTop? imports zone ns = none) :
    sheet o imports zone ns (.rule st :: items) = sheet o imports zone ns items := by
  rw [sheet, h]

theorem sheet_of_some {o : ReadOptions} {imports : Bool} {st : Statement} {items : List Item} {zone z : Zone}
    {ns : Namespaces} {head : RuleHead} (h : st.readTop? imports zone ns = some (head, z)) :
    sheet o imports zone ns (.rule st :: items) =
      (ofStatement o ns .stylesheet head st :: (sheet o imports z (head.declare ns) items).1,
        (sheet o imports z (head.declare ns) items).2) := by
  rw [sheet, h]

/-- Each rule of a text was read from a statement, behind other rules and with the namespaces that they
declare. -/
theorem mem_sheet {o : ReadOptions} {imports : Bool} {d : Draft} {items : List Item} {zone : Zone}
    {ns : Namespaces} (hd : d ∈ (sheet o imports zone ns items).1) :
    ∃ st head zone' ns' z, .rule st ∈ items ∧ Statement.readTop? st imports zone' ns' = some (head, z) ∧
      d = ofStatement o ns' .stylesheet head st := by
  induction items generalizing zone ns with
  | nil => cases hd
  | cons item items ih =>
      have hlater : ∀ {zone : Zone} {ns : Namespaces}, d ∈ (sheet o imports zone ns items).1 →
          ∃ st head zone' ns' z, .rule st ∈ item :: items ∧ Statement.readTop? st imports zone' ns' = some (head, z) ∧
            d = ofStatement o ns' .stylesheet head st := by
        intro zone ns hd
        obtain ⟨st, head, zone', ns', z, hst, h⟩ := ih hd
        exact ⟨st, head, zone', ns', z, List.mem_cons_of_mem item hst, h⟩
      cases item with
      | declaration w => exact hlater hd
      | rule st =>
          cases hr : st.readTop? imports zone ns with
          | none =>
              rw [sheet_of_none hr] at hd
              exact hlater hd
          | some found =>
              obtain ⟨head, z⟩ := found
              rw [sheet_of_some hr] at hd
              rcases List.mem_cons.mp hd with rfl | hd
              · exact ⟨st, head, zone, ns, z, List.mem_cons_self, hr, rfl⟩
              · exact hlater hd

end Draft

end StyleTree
