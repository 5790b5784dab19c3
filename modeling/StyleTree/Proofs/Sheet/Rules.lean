/-
# `Proofs.Sheet.Rules` — what holds of each rule by itself

Many properties of a rule have nothing to do with the rules around it.
Such a property is a `RuleInvariant` if the rules that are read have it,
and the two that are made without being read: the rule for the declarations
of a scope, and a block of feature values; and if it is kept by what
changes a rule, be it the declarations of its block, feature values that
are merged into it, or an edit.  It then holds of all rules of a sheet,
whatever was done to the sheet (`RuleInvariant.of_reachable`).

What is said of the declarations of a rule alone comes down to three facts
about a block: when it is empty, when a valid declaration is inserted, and
when one is removed (`DeclarationBlock.Invariant.ruleInvariant`).
-/
import StyleTree.Proofs.Rule.Growth
import StyleTree.Proofs.Rule.Reading
import StyleTree.Proofs.Sheet.Invariants

namespace StyleTree

open StyleTree.Tree (EveryOf bareAll)

variable {P : ReadOptions → Rule → Prop} {o : ReadOptions}

/-- A property of single rules that reading establishes and no change breaks. -/
structure RuleInvariant (P : ReadOptions → Rule → Prop) : Prop where
  read : ∀ {o} {st : Statement} {c ns head}, st.read c ns = .ok head → P o (Rule.fresh head c)
  declare : ∀ {o r} ds, P o r → P o (r.withDeclarations o ds)
  scope : ∀ o ds, P o (Rule.ofScope o ds)
  merge : ∀ {o}, Draft.TakesUp (P o)
  found : ∀ {o f name values m}, (FeatureValues.empty f).set name values = .ok m →
    P o ⟨.featureBlock m, none, .fontFeatureValues⟩
  revise : ∀ {s : Sheet} {e id r r'}, s.Revision e id r r' → P s.settings.options r →
    P s.settings.options r'

namespace RuleInvariant

theorem every_ofStatement (h : RuleInvariant P) {st : Statement} {c : RuleContext} {ns : Namespaces}
    {head : RuleHead} (hread : st.read c ns = .ok head) :
    (Draft.ofStatement o ns c head st).Every (P o) :=
  Draft.every_ofStatement (fun _ ds hr => h.declare ds hr) (h.scope o) h.read c head st (h.read hread)

theorem every_tree (h : RuleInvariant P) {d : Draft} (hd : d.Every (P o)) : Tree.Every (P o) d.tree :=
  Draft.every_tree h.merge hd

/-- The rules of a text have the property. -/
theorem everyOf_ofText (h : RuleInvariant P) {imports : Bool} {text : String}
    {us : List (Tree (RuleId × Rule))} (hus : bareAll us = (Draft.ofText o imports text).1.map Draft.tree) :
    EveryOf (fun e => P o e.2) us := by
  rw [← Tree.everyOf_bareAll, hus, Tree.everyOf_iff]
  intro t ht
  obtain ⟨d, hd, rfl⟩ := List.mem_map.mp ht
  obtain ⟨st, head, zone, ns, z, -, htop, rfl⟩ := Draft.mem_sheet hd
  exact h.every_tree (h.every_ofStatement (Statement.readTop?_eq_some.mp htop).1)

theorem every_grown (h : RuleInvariant P) {s : Sheet} {c : RuleContext} {head : RuleHead} {st : Statement}
    {w : Tree (RuleId × Rule)} (hw : s.Grown c head st w) :
    Tree.Every (fun e => P s.settings.options e.2) w := by
  rw [← Tree.every_bare, hw.bare]
  exact h.every_tree (h.every_ofStatement hw.read)

/-- No edit breaks the property. -/
theorem reshape (h : RuleInvariant P) {s : Sheet} {ts us : List (Tree (RuleId × Rule))} {e : Edit}
    {ns : Namespaces} (hs : s.Planted ts) (hts : EveryOf (fun e => P s.settings.options e.2) ts)
    (hre : Sheet.Reshape s ts e ns us) : EveryOf (fun e => P s.settings.options e.2) us := by
  cases hre with
  | ignored _ => exact hts
  | @revised _ id r f hr hrev =>
      have hboth : EveryOf (fun e => P s.settings.options e.2 ∧ s.rule? e.1 = some e.2) ts :=
        fun e he => ⟨hts e he, hs.every_rule e he⟩
      refine hboth.adjustAll (fun e _ he => he.1) fun a ha => ?_
      obtain rfl : r = a := Option.some.inj (hr.symm.trans ha.2)
      exact h.revise hrev ha.1
  | listed hi _ _ hw => exact hts.insertIdx (h.every_grown hw) hi
  | grafted _ _ _ hw _ => exact hts.graftAll (h.every_grown hw)
  | founded _ _ _ _ hset =>
      refine hts.graftAll ?_
      rw [Tree.every_node]
      exact ⟨h.found hset, Tree.everyOf_nil⟩
  | cut _ _ _ => exact hts.pruneAll
  | replaced hbare => exact h.everyOf_ofText hbare

theorem invariant (h : RuleInvariant P) :
    Sheet.Invariant fun c _ ts => EveryOf (fun e => P c.options e.2) ts where
  empty _ := Tree.everyOf_nil
  ofText := h.everyOf_ofText
  switched _ hts := hts
  reshape := h.reshape

/-- The property holds of each rule of a sheet after any run of events. -/
theorem of_reachable (h : RuleInvariant P) {σ : SharedSheet} (hσ : σ.Reachable) {id : RuleId} {r : Rule}
    (hr : σ.sheet.rule? id = some r) : P σ.sheet.settings.options r := by
  obtain ⟨ts, hs, hts⟩ := h.invariant.of_reachable hσ
  exact hs.everyOf_iff.mp hts id r hr

end RuleInvariant

/-! ## Blocks of declarations -/

/-- A property of blocks that an empty one has, and that neither a valid declaration nor a removal breaks. -/
structure DeclarationBlock.Invariant (Q : ValueGrammar → DeclarationBlock → Prop) : Prop where
  empty : ∀ g c, Q g (.empty c)
  insert : ∀ {g b name vs important e}, Q g b → g.validate? b.context name vs important = some e →
    Q g (b.insert e.1 e.2)
  erase : ∀ {g b} name, Q g b → Q g (b.erase name)

namespace DeclarationBlock.Invariant

variable {Q : ValueGrammar → DeclarationBlock → Prop} {g : ValueGrammar} {b : DeclarationBlock}

theorem declareAll (h : Invariant Q) (hb : Q g b) (ds : List WrittenDeclaration) : Q g (b.declareAll g ds) := by
  induction ds generalizing b with
  | nil => exact hb
  | cons d ds ih =>
      rw [DeclarationBlock.declareAll, List.foldl_cons, ← DeclarationBlock.declareAll]
      refine ih ?_
      cases hd : b.declare? g d with
      | none => exact hb
      | some b' =>
          obtain ⟨e, he, rfl⟩ := Option.map_eq_some_iff.mp hd
          exact h.insert hb he

theorem fresh (h : Invariant Q) (g : ValueGrammar) (head : RuleHead) (c : RuleContext)
    (hb : (Rule.fresh head c).declarations = some b) : Q g b := by
  unfold Rule.fresh Rule.declarationsOf at hb
  simp only at hb
  split at hb
  · obtain ⟨k, -, rfl⟩ := Option.map_eq_some_iff.mp hb
    exact h.empty g k
  · cases hb

theorem withDeclarations (h : Invariant Q) {r : Rule} (hr : ∀ b, r.declarations = some b → Q o.grammar b)
    (ds : List WrittenDeclaration) (hb : (r.withDeclarations o ds).declarations = some b) : Q o.grammar b := by
  unfold Rule.withDeclarations at hb
  split at hb
  · exact hr b hb
  · split at hb
    · cases hb
      refine h.declareAll ?_ ds
      cases hd : r.declarations with
      | none => exact h.empty _ .style
      | some b => exact hr b hd
    · exact hr b hb
  · exact hr b hb
  · obtain ⟨b', hb', rfl⟩ := Option.map_eq_some_iff.mp hb
    exact h.declareAll (hr b' hb') ds

/-- The blocks of all rules have the property, whatever is done to the sheet. -/
theorem ruleInvariant (h : Invariant Q) : RuleInvariant fun o r => ∀ b, r.declarations = some b → Q o.grammar b where
  read _ _ hb := h.fresh _ _ _ hb
  declare ds hr _ hb := h.withDeclarations hr ds hb
  scope o ds := by
    rintro b ⟨⟩
    exact h.declareAll (h.empty _ .style) ds
  merge hr _ _ _ _ := hr
  found := by rintro o f name values m - b ⟨⟩
  revise := by
    intro s e id r r' hrev hr
    cases hrev with
    | blank hb _ | removed hb =>
        rintro b' ⟨⟩
        exact h.erase _ (hr _ hb)
    | declared hb hread =>
        rintro b' ⟨⟩
        unfold ValueGrammar.read at hread
        split at hread
        · next hvalid =>
            cases hread
            exact h.insert (hr _ hb) hvalid
        · cases hread
    | _ => exact hr

end DeclarationBlock.Invariant

end StyleTree
