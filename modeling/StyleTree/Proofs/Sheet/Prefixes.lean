/-
# `Proofs.Sheet.Prefixes` — no selector uses a prefix that is not declared

Selectors are checked against the namespaces once, when they are read.  The
namespaces change afterwards: they grow when a namespace rule is inserted,
which harms no selector, and they shrink when one is deleted or when all
rules are replaced.  A namespace rule is deleted only while every rule at
the top level is of the prologue.  Such rules have no selectors, and nothing
below them (`leaves`), so there are no selectors at all then.  A replacement
comes with namespaces of its own, against which its rules were read.

`Sound` has both facts about the trees of a sheet.  Each edit keeps it
(`Reshape.sound`), so it is an invariant.
-/
import StyleTree.Proofs.Rule.Prefixes
import StyleTree.Proofs.Sheet.Invariants
import StyleTree.Proofs.Sheet.Links

namespace StyleTree

open StyleTree.Tree (root Every EveryOf adjustAll graftAll pruneAll bareAll)
open Namespaces (covers_nil)

namespace Sheet

variable {s t : Sheet} {ts us : List (Tree (RuleId × Rule))} {e : Edit} {id : RuleId} {ns : Namespaces}

/-- The selectors of all rules are covered, and the rules of the prologue have nothing below them. -/
structure Sound (ns : Namespaces) (ts : List (Tree (RuleId × Rule))) : Prop where
  covered : EveryOf (fun e => e.2.Covered ns) ts
  leaves : ∀ t ∈ ts, isPrologue t.value.2.kind = true → t.children = []

/-! ## Rules that come in -/

theorem Grown.covered {c : RuleContext} {head : RuleHead} {st : Statement} {w : Tree (RuleId × Rule)}
    (h : s.Grown c head st w) : Every (fun e => e.2.Covered s.namespaces) w := by
  have hdraft := covered_ofStatement h.read s.settings.options
  have htree := Draft.every_tree takesUp_covered hdraft
  rw [← h.bare] at htree
  exact Tree.every_bare.mp htree

theorem children_of_bare {w : Tree (RuleId × Rule)} {d : Draft} (h : w.bare = d.tree)
    (hd : d.tree.children = []) : w.children = [] := by
  rw [← h, Tree.children_bare] at hd
  cases hc : w.children with
  | nil => rfl
  | cons t ts =>
      rw [hc, Tree.bareAll_cons] at hd
      cases hd

theorem kind_of_bare {w : Tree (RuleId × Rule)} {d : Draft} (h : w.bare = d.tree) :
    w.value.2.kind = d.value.kind := by
  rw [← Tree.value_bare, h, Draft.value_tree]

theorem Grown.leaf {c : RuleContext} {head : RuleHead} {st : Statement} {w : Tree (RuleId × Rule)}
    (h : s.Grown c head st w) (hk : isPrologue w.value.2.kind = true) : w.children = [] := by
  refine children_of_bare h.bare (children_ofStatement h.read ?_ _)
  rw [kind_of_bare h.bare, Draft.kind_ofStatement] at hk
  exact hk

theorem sound_sheet {o : ReadOptions} {imports : Bool} {text : String}
    (h : bareAll us = (Draft.ofText o imports text).1.map Draft.tree) :
    Sound (Draft.ofText o imports text).2 us := by
  obtain ⟨-, hall, hleaf⟩ := covered_sheet o imports
    (Statement.split .stylesheet (ComponentValue.ofText text)) .start .empty
  constructor
  · refine Tree.everyOf_bareAll.mp ?_
    rw [h, Tree.everyOf_iff]
    intro t ht
    obtain ⟨d, hd, rfl⟩ := List.mem_map.mp ht
    exact Draft.every_tree takesUp_covered (Draft.everyOf_iff.mp hall d hd)
  · intro t ht hk
    have hbare : t.bare ∈ bareAll us := by
      rw [Tree.bareAll_eq_map]
      exact List.mem_map_of_mem ht
    rw [h] at hbare
    obtain ⟨d, hd, hdt⟩ := List.mem_map.mp hbare
    rw [kind_of_bare hdt.symm] at hk
    exact children_of_bare hdt.symm (hleaf d hd hk)

/-! ## Rules that change -/

theorem Revision.covered {r r' : Rule} (h : s.Revision e id r r') (hr : r.Covered s.namespaces) :
    r'.Covered s.namespaces := by
  cases h with
  | key _ _ => exact covers_nil
  | keyframesName _ _ => exact covers_nil
  | counterStyleName _ _ => exact covers_nil
  | selectors hsel =>
      rcases selectorsOf_cases hsel with ⟨-, l, hl, rfl⟩ | ⟨-, l, -, rfl⟩
      · exact Selector.covers_listOfValues hl
      · exact covers_nil
  | blank _ _ => exact hr
  | declared _ _ => exact hr
  | removed _ => exact hr
  | feature _ _ _ => exact covers_nil
  | noFeature _ _ => exact covers_nil

/-! ## The trees of a sheet -/

theorem Sound.extends {ns' : Namespaces} (h : Sound ns ts) (hext : ns.Extends ns') : Sound ns' ts :=
  ⟨fun e he => hext.covers (h.covered e he), h.leaves⟩

theorem Sound.adjustAll (h : Sound s.namespaces ts) (hs : s.Planted ts) {r : Rule} {f : Rule → Rule}
    (hr : s.rule? id = some r) (hrev : s.Revision e id r (f r)) :
    Sound s.namespaces (adjustAll id f ts) := by
  constructor
  · have hboth : EveryOf (fun e => e.2.Covered s.namespaces ∧ s.rule? e.1 = some e.2) ts :=
      fun e he => ⟨h.covered e he, hs.every_rule e he⟩
    refine hboth.adjustAll (fun e _ he => he.1) fun a ha => ?_
    obtain ⟨hcov, hrule⟩ := ha
    rw [hr, Option.some.injEq] at hrule
    obtain rfl : r = a := hrule
    exact hrev.covered hcov
  · rw [Tree.adjustAll_eq_map]
    intro t ht hk
    obtain ⟨u, hu, rfl⟩ := List.mem_map.mp ht
    have hchildren : (Tree.adjust id f u).children = Tree.adjustAll id f u.children := by
      cases u
      rfl
    rw [hchildren, h.leaves u hu ?_]
    · rfl
    · rw [Tree.value_adjust] at hk
      split at hk
      · next hid =>
          have hrule := hs.rule?_root hu
          rw [hid, hr, Option.some.injEq] at hrule
          rw [← hrule, hrev.kind_eq.1] at hk
          rw [← hrule]
          exact hk
      · exact hk

theorem Sound.insertIdx (h : Sound ns ts) {w : Tree (RuleId × Rule)} {i : Nat} (hi : i ≤ ts.length)
    (hw : Every (fun e => e.2.Covered ns) w)
    (hleaf : isPrologue w.value.2.kind = true → w.children = []) : Sound ns (ts.insertIdx i w) := by
  refine ⟨h.covered.insertIdx hw hi, fun t ht => ?_⟩
  rcases (List.mem_insertIdx hi).mp ht with rfl | ht
  · exact hleaf
  · exact h.leaves t ht

theorem isPrologue_eq_false {k : RuleKind} (h : k.hasChildren = true) : isPrologue k = false := by
  cases k <;> first | rfl | cases h

/-- What receives a tree is not of the prologue. -/
theorem Sound.graftAll (h : Sound s.namespaces ts) (hs : s.Planted ts) {w : Tree (RuleId × Rule)}
    {n : Nat} {r : Rule} (hr : s.rule? id = some r) (hk : r.kind.hasChildren = true)
    (hw : Every (fun e => e.2.Covered s.namespaces) w) : Sound s.namespaces (graftAll id n w ts) := by
  refine ⟨h.covered.graftAll hw, fun t ht hpro => ?_⟩
  rw [Tree.graftAll_eq_map] at ht
  obtain ⟨u, hu, rfl⟩ := List.mem_map.mp ht
  rw [Tree.value_graft] at hpro
  have hchildren := h.leaves u hu hpro
  have hrule := hs.rule?_root hu
  obtain ⟨e, vs⟩ := u
  obtain rfl : vs = [] := hchildren
  have hne : e.1 ≠ id := by
    intro hid
    rw [Tree.root_node, hid, hr, Option.some.injEq] at hrule
    obtain rfl : r = e.2 := hrule
    exact Bool.false_ne_true ((isPrologue_eq_false hk).symm.trans hpro)
  rw [Tree.graft, if_neg hne]
  rfl

theorem Sound.pruneAll (h : Sound ns ts) (id : RuleId) : Sound ns (pruneAll id ts) := by
  refine ⟨h.covered.pruneAll, fun t ht hk => ?_⟩
  rw [Tree.pruneAll_eq_map] at ht
  obtain ⟨u, hu, rfl⟩ := List.mem_map.mp ht
  rw [Tree.value_prune] at hk
  have hchildren := h.leaves u (List.mem_of_mem_filter hu) hk
  obtain ⟨e, vs⟩ := u
  obtain rfl : vs = [] := hchildren
  rfl

/-- Without a body there are no selectors, and any namespaces will do. -/
theorem Sound.of_prologue (h : Sound ns ts) (hs : s.Planted ts) (hb : s.hasBody = false)
    (ns' : Namespaces) : Sound ns' ts := by
  refine ⟨?_, h.leaves⟩
  rw [Tree.everyOf_iff]
  intro t ht
  have hk : isPrologue t.value.2.kind = true := by
    rw [hasBody, kinds, hs.top_rules, tops, List.map_map, List.any_eq_false] at hb
    simpa using hb _ (List.mem_map_of_mem ht)
  have hchildren := h.leaves t ht hk
  obtain ⟨e, vs⟩ := t
  obtain rfl : vs = [] := hchildren
  rw [Tree.every_node]
  refine ⟨?_, Tree.everyOf_nil⟩
  have hnil : e.2.head.mentioned = [] := RuleHead.mentioned_eq_nil (selects_of_isPrologue hk)
  rw [Rule.Covered, hnil]
  exact covers_nil

theorem Reshape.sound (h : Reshape s ts e ns us) (hs : s.Planted ts) (hS : Sound s.namespaces ts) :
    Sound ns us := by
  cases h with
  | ignored _ => exact hS
  | revised hr hrev => exact hS.adjustAll hs hr hrev
  | @listed text i st head w hi _ _ hg =>
      have hext := head.extends_declare s.namespaces
      exact (hS.extends hext).insertIdx hi (fun e he => hext.covers (hg.covered e he)) hg.leaf
  | @grafted _ p n r st head w _ hr hk hg _ =>
      exact (hS.graftAll hs hr (Bool.and_eq_true_iff.mp hk).1 hg.covered).extends (head.extends_declare s.namespaces)
  | founded hr hk _ _ _ =>
      refine hS.graftAll hs hr (by rw [hk]; rfl) ?_
      rw [Tree.every_node]
      exact ⟨covers_nil, Tree.everyOf_nil⟩
  | @cut _ id r _ hr hb =>
      by_cases hk : r.kind = .namespaceRule
      · exact (hS.of_prologue hs (hb hk) _).pruneAll id
      · rw [if_neg hk]
        exact hS.pruneAll id
  | replaced hbare => exact sound_sheet hbare

theorem invariant_sound : Invariant fun _ => Sound where
  empty _ := ⟨Tree.everyOf_nil, fun t ht => by cases ht⟩
  ofText := sound_sheet
  switched _ h := h
  reshape hs h hre := hre.sound hs h

end Sheet

namespace SharedSheet

/-- Whatever was done to a sheet, each prefix that stands anywhere in the selectors of one of its rules
is declared in it. -/
theorem prefixes_declared {σ : SharedSheet} (h : σ.Reachable) {id : RuleId} {r : Rule}
    (hr : σ.sheet.rule? id = some r) :
    ∀ n ∈ r.head.mentioned, σ.sheet.namespaces.isDeclared n = true := by
  obtain ⟨ts, hs, hsound⟩ := Sheet.invariant_sound.of_reachable h
  exact hs.everyOf_iff.mp hsound.covered id r hr

/-- A prefix that stands in the argument of a pseudo-class. -/
theorem prefixes_declared_nested :
    let σ := ofSheet (Sheet.read .scripted "@namespace p url(u);a::before:is(p|b){}")
    ∃ id r, σ.sheet.rule? id = some r ∧ r.head.mentioned = ["p"] ∧
      σ.sheet.namespaces.isDeclared "p" = true := by
  intro σ
  have hσ : σ.Reachable := ⟨σ, [], .read _ _, rfl⟩
  have hrule : (σ.sheet.rule? ⟨2, 1⟩).map (fun r => r.head.mentioned) = some ["p"] := by
    decide +kernel
  obtain ⟨r, hr, hp⟩ := Option.map_eq_some_iff.mp hrule
  exact ⟨_, r, hr, hp, prefixes_declared hσ hr "p" (by rw [hp]; exact List.mem_singleton_self _)⟩

end SharedSheet

end StyleTree
