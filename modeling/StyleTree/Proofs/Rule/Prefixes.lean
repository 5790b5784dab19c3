/-
# `Proofs.Rule.Prefixes` — rules are read with declared prefixes only

Selectors stand in the heads of style rules and of scopes, and in no other
head (`RuleHead.mentioned`).  A head that was read mentions prefixes only
that were declared when it was read; this goes on to all rules in its block,
which are read with the same namespaces, and to the rule that is made for
the declarations of a scope.  At the top level each rule is read with the
namespaces declared before it, all of which are still there in the end
(`covered_sheet`).
-/
import StyleTree.Proofs.Namespaces
import StyleTree.Proofs.Selector.Prefixes
import StyleTree.Proofs.Rule.Growth
import StyleTree.Proofs.Rule.Productions

namespace StyleTree

open Namespaces (covers_nil covers_append)

variable {ns : Namespaces} {k : RuleKind} {c : RuleContext} {head : RuleHead} {st : Statement}

/-! ## Heads -/

/-- The prefixes in the selectors of a rule. -/
def RuleHead.mentioned : RuleHead → List String
  | .style l => Selector.mentionedIn l
  | .scope start stop =>
    (start.map Selector.mentionedIn).getD [] ++ (stop.map Selector.mentionedIn).getD []
  | _ => []

/-- Kinds of rules that have selectors. -/
def RuleKind.selects : RuleKind → Bool
  | .style | .scope => true
  | _ => false

theorem RuleHead.mentioned_eq_nil (h : head.kind.selects = false) : head.mentioned = [] := by
  cases head <;> first | rfl | cases h

/-- Nothing that may stand in front of a namespace rule has selectors. -/
theorem selects_of_isPrologue (h : Sheet.isPrologue k = true) : k.selects = false := by
  cases k <;> first | rfl | cases h

/-- A bound of a scope that is missing mentions nothing. -/
theorem covers_bound {mode : SelectorMode} {o : Option (List Selector)}
    (h : ∀ l ∈ o, ∃ vs, Selector.listOfValues ns mode vs = some l) :
    ns.Covers ((o.map Selector.mentionedIn).getD []) := by
  cases o with
  | none => exact covers_nil
  | some l =>
      obtain ⟨vs, hvs⟩ := h l rfl
      exact Selector.covers_listOfValues hvs

/-- What a prelude says mentions declared prefixes only. -/
theorem RuleHead.covers_ofPrelude? (h : RuleHead.ofPrelude? k st c ns = some head) :
    ns.Covers head.mentioned := by
  obtain rfl := RuleHead.kind_of_ofPrelude? h
  cases hs : head.kind.selects with
  | false =>
      rw [RuleHead.mentioned_eq_nil hs]
      exact covers_nil
  | true =>
      cases head with
      | style l =>
          obtain ⟨l', hl, hhead⟩ := Option.map_eq_some_iff.mp h
          cases hhead
          exact Selector.covers_listOfValues hl
      | scope start stop =>
          obtain ⟨r, hr, hhead⟩ := Option.map_eq_some_iff.mp h
          cases hhead
          obtain ⟨ws, hr⟩ := Production.exists_of_whole hr
          obtain ⟨hstart, hstop⟩ := Prelude.bounds_of_scopeBounds hr
          exact covers_append.mpr ⟨covers_bound hstart, covers_bound hstop⟩
      | _ => cases hs

theorem Statement.covers_read (h : st.read c ns = .ok head) : ns.Covers head.mentioned :=
  RuleHead.covers_ofPrelude? (Statement.read_eq_ok.mp h).2.2

/-! ## Drafts -/

/-- The selectors of the rule mention declared prefixes only. -/
def Rule.Covered (ns : Namespaces) (r : Rule) : Prop := ns.Covers r.head.mentioned

theorem Rule.covered_of_eq {r r' : Rule} (h : r.Covered ns) (he : r'.head = r.head) : r'.Covered ns := by
  rw [Covered, he]
  exact h

theorem takesUp_covered : Draft.TakesUp (Rule.Covered ns) := by
  intro r r' old m _ _ _ _ _
  exact covers_nil

theorem covered_ofStatement (h : st.read c ns = .ok head) (o : ReadOptions) :
    (Draft.ofStatement o ns c head st).Every (Rule.Covered ns) := by
  refine Draft.every_ofStatement (fun r ds hr => ?_) (fun ds => ?_) (fun ht => ?_) c head st ?_
  · rcases Rule.head_withDeclarations o r ds with hd | ⟨m, -, hd⟩
    · exact Rule.covered_of_eq hr hd
    · rw [Rule.Covered, hd]
      exact covers_nil
  · exact covers_nil
  · exact Statement.covers_read ht
  · exact Statement.covers_read h

/-- A rule of the prologue has nothing below it. -/
theorem children_ofStatement (h : st.read c ns = .ok head) (hk : Sheet.isPrologue head.kind = true)
    (o : ReadOptions) : (Draft.ofStatement o ns c head st).tree.children = [] := by
  have hb := Statement.block_of_classify (Statement.read_eq_ok.mp h).1 hk
  rw [Draft.ofStatement]
  split
  · rw [Draft.tree, Tree.children, Draft.treesUnder]
  · next vs hs =>
      rw [hb] at hs
      cases hs

/-! ## The top level -/

theorem Namespaces.extends_register (t : Namespaces) (d : Namespaces.Declaration) :
    t.Extends (t.register d.1 d.2) := by
  intro n hn
  have huri := Namespaces.uri?_register t d (some n)
  show ((t.register d.1 d.2).uri? (some n)).isSome = true
  rw [huri]
  split
  · rfl
  · exact hn

theorem RuleHead.extends_declare (head : RuleHead) (ns : Namespaces) : ns.Extends (head.declare ns) := by
  cases head with
  | namespaceRule name uri => exact Namespaces.extends_register ns (name, uri)
  | _ => exact fun _ hn => hn

/-- The rules of a sheet mention prefixes only that are declared in the end, and those of the prologue
have nothing below them. -/
theorem covered_sheet (o : ReadOptions) (imports : Bool) (items : List Item) : ∀ zone ns,
    ns.Extends (Draft.sheet o imports zone ns items).2 ∧
      Draft.EveryOf (Rule.Covered (Draft.sheet o imports zone ns items).2)
        (Draft.sheet o imports zone ns items).1 ∧
      ∀ d ∈ (Draft.sheet o imports zone ns items).1, Sheet.isPrologue d.value.kind = true →
        d.tree.children = [] := by
  induction items with
  | nil =>
      intro zone ns
      exact ⟨fun _ hn => hn, trivial, fun d hd => by cases hd⟩
  | cons item items ih =>
      intro zone ns
      cases item with
      | declaration d => exact ih zone ns
      | rule st =>
          rw [Draft.sheet]
          cases hr : st.readTop? imports zone ns with
          | none => exact ih zone ns
          | some found =>
              obtain ⟨head, zone'⟩ := found
              obtain ⟨hext, hall, hleaf⟩ := ih zone' (head.declare ns)
              have hread := (Statement.readTop?_eq_some.mp hr).1
              have hmore : ns.Extends (Draft.sheet o imports zone' (head.declare ns) items).2 :=
                fun n hn => hext n (head.extends_declare ns n hn)
              refine ⟨hmore, ⟨?_, hall⟩, fun d hd => ?_⟩
              · exact (covered_ofStatement hread o).imp fun r hr => hmore.covers hr
              · rcases List.mem_cons.mp hd with rfl | hd
                · rw [Draft.kind_ofStatement]
                  exact fun hk => children_ofStatement hread hk o
                · exact hleaf d hd

end StyleTree
