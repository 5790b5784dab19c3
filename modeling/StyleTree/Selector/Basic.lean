/-
# `Selector.Basic` — selectors

A selector is a chain of compounds joined by combinators, with a leading
combinator if it is relative.  A compound is a type, then simple selectors,
then pseudo-elements that may carry pseudo-classes of their own.  Some
pseudo-classes take selectors again, so the types are mutually inductive.

The questions asked of a selector here look at the simple selectors of
each compound and into their arguments, not at what follows a
pseudo-element.
-/
import StyleTree.Selector.Nth

namespace StyleTree

/-- How two neighbouring compounds are related. -/
inductive Combinator where
  | descendant
  | child
  | nextSibling
  | laterSibling
  deriving DecidableEq, Inhabited

/-- The namespace part of a type or attribute selector. -/
inductive Qualifier where
  | any
  | none
  | named (name : String)
  deriving DecidableEq, Inhabited

/-- A type selector; the universal one has no name. -/
structure TypeSelector where
  qualifier : Option Qualifier
  name : Option String
  deriving DecidableEq, Inhabited

/-- How an attribute is compared with a value. -/
inductive Matcher where
  | equals
  | includes
  | dashMatch
  | startsWith
  | endsWith
  | contains
  deriving DecidableEq, Inhabited

structure AttributeSelector where
  qualifier : Option Qualifier
  name : String
  /-- The comparison and the value; none tests for presence. -/
  test : Option (Matcher × String)
  /-- The letter `i` or `s` behind the value. -/
  flag : Option Char
  deriving DecidableEq, Inhabited

mutual

/-- A selector of one feature of an element. -/
inductive Simple where
  | nesting
  | byId (name : String)
  | byClass (name : String)
  | byAttribute (a : AttributeSelector)
  | pseudo (p : PseudoClass)

/-- A pseudo-class, by the kind of its argument. -/
inductive PseudoClass where
  | plain (name : String)
  | matching (name : String) (list : List Selector)
  | counting (name : String) (n : Nth)
  | countingOf (name : String) (n : Nth) (list : List Selector)
  | raw (name : String) (argument : List ComponentValue)

/-- A pseudo-element with the pseudo-classes behind it. -/
inductive PseudoElement where
  | mk (name : String) (argument : Option (List ComponentValue)) (classes : List PseudoClass)

/-- Simple selectors of one element. -/
inductive Compound where
  | mk (type : Option TypeSelector) (simple : List Simple) (elements : List PseudoElement)

/-- Compounds from left to right with a combinator between neighbours. -/
inductive Chain where
  | last (c : Compound)
  | link (c : Compound) (k : Combinator) (rest : Chain)

inductive Selector where
  | mk (leading : Option Combinator) (chain : Chain)

end

namespace Compound

def empty : Compound := .mk none [] []

def type : Compound → Option TypeSelector
  | .mk t _ _ => t

def simple : Compound → List Simple
  | .mk _ ss _ => ss

def elements : Compound → List PseudoElement
  | .mk _ _ es => es

def isEmpty (c : Compound) : Bool :=
  c.type.isNone && c.simple.isEmpty && c.elements.isEmpty

/-- The compound with one more simple selector. -/
def withSimple (c : Compound) (s : Simple) : Compound := .mk c.type (c.simple ++ [s]) c.elements

/-- The compound with one more pseudo-element. -/
def withElement (c : Compound) (name : String) (argument : Option (List ComponentValue)) :
    Compound :=
  .mk c.type c.simple (c.elements ++ [.mk name argument []])

/-- The pseudo-elements with one more pseudo-class behind the last. -/
def addClass (p : PseudoClass) : List PseudoElement → List PseudoElement
  | [] => []
  | [.mk n a ps] => [.mk n a (ps ++ [p])]
  | e :: es => e :: addClass p es

/-- The compound with one more pseudo-class: behind its last pseudo-element if it has one. -/
def withClass (c : Compound) (p : PseudoClass) : Compound :=
  if c.elements.isEmpty then c.withSimple (.pseudo p)
  else .mk c.type c.simple (addClass p c.elements)

end Compound

namespace Chain

/-- The compounds from left to right. -/
def compounds : Chain → List Compound
  | .last c => [c]
  | .link c _ rest => c :: compounds rest

/-- The combinators from left to right. -/
def combinators : Chain → List Combinator
  | .last _ => []
  | .link _ k rest => k :: combinators rest

end Chain

namespace Selector

def leading : Selector → Option Combinator
  | .mk l _ => l

def chain : Selector → Chain
  | .mk _ c => c

/-- The selector of one compound. -/
def ofCompound (c : Compound) : Selector := .mk none (.last c)

/-- The selector of the scoping root. -/
def scope : Selector := ofCompound (Compound.empty.withSimple (.pseudo (.plain "scope")))

/-- The selector taken relative to the nesting selector. -/
def underNesting (s : Selector) : Selector :=
  .mk none
    (.link (Compound.empty.withSimple .nesting) (s.leading.getD .descendant) s.chain)

end Selector

/-! ## Mentions of the nesting selector -/

mutual

def Simple.mentionsNesting : Simple → Bool
  | .nesting => true
  | .pseudo p => p.mentionsNesting
  | _ => false

def PseudoClass.mentionsNesting : PseudoClass → Bool
  | .matching _ list => Selector.anyMentionsNesting list
  | .countingOf _ _ list => Selector.anyMentionsNesting list
  | _ => false

def Simple.anyMentionsNesting : List Simple → Bool
  | [] => false
  | s :: ss => s.mentionsNesting || Simple.anyMentionsNesting ss

def Compound.mentionsNesting : Compound → Bool
  | .mk _ simple _ => Simple.anyMentionsNesting simple

def Chain.mentionsNesting : Chain → Bool
  | .last c => c.mentionsNesting
  | .link c _ rest => c.mentionsNesting || rest.mentionsNesting

def Selector.mentionsNesting : Selector → Bool
  | .mk _ chain => chain.mentionsNesting

def Selector.anyMentionsNesting : List Selector → Bool
  | [] => false
  | s :: ss => s.mentionsNesting || Selector.anyMentionsNesting ss

end

/-! ## Namespace prefixes -/

/-- The prefix of a qualifier that names one. -/
def Qualifier.prefixes : Option Qualifier → List String
  | some (.named n) => [n]
  | _ => []

/-- The prefix of a type selector. -/
def TypeSelector.prefixes : Option TypeSelector → List String
  | some t => Qualifier.prefixes t.qualifier
  | none => []

mutual

def Simple.prefixes : Simple → List String
  | .byAttribute a => Qualifier.prefixes a.qualifier
  | .pseudo p => p.prefixes
  | _ => []

/-- The prefixes in the list of a matching pseudo-class; a counting one is not looked into. -/
def PseudoClass.prefixes : PseudoClass → List String
  | .matching _ list => Selector.prefixesOf list
  | _ => []

def Simple.prefixesOf : List Simple → List String
  | [] => []
  | s :: ss => s.prefixes ++ Simple.prefixesOf ss

def Compound.prefixes : Compound → List String
  | .mk type simple _ => TypeSelector.prefixes type ++ Simple.prefixesOf simple

def Chain.prefixes : Chain → List String
  | .last c => c.prefixes
  | .link c _ rest => c.prefixes ++ rest.prefixes

def Selector.prefixes : Selector → List String
  | .mk _ chain => chain.prefixes

def Selector.prefixesOf : List Selector → List String
  | [] => []
  | s :: ss => s.prefixes ++ Selector.prefixesOf ss

end

end StyleTree
