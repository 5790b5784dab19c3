/-
# `Proofs.Selector.Values` — the values of a written selector

`values` says which component values the text of a selector is made of, for
a selector whose pseudo-classes and pseudo-elements are spelled so that they
can be read back (`Pseudo.isSpelled`): arguments are numbers and selectors
only, and no name needs an escape.  Names with a vendor's mark in front are
written as they were read, so that one with an escape is read as something
else.

The values of one compound hold no blank, no comma and no combinator
(`isInner`), those of a selector do not begin with a blank, and in none of
them is anything closed but the blocks they are made of
(`closesNothing_valuesOf`).
-/
import StyleTree.Proofs.Selector.WellFormed

namespace StyleTree

open ComponentValue

/-! ## Pseudo-classes and pseudo-elements at any depth -/

namespace Selector.Pseudo

/-- The argument, if there is one, is a number or a list of selectors. -/
def isBare : Pseudo → Bool
  | .ofClass (.raw _ _) => false
  | .ofClass _ => true
  | .ofElement _ argument => argument.isNone

/-- The name stands for itself: no character of it needs an escape. -/
def isPlain : Pseudo → Bool
  | .ofClass (.plain n) => n.toList.all Text.isPlainInName
  | .ofClass _ => true
  | .ofElement n _ => n.toList.all Text.isPlainInName

def isSpelled (x : Pseudo) : Bool := x.isBare && x.isPlain

end Selector.Pseudo

open Selector (Pseudo)

mutual

def Simple.pseudos : Simple → List Pseudo
  | .pseudo p => p.pseudos
  | _ => []

def PseudoClass.pseudos : PseudoClass → List Pseudo
  | .plain n => [.ofClass (.plain n)]
  | .matching n list => .ofClass (.matching n list) :: Selector.pseudosIn list
  | .counting n k => [.ofClass (.counting n k)]
  | .countingOf n k list => .ofClass (.countingOf n k list) :: Selector.pseudosIn list
  | .raw n vs => [.ofClass (.raw n vs)]

def PseudoElement.pseudos : PseudoElement → List Pseudo
  | .mk n argument classes => .ofElement n argument :: PseudoClass.pseudosIn classes

def Simple.pseudosIn : List Simple → List Pseudo
  | [] => []
  | s :: ss => s.pseudos ++ Simple.pseudosIn ss

def PseudoClass.pseudosIn : List PseudoClass → List Pseudo
  | [] => []
  | p :: ps => p.pseudos ++ PseudoClass.pseudosIn ps

def PseudoElement.pseudosIn : List PseudoElement → List Pseudo
  | [] => []
  | e :: es => e.pseudos ++ PseudoElement.pseudosIn es

def Compound.pseudos : Compound → List Pseudo
  | .mk _ simple elements => Simple.pseudosIn simple ++ PseudoElement.pseudosIn elements

def Chain.pseudos : Chain → List Pseudo
  | .last c => c.pseudos
  | .link c _ rest => c.pseudos ++ rest.pseudos

def Selector.pseudos : Selector → List Pseudo
  | .mk _ chain => chain.pseudos

/-- The pseudo-classes and pseudo-elements in the selectors, also those in arguments. -/
def Selector.pseudosIn : List Selector → List Pseudo
  | [] => []
  | s :: ss => s.pseudos ++ Selector.pseudosIn ss

end

/-! ## Values -/

def Qualifier.values : Option Qualifier → List ComponentValue
  | .none => []
  | some .any => [.token (.delim '*'), .token (.delim '|')]
  | some .none => [.token (.delim '|')]
  | some (.named n) => [.token (.ident n), .token (.delim '|')]

/-- The name of a type, or a star. -/
def TypeSelector.nameToken (t : TypeSelector) : Token :=
  match t.name with
  | some n => .ident n
  | none => .delim '*'

def TypeSelector.values (t : TypeSelector) : List ComponentValue :=
  Qualifier.values t.qualifier ++ [.token t.nameToken]

def Matcher.token : Matcher → Token
  | .equals => .delim '='
  | .includes => .includes
  | .dashMatch => .dashMatch
  | .startsWith => .startsWith
  | .endsWith => .endsWith
  | .contains => .contains

/-- The comparison behind the name of an attribute. -/
def AttributeSelector.testValues (a : AttributeSelector) : List ComponentValue :=
  (match a.test with
    | some (m, v) => [.token m.token, .token (.string v)]
    | none => []) ++
  match a.flag with
    | some c => [.token .blank, .token (.ident (String.singleton c))]
    | none => []

def AttributeSelector.values (a : AttributeSelector) : List ComponentValue :=
  Qualifier.values a.qualifier ++ .token (.ident a.name) :: a.testValues

def Combinator.values : Combinator → List ComponentValue
  | .descendant => [.token .blank]
  | .child => [.token .blank, .token (.delim '>'), .token .blank]
  | .nextSibling => [.token .blank, .token (.delim '+'), .token .blank]
  | .laterSibling => [.token .blank, .token (.delim '~'), .token .blank]

mutual

def Simple.values : Simple → List ComponentValue
  | .nesting => [.token (.delim '&')]
  | .byId n => [.token (.idHash n)]
  | .byClass n => [.token (.delim '.'), .token (.ident n)]
  | .byAttribute a => [.block (.bracket .square) a.values]
  | .pseudo p => .token .colon :: [p.value]

/-- What stands behind the colon of a pseudo-class. -/
def PseudoClass.value : PseudoClass → ComponentValue
  | .plain n => .token (.ident n)
  | .matching n list => .block (.function n) (Selector.valuesOf list)
  | .counting n k => .block (.function n) (k.tokens.map .token)
  | .countingOf n k list =>
    .block (.function n) (k.tokens.map .token ++
      .token .blank :: .token (.ident "of") :: .token .blank :: Selector.valuesOf list)
  | .raw n vs => .block (.function n) vs

def PseudoElement.values : PseudoElement → List ComponentValue
  | .mk n argument classes =>
    .token .colon :: .token .colon ::
      (match argument with
        | some vs => .block (.function n) vs
        | none => .token (.ident n)) :: PseudoClass.valuesOf classes

def Simple.valuesOf : List Simple → List ComponentValue
  | [] => []
  | s :: ss => s.values ++ Simple.valuesOf ss

def PseudoClass.valuesOf : List PseudoClass → List ComponentValue
  | [] => []
  | p :: ps => .token .colon :: p.value :: PseudoClass.valuesOf ps

def PseudoElement.valuesOf : List PseudoElement → List ComponentValue
  | [] => []
  | e :: es => e.values ++ PseudoElement.valuesOf es

def Compound.values : Compound → List ComponentValue
  | .mk type simple elements =>
    (match type with
      | some t => t.values
      | none => []) ++ (Simple.valuesOf simple ++ PseudoElement.valuesOf elements)

def Chain.values : Chain → List ComponentValue
  | .last c => c.values
  | .link c k rest => c.values ++ (k.values ++ rest.values)

def Selector.values : Selector → List ComponentValue
  | .mk leading chain =>
    (match leading with
      | some k => k.values.drop 1
      | none => []) ++ chain.values

/-- The values of a list of selectors, with a comma and a blank between neighbours. -/
def Selector.valuesOf : List Selector → List ComponentValue
  | [] => []
  | [s] => s.values
  | s :: ss => s.values ++ .token .comma :: .token .blank :: Selector.valuesOf ss

end

/-! ## The form of the values -/

/-- A value that separates nothing: no blank, no comma and no combinator. -/
def ComponentValue.isInner : ComponentValue → Bool
  | .token .blank => false
  | .token .comma => false
  | .token (.delim c) => c != '>' && c != '+' && c != '~'
  | _ => true

theorem Qualifier.isInner_values (q : Option Qualifier) : (Qualifier.values q).all isInner = true := by
  match q with
  | .none => rfl
  | some .any => rfl
  | some .none => rfl
  | some (.named n) => rfl

theorem TypeSelector.isInner_values (t : TypeSelector) : t.values.all isInner = true := by
  obtain ⟨q, n⟩ := t
  rw [values, List.all_append, Qualifier.isInner_values]
  cases n <;> rfl

/-- Every combinator has a blank in front. -/
theorem Combinator.values_eq (k : Combinator) : k.values = .token .blank :: k.values.drop 1 := by
  cases k <;> rfl

theorem PseudoClass.isInner_value (p : PseudoClass) : p.value.isInner = true := by
  cases p <;> rfl

theorem Simple.isInner_values (s : Simple) : s.values.all isInner = true := by
  cases s with
  | pseudo p =>
      rw [values, List.all_cons, List.all_cons, p.isInner_value]
      rfl
  | _ => rfl

theorem PseudoClass.isInner_valuesOf (ps : List PseudoClass) : (valuesOf ps).all isInner = true := by
  induction ps with
  | nil => rfl
  | cons p ps ih =>
      rw [valuesOf, List.all_cons, List.all_cons, p.isInner_value, ih]
      rfl

theorem Simple.isInner_valuesOf (ss : List Simple) : (valuesOf ss).all isInner = true := by
  induction ss with
  | nil => rfl
  | cons s ss ih => rw [valuesOf, List.all_append, s.isInner_values, ih, Bool.and_self]

theorem PseudoElement.isInner_valuesOf (es : List PseudoElement) : (valuesOf es).all isInner = true := by
  induction es with
  | nil => rfl
  | cons e es ih =>
      obtain ⟨n, argument, classes⟩ := e
      rw [valuesOf, List.all_append, ih, Bool.and_true]
      have hclasses := PseudoClass.isInner_valuesOf classes
      cases argument <;> simpa [values, isInner] using hclasses

theorem Compound.isInner_values (c : Compound) : c.values.all isInner = true := by
  obtain ⟨type, simple, elements⟩ := c
  have hsimple := Simple.isInner_valuesOf simple
  have helements := PseudoElement.isInner_valuesOf elements
  cases type with
  | none => rw [values, List.nil_append, List.all_append, hsimple, helements, Bool.and_self]
  | some t =>
      rw [values, List.all_append, t.isInner_values, List.all_append, hsimple, helements]
      rfl

theorem Compound.values_ne_nil {c : Compound} (h : c.isEmpty = false) : c.values ≠ [] := by
  obtain ⟨type, simple, elements⟩ := c
  cases type with
  | some t => simp [values, TypeSelector.values]
  | none =>
      cases simple with
      | cons s ss => cases s <;> simp [values, Simple.valuesOf, Simple.values]
      | nil =>
          cases elements with
          | cons e es =>
              obtain ⟨n, argument, classes⟩ := e
              simp [values, PseudoElement.valuesOf, PseudoElement.values]
          | nil => cases h

theorem isBlank_of_isInner {v : ComponentValue} (h : v.isInner = true) : v.isBlank = false := by
  unfold isBlank
  split
  · cases h
  · rfl

section

variable {ns : Namespaces}

theorem Compound.exists_values {c : Compound} (h : c.WellFormed ns) :
    ∃ v vs, c.values = v :: vs ∧ v.isBlank = false := by
  have hne : c.values ≠ [] := by
    obtain ⟨type, simple, elements⟩ := c
    exact values_ne_nil h.2.2.2
  obtain ⟨v, vs, hvs⟩ := List.exists_cons_of_ne_nil hne
  have hinner := List.all_eq_true.mp c.isInner_values v (hvs ▸ List.mem_cons_self)
  exact ⟨v, vs, hvs, isBlank_of_isInner hinner⟩

theorem Chain.exists_values {k : Chain} (h : k.WellFormed ns) : ∃ v vs, k.values = v :: vs ∧ v.isBlank = false := by
  cases k with
  | last c => exact c.exists_values h
  | link c j rest =>
      obtain ⟨v, vs, hvs, hv⟩ := c.exists_values h.1
      exact ⟨v, vs ++ (j.values ++ rest.values), by rw [values, hvs, List.cons_append], hv⟩

/-- A selector does not begin with a blank. -/
theorem Selector.exists_values {mode : SelectorMode} {s : Selector} (h : s.WellFormed ns mode) :
    ∃ v vs, s.values = v :: vs ∧ v.isBlank = false := by
  obtain ⟨leading, k⟩ := s
  obtain ⟨v, vs, hvs, hv⟩ := k.exists_values h.1
  match leading with
  | none => exact ⟨v, vs, hvs, hv⟩
  | some .descendant => exact ⟨v, vs, hvs, hv⟩
  | some .child => exact ⟨_, _, rfl, rfl⟩
  | some .nextSibling => exact ⟨_, _, rfl, rfl⟩
  | some .laterSibling => exact ⟨_, _, rfl, rfl⟩

theorem Selector.exists_valuesOf {mode : SelectorMode} {s : Selector} (h : s.WellFormed ns mode)
    (ss : List Selector) : ∃ v vs, valuesOf (s :: ss) = v :: vs ∧ v.isBlank = false := by
  obtain ⟨v, vs, hvs, hv⟩ := s.exists_values h
  cases ss with
  | nil => exact ⟨v, vs, hvs, hv⟩
  | cons s' ss => exact ⟨v, _, by rw [valuesOf, hvs, List.cons_append]; rintro ⟨⟩, hv⟩

end

/-! ## Nothing is closed -/

theorem closesNothing_tokens {ts : List Token} (h : ∀ t ∈ ts, ∀ b, t ≠ .close b) :
    EachOf ClosesNothing (ts.map .token) := by
  refine eachOf_iff.mpr fun v hv => ?_
  obtain ⟨t, ht, rfl⟩ := List.mem_map.mp hv
  rw [Each]
  rintro b ⟨⟩
  exact h _ ht b rfl

theorem Qualifier.closesNothing_values (q : Option Qualifier) : EachOf ClosesNothing (Qualifier.values q) := by
  match q with
  | .none => trivial
  | some .any => exact ⟨nofun, nofun, trivial⟩
  | some .none => exact ⟨nofun, trivial⟩
  | some (.named n) => exact ⟨nofun, nofun, trivial⟩

theorem TypeSelector.closesNothing_values (t : TypeSelector) : EachOf ClosesNothing t.values := by
  obtain ⟨q, n⟩ := t
  refine eachOf_append.mpr ⟨Qualifier.closesNothing_values q, ?_⟩
  cases n <;> exact ⟨nofun, trivial⟩

theorem AttributeSelector.closesNothing_values (a : AttributeSelector) : EachOf ClosesNothing a.values := by
  obtain ⟨q, n, test, flag⟩ := a
  refine eachOf_append.mpr ⟨Qualifier.closesNothing_values q, nofun, eachOf_append.mpr ⟨?_, ?_⟩⟩
  · match test with
    | none => trivial
    | some (m, v) => cases m <;> exact ⟨nofun, nofun, trivial⟩
  · cases flag with
    | none => trivial
    | some c => exact ⟨nofun, nofun, trivial⟩

theorem Nth.closesNothing_tokens (k : Nth) : EachOf ClosesNothing (k.tokens.map .token) := by
  refine StyleTree.closesNothing_tokens fun t ht b hb => ?_
  subst hb
  unfold tokens stepToken plusTokens at ht
  grind

theorem Combinator.closesNothing_values (k : Combinator) : EachOf ClosesNothing k.values := by
  cases k
  · exact ⟨nofun, trivial⟩
  all_goals exact ⟨nofun, nofun, nofun, trivial⟩

theorem Combinator.closesNothing_sign (k : Combinator) : EachOf ClosesNothing (k.values.drop 1) :=
  k.closesNothing_values.of_subset (List.drop_subset 1 _)

mutual

theorem Simple.closesNothing_values : ∀ s : Simple, s.pseudos.all Selector.Pseudo.isSpelled = true →
    EachOf ClosesNothing s.values
  | .nesting, _ => ⟨nofun, trivial⟩
  | .byId _, _ => ⟨nofun, trivial⟩
  | .byClass _, _ => ⟨nofun, nofun, trivial⟩
  | .byAttribute a, _ => ⟨⟨nofun, a.closesNothing_values⟩, trivial⟩
  | .pseudo p, h => ⟨nofun, p.closesNothing_value h, trivial⟩

theorem PseudoClass.closesNothing_value : ∀ p : PseudoClass, p.pseudos.all Selector.Pseudo.isSpelled = true →
    Each ClosesNothing p.value
  | .plain _, _ => nofun
  | .matching _ list, h => by
      rw [PseudoClass.pseudos, List.all_cons, Bool.and_eq_true] at h
      exact ⟨nofun, Selector.closesNothing_valuesOf list h.2⟩
  | .counting _ k, _ => ⟨nofun, k.closesNothing_tokens⟩
  | .countingOf _ k list, h => by
      rw [PseudoClass.pseudos, List.all_cons, Bool.and_eq_true] at h
      have hlist := Selector.closesNothing_valuesOf list h.2
      exact ⟨nofun, eachOf_append.mpr ⟨k.closesNothing_tokens, nofun, nofun, nofun, hlist⟩⟩
  | .raw _ _, h => by cases h

theorem PseudoElement.closesNothing_values : ∀ e : PseudoElement,
    e.pseudos.all Selector.Pseudo.isSpelled = true → EachOf ClosesNothing e.values
  | .mk _ (some _) _, h => by cases h
  | .mk _ none classes, h => by
      rw [PseudoElement.pseudos, List.all_cons, Bool.and_eq_true] at h
      exact ⟨nofun, nofun, nofun, PseudoClass.closesNothing_valuesOf classes h.2⟩

theorem Simple.closesNothing_valuesOf : ∀ ss : List Simple,
    (Simple.pseudosIn ss).all Selector.Pseudo.isSpelled = true → EachOf ClosesNothing (Simple.valuesOf ss)
  | [], _ => trivial
  | s :: ss, h => by
      rw [Simple.pseudosIn, List.all_append, Bool.and_eq_true] at h
      exact eachOf_append.mpr ⟨s.closesNothing_values h.1, Simple.closesNothing_valuesOf ss h.2⟩

theorem PseudoClass.closesNothing_valuesOf : ∀ ps : List PseudoClass,
    (PseudoClass.pseudosIn ps).all Selector.Pseudo.isSpelled = true → EachOf ClosesNothing (PseudoClass.valuesOf ps)
  | [], _ => trivial
  | p :: ps, h => by
      rw [PseudoClass.pseudosIn, List.all_append, Bool.and_eq_true] at h
      exact ⟨nofun, p.closesNothing_value h.1, PseudoClass.closesNothing_valuesOf ps h.2⟩

theorem PseudoElement.closesNothing_valuesOf : ∀ es : List PseudoElement,
    (PseudoElement.pseudosIn es).all Selector.Pseudo.isSpelled = true →
      EachOf ClosesNothing (PseudoElement.valuesOf es)
  | [], _ => trivial
  | e :: es, h => by
      rw [PseudoElement.pseudosIn, List.all_append, Bool.and_eq_true] at h
      exact eachOf_append.mpr ⟨e.closesNothing_values h.1, PseudoElement.closesNothing_valuesOf es h.2⟩

theorem Compound.closesNothing_values : ∀ c : Compound, c.pseudos.all Selector.Pseudo.isSpelled = true →
    EachOf ClosesNothing c.values
  | .mk type simple elements, h => by
      rw [Compound.pseudos, List.all_append, Bool.and_eq_true] at h
      have hsimple := Simple.closesNothing_valuesOf simple h.1
      have helements := PseudoElement.closesNothing_valuesOf elements h.2
      refine eachOf_append.mpr ⟨?_, eachOf_append.mpr ⟨hsimple, helements⟩⟩
      cases type with
      | none => trivial
      | some t => exact t.closesNothing_values

theorem Chain.closesNothing_values : ∀ k : Chain, k.pseudos.all Selector.Pseudo.isSpelled = true →
    EachOf ClosesNothing k.values
  | .last c, h => c.closesNothing_values h
  | .link c j k, h => by
      rw [Chain.pseudos, List.all_append, Bool.and_eq_true] at h
      have hk := k.closesNothing_values h.2
      exact eachOf_append.mpr ⟨c.closesNothing_values h.1, eachOf_append.mpr ⟨j.closesNothing_values, hk⟩⟩

theorem Selector.closesNothing_values : ∀ s : Selector, s.pseudos.all Selector.Pseudo.isSpelled = true →
    EachOf ClosesNothing s.values
  | .mk none k, h => k.closesNothing_values h
  | .mk (some j) k, h => eachOf_append.mpr ⟨j.closesNothing_sign, k.closesNothing_values h⟩

/-- Nothing is closed in the values of selectors but blocks. -/
theorem Selector.closesNothing_valuesOf : ∀ list : List Selector,
    (Selector.pseudosIn list).all Selector.Pseudo.isSpelled = true → EachOf ClosesNothing (Selector.valuesOf list)
  | [], _ => trivial
  | [s], h => by
      rw [Selector.pseudosIn, List.all_append, Bool.and_eq_true] at h
      exact s.closesNothing_values h.1
  | s :: s' :: ss, h => by
      rw [Selector.pseudosIn, List.all_append, Bool.and_eq_true] at h
      have hlist := Selector.closesNothing_valuesOf (s' :: ss) h.2
      exact eachOf_append.mpr ⟨s.closesNothing_values h.1, nofun, nofun, hlist⟩

end

end StyleTree
