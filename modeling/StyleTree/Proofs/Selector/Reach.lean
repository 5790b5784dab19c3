/-
# `Proofs.Selector.Reach` — what stands in a selector

A selector has compounds, a compound has pseudo-classes, and some of these
take selectors again.  `s.Reaches look t` says that `t` is `s` or stands in
`s`, at any depth, when of each compound the pseudo-classes that `look`
gives are looked into:

    allClasses        all of them
    classes           those that follow no pseudo-element
    matchingClasses   of these the ones whose list is not behind `of`

The questions that are asked of a selector by recursion are answered here
without it.  `mentionsNesting` looks for nesting selectors in `classes`
(`mentionsNesting_iff`), `prefixes` for prefixes in `matchingClasses`
(`mem_prefixes_iff`), and `mentioned` in all (`mem_mentioned_iff`).  So a
nesting selector behind a pseudo-element is not seen
(`nesting_found_iff`), and a prefix there or behind `of` is left out
(`prefixes_complete_iff`).
-/
import StyleTree.Proofs.Selector.Prefixes

namespace StyleTree

/-! ## What a selector is made of -/

def Simple.class? : Simple → Option PseudoClass
  | .pseudo p => some p
  | _ => none

def PseudoElement.classes : PseudoElement → List PseudoClass
  | .mk _ _ ps => ps

/-- The list of selectors that a pseudo-class takes. -/
def PseudoClass.list? : PseudoClass → Option (List Selector)
  | .matching _ list => some list
  | .countingOf _ _ list => some list
  | _ => none

/-- The list is the whole argument. -/
def PseudoClass.isMatching : PseudoClass → Bool
  | .matching _ _ => true
  | _ => false

namespace Compound

/-- The pseudo-classes among the simple selectors. -/
def classes (c : Compound) : List PseudoClass := c.simple.filterMap Simple.class?

/-- The pseudo-classes behind the pseudo-elements. -/
def elementClasses (c : Compound) : List PseudoClass := c.elements.flatMap PseudoElement.classes

def allClasses (c : Compound) : List PseudoClass := c.classes ++ c.elementClasses

def matchingClasses (c : Compound) : List PseudoClass := c.classes.filter PseudoClass.isMatching

/-- The prefix stands in the type or in an attribute of the compound itself. -/
def Uses (c : Compound) (n : String) : Prop :=
  (∃ t ∈ c.type, t.qualifier = some (.named n)) ∨
    ∃ a, .byAttribute a ∈ c.simple ∧ a.qualifier = some (.named n)

variable {c : Compound} {p : PseudoClass}

theorem mem_classes : p ∈ c.classes ↔ .pseudo p ∈ c.simple := by
  rw [classes, List.mem_filterMap]
  constructor
  · rintro ⟨s, hs, hp⟩
    cases s <;> cases hp
    exact hs
  · intro hp
    exact ⟨_, hp, rfl⟩

theorem mem_elementClasses : p ∈ c.elementClasses ↔ ∃ e ∈ c.elements, p ∈ e.classes :=
  List.mem_flatMap

theorem classes_subset (c : Compound) : c.classes ⊆ c.allClasses := List.subset_append_left _ _

theorem matchingClasses_subset (c : Compound) : c.matchingClasses ⊆ c.allClasses :=
  List.Subset.trans List.filter_sublist.subset c.classes_subset

end Compound

def Selector.compounds (s : Selector) : List Compound := s.chain.compounds

def Selector.combinators (s : Selector) : List Combinator := s.chain.combinators

/-! ## Selectors in arguments are smaller -/

theorem PseudoClass.sizeOf_list {p : PseudoClass} {l : List Selector} (h : p.list? = some l) :
    sizeOf l < sizeOf p := by
  cases p <;> cases h
  · simp only [PseudoClass.matching.sizeOf_spec]
    omega
  · simp only [PseudoClass.countingOf.sizeOf_spec]
    omega

theorem Compound.sizeOf_class {c : Compound} {p : PseudoClass} (h : p ∈ c.allClasses) :
    sizeOf p < sizeOf c := by
  obtain ⟨t, ss, es⟩ := c
  rw [Compound.mk.sizeOf_spec]
  rcases List.mem_append.mp h with h | h
  · have hsimple := List.sizeOf_lt_of_mem (mem_classes.mp h)
    rw [Simple.pseudo.sizeOf_spec, Compound.simple] at hsimple
    omega
  · obtain ⟨⟨n, a, ps⟩, he, hp⟩ := mem_elementClasses.mp h
    have helement := List.sizeOf_lt_of_mem he
    have hclass := List.sizeOf_lt_of_mem hp
    rw [PseudoElement.mk.sizeOf_spec, Compound.elements] at helement
    rw [PseudoElement.classes] at hclass
    omega

theorem Chain.sizeOf_compound : ∀ {k : Chain} {c : Compound}, c ∈ k.compounds → sizeOf c < sizeOf k
  | .last d, c, h => by
      rw [List.mem_singleton.mp h, Chain.last.sizeOf_spec]
      omega
  | .link d j k, c, h => by
      rw [Chain.link.sizeOf_spec]
      rcases List.mem_cons.mp h with rfl | h
      · omega
      · have hrest := Chain.sizeOf_compound h
        omega

namespace Selector

variable {s t u : Selector} {c : Compound} {p : PseudoClass} {l : List Selector} {n : String}
variable {look : Compound → List PseudoClass}

theorem sizeOf_argument (hc : c ∈ s.compounds) (hp : p ∈ c.allClasses) (hl : p.list? = some l)
    (hu : u ∈ l) : sizeOf u < sizeOf s := by
  obtain ⟨k, chain⟩ := s
  have hlist := List.sizeOf_lt_of_mem hu
  have hclass := p.sizeOf_list hl
  have hcompound := Compound.sizeOf_class hp
  have hchain : sizeOf c < sizeOf chain := Chain.sizeOf_compound hc
  rw [Selector.mk.sizeOf_spec]
  omega

/-- What holds of a selector if it holds of the selectors in its arguments holds of every one. -/
theorem induction_on_arguments {P : Selector → Prop}
    (h : ∀ s : Selector,
      (∀ c ∈ s.compounds, ∀ p ∈ c.allClasses, ∀ l ∈ p.list?, ∀ u ∈ l, P u) → P s)
    (s : Selector) : P s :=
  h s fun _ hc _ hp _ hl u hu =>
    have := sizeOf_argument hc hp hl hu
    induction_on_arguments h u
termination_by sizeOf s

/-! ## Reaching into arguments -/

/-- `t` is `s`, or stands in it where `look` looks. -/
inductive Reaches (look : Compound → List PseudoClass) : Selector → Selector → Prop
  | self (s : Selector) : Reaches look s s
  | argument {s t u : Selector} {c : Compound} {p : PseudoClass} {l : List Selector} :
      c ∈ s.compounds → p ∈ look c → p.list? = some l → u ∈ l → Reaches look u t → Reaches look s t

theorem Reaches.mono {look' : Compound → List PseudoClass} (hsub : ∀ c, look c ⊆ look' c)
    (h : s.Reaches look t) : s.Reaches look' t := by
  induction h with
  | self s => exact .self s
  | argument hc hp hl hu _ ih => exact .argument hc (hsub _ hp) hl hu ih

/-- A question that is passed on to the arguments finds what can be reached. -/
theorem iff_exists_reaches {f : Selector → Prop} {own : Compound → Prop}
    (hlook : ∀ c, look c ⊆ c.allClasses)
    (hf : ∀ s, f s ↔ ∃ c ∈ s.compounds, own c ∨ ∃ p ∈ look c, ∃ l ∈ p.list?, ∃ u ∈ l, f u)
    (s : Selector) : f s ↔ ∃ t, s.Reaches look t ∧ ∃ c ∈ t.compounds, own c := by
  constructor
  · induction s using induction_on_arguments with
    | h s ih =>
        intro hs
        obtain ⟨c, hc, hown | ⟨p, hp, l, hl, u, hu, hfu⟩⟩ := (hf s).mp hs
        · exact ⟨s, .self s, c, hc, hown⟩
        · obtain ⟨t, ht, hown⟩ := ih c hc p (hlook c hp) l hl u hu hfu
          exact ⟨t, .argument hc hp hl hu ht, hown⟩
  · rintro ⟨t, ht, c, hc, hown⟩
    induction ht with
    | self s => exact (hf s).mpr ⟨c, hc, .inl hown⟩
    | argument hd hp hl hu _ ih => exact (hf _).mpr ⟨_, hd, .inr ⟨_, hp, _, hl, _, hu, ih hc⟩⟩

/-- A nesting selector stands in `s` where `look` looks. -/
def Nests (look : Compound → List PseudoClass) (s : Selector) : Prop :=
  ∃ t, s.Reaches look t ∧ ∃ c ∈ t.compounds, .nesting ∈ c.simple

/-- The prefix stands in `s` where `look` looks. -/
def Uses (look : Compound → List PseudoClass) (s : Selector) (n : String) : Prop :=
  ∃ t, s.Reaches look t ∧ ∃ c ∈ t.compounds, c.Uses n

theorem Nests.mono {look' : Compound → List PseudoClass} (hsub : ∀ c, look c ⊆ look' c)
    (h : s.Nests look) : s.Nests look' := by
  obtain ⟨t, ht, hc⟩ := h
  exact ⟨t, ht.mono hsub, hc⟩

theorem Uses.mono {look' : Compound → List PseudoClass} (hsub : ∀ c, look c ⊆ look' c)
    (h : s.Uses look n) : s.Uses look' n := by
  obtain ⟨t, ht, hc⟩ := h
  exact ⟨t, ht.mono hsub, hc⟩

end Selector

/-! ## Questions passed on to members -/

/-- A question that a list passes on to its members, one by one. -/
theorem iff_exists_mem {α : Type} {f : List α → Prop} {own : α → Prop} (hnil : ¬ f [])
    (hcons : ∀ a l, f (a :: l) ↔ own a ∨ f l) (l : List α) : f l ↔ ∃ a ∈ l, own a := by
  induction l with
  | nil => simp [hnil]
  | cons a l ih => simp [hcons, ih]

/-- A question that a chain passes on to its compounds. -/
theorem Chain.iff_exists_compound {f : Chain → Prop} {own : Compound → Prop}
    (hlast : ∀ c, f (.last c) ↔ own c) (hlink : ∀ c j k, f (.link c j k) ↔ own c ∨ f k) :
    ∀ k : Chain, f k ↔ ∃ c ∈ k.compounds, own c
  | .last c => by simp [hlast, Chain.compounds]
  | .link c j k => by simp [hlink, Chain.compounds, Chain.iff_exists_compound hlast hlink k]

/-! ## Nesting selectors -/

theorem Selector.anyMentionsNesting_iff {l : List Selector} :
    Selector.anyMentionsNesting l = true ↔ ∃ s ∈ l, s.mentionsNesting = true :=
  iff_exists_mem (f := fun l => Selector.anyMentionsNesting l = true) (by simp [Selector.anyMentionsNesting])
    (by simp [Selector.anyMentionsNesting]) l

theorem Simple.anyMentionsNesting_iff {ss : List Simple} :
    Simple.anyMentionsNesting ss = true ↔ ∃ s ∈ ss, s.mentionsNesting = true :=
  iff_exists_mem (f := fun l => Simple.anyMentionsNesting l = true) (by simp [Simple.anyMentionsNesting])
    (by simp [Simple.anyMentionsNesting]) ss

theorem PseudoClass.mentionsNesting_iff {p : PseudoClass} :
    p.mentionsNesting = true ↔ ∃ l ∈ p.list?, ∃ u ∈ l, u.mentionsNesting = true := by
  cases p <;> simp [PseudoClass.mentionsNesting, PseudoClass.list?, Selector.anyMentionsNesting_iff]

theorem Compound.mentionsNesting_iff {c : Compound} :
    c.mentionsNesting = true ↔
      .nesting ∈ c.simple ∨ ∃ p ∈ c.classes, ∃ l ∈ p.list?, ∃ u ∈ l, u.mentionsNesting = true := by
  obtain ⟨t, ss, es⟩ := c
  rw [Compound.mentionsNesting, Simple.anyMentionsNesting_iff]
  constructor
  · rintro ⟨s, hs, hmention⟩
    cases s with
    | nesting => exact .inl hs
    | pseudo p => exact .inr ⟨p, mem_classes.mpr hs, PseudoClass.mentionsNesting_iff.mp hmention⟩
    | _ => cases hmention
  · rintro (hs | ⟨p, hp, hmention⟩)
    · exact ⟨_, hs, rfl⟩
    · exact ⟨_, mem_classes.mp hp, PseudoClass.mentionsNesting_iff.mpr hmention⟩

theorem Chain.mentionsNesting_iff {k : Chain} :
    k.mentionsNesting = true ↔ ∃ c ∈ k.compounds, c.mentionsNesting = true :=
  Chain.iff_exists_compound (f := fun k => k.mentionsNesting = true) (by simp [Chain.mentionsNesting])
    (by simp [Chain.mentionsNesting]) k

theorem Selector.mentionsNesting_step (s : Selector) :
    s.mentionsNesting = true ↔ ∃ c ∈ s.compounds,
      .nesting ∈ c.simple ∨ ∃ p ∈ c.classes, ∃ l ∈ p.list?, ∃ u ∈ l, u.mentionsNesting = true := by
  obtain ⟨j, k⟩ := s
  simp only [Selector.mentionsNesting, Chain.mentionsNesting_iff, Compound.mentionsNesting_iff]
  rfl

/-- The nesting selectors that are seen are those that follow no pseudo-element. -/
theorem Selector.mentionsNesting_iff (s : Selector) :
    s.mentionsNesting = true ↔ s.Nests Compound.classes :=
  iff_exists_reaches Compound.classes_subset mentionsNesting_step s

/-! ## Prefixes -/

section

variable {n : String}

theorem Qualifier.mem_prefixes {q : Option Qualifier} :
    n ∈ Qualifier.prefixes q ↔ q = some (.named n) := by
  rcases q with _ | (_ | _ | m) <;> simp [Qualifier.prefixes, eq_comm]

theorem TypeSelector.mem_prefixes {t : Option TypeSelector} :
    n ∈ TypeSelector.prefixes t ↔ ∃ t' ∈ t, t'.qualifier = some (.named n) := by
  cases t <;> simp [TypeSelector.prefixes, Qualifier.mem_prefixes]

theorem Selector.mem_prefixesOf {l : List Selector} :
    n ∈ Selector.prefixesOf l ↔ ∃ s ∈ l, n ∈ s.prefixes :=
  iff_exists_mem (f := fun l => n ∈ Selector.prefixesOf l) (by simp [Selector.prefixesOf])
    (by simp [Selector.prefixesOf]) l

theorem Selector.mem_mentionedIn {l : List Selector} :
    n ∈ Selector.mentionedIn l ↔ ∃ s ∈ l, n ∈ s.mentioned :=
  iff_exists_mem (f := fun l => n ∈ Selector.mentionedIn l) (by simp [Selector.mentionedIn])
    (by simp [Selector.mentionedIn]) l

theorem Simple.mem_prefixesOf {ss : List Simple} :
    n ∈ Simple.prefixesOf ss ↔ ∃ s ∈ ss, n ∈ s.prefixes :=
  iff_exists_mem (f := fun l => n ∈ Simple.prefixesOf l) (by simp [Simple.prefixesOf])
    (by simp [Simple.prefixesOf]) ss

theorem Simple.mem_mentionedIn {ss : List Simple} :
    n ∈ Simple.mentionedIn ss ↔ ∃ s ∈ ss, n ∈ s.mentioned :=
  iff_exists_mem (f := fun l => n ∈ Simple.mentionedIn l) (by simp [Simple.mentionedIn])
    (by simp [Simple.mentionedIn]) ss

theorem PseudoClass.mem_mentionedIn {ps : List PseudoClass} :
    n ∈ PseudoClass.mentionedIn ps ↔ ∃ p ∈ ps, n ∈ p.mentioned :=
  iff_exists_mem (f := fun l => n ∈ PseudoClass.mentionedIn l) (by simp [PseudoClass.mentionedIn])
    (by simp [PseudoClass.mentionedIn]) ps

theorem PseudoElement.mem_mentionedIn {es : List PseudoElement} :
    n ∈ PseudoElement.mentionedIn es ↔ ∃ p ∈ es.flatMap PseudoElement.classes, n ∈ p.mentioned := by
  induction es with
  | nil => simp [PseudoElement.mentionedIn]
  | cons e es ih =>
      obtain ⟨m, a, ps⟩ := e
      simp only [PseudoElement.mentionedIn, PseudoElement.mentioned, List.mem_append,
        PseudoClass.mem_mentionedIn, ih, List.flatMap_cons, PseudoElement.classes, or_and_right, exists_or]

theorem PseudoClass.mem_prefixes {p : PseudoClass} :
    n ∈ p.prefixes ↔ p.isMatching = true ∧ ∃ l ∈ p.list?, ∃ u ∈ l, n ∈ u.prefixes := by
  cases p <;> simp [PseudoClass.prefixes, PseudoClass.isMatching, PseudoClass.list?, Selector.mem_prefixesOf]

theorem PseudoClass.mem_mentioned {p : PseudoClass} :
    n ∈ p.mentioned ↔ ∃ l ∈ p.list?, ∃ u ∈ l, n ∈ u.mentioned := by
  cases p <;> simp [PseudoClass.mentioned, PseudoClass.list?, Selector.mem_mentionedIn]

theorem Simple.mem_prefixes {s : Simple} :
    n ∈ s.prefixes ↔
      (∃ a, s = .byAttribute a ∧ a.qualifier = some (.named n)) ∨ ∃ p, s = .pseudo p ∧ n ∈ p.prefixes := by
  cases s <;> simp [Simple.prefixes, Qualifier.mem_prefixes]

theorem Simple.mem_mentioned {s : Simple} :
    n ∈ s.mentioned ↔
      (∃ a, s = .byAttribute a ∧ a.qualifier = some (.named n)) ∨ ∃ p, s = .pseudo p ∧ n ∈ p.mentioned := by
  cases s <;> simp [Simple.mentioned, Qualifier.mem_prefixes]

/-- Among simple selectors, a prefix stands in an attribute or in a pseudo-class. -/
theorem Simple.exists_mem_iff {ss : List Simple} {P : AttributeSelector → Prop} {Q : PseudoClass → Prop} :
    (∃ s ∈ ss, (∃ a, s = .byAttribute a ∧ P a) ∨ ∃ p, s = .pseudo p ∧ Q p) ↔
      (∃ a, .byAttribute a ∈ ss ∧ P a) ∨ ∃ p, .pseudo p ∈ ss ∧ Q p := by
  constructor
  · rintro ⟨s, hs, ⟨a, rfl, ha⟩ | ⟨p, rfl, hp⟩⟩
    · exact .inl ⟨a, hs, ha⟩
    · exact .inr ⟨p, hs, hp⟩
  · rintro (⟨a, hs, ha⟩ | ⟨p, hs, hp⟩)
    · exact ⟨_, hs, .inl ⟨a, rfl, ha⟩⟩
    · exact ⟨_, hs, .inr ⟨p, rfl, hp⟩⟩

theorem Compound.mem_prefixes {c : Compound} :
    n ∈ c.prefixes ↔ c.Uses n ∨ ∃ p ∈ c.matchingClasses, ∃ l ∈ p.list?, ∃ u ∈ l, n ∈ u.prefixes := by
  obtain ⟨t, ss, es⟩ := c
  simp only [Compound.prefixes, List.mem_append, TypeSelector.mem_prefixes, Simple.mem_prefixesOf,
    Simple.mem_prefixes, Simple.exists_mem_iff, PseudoClass.mem_prefixes]
  simp only [matchingClasses, List.mem_filter, mem_classes, and_assoc, Uses, or_assoc]
  rfl

theorem Compound.mem_mentioned {c : Compound} :
    n ∈ c.mentioned ↔ c.Uses n ∨ ∃ p ∈ c.allClasses, ∃ l ∈ p.list?, ∃ u ∈ l, n ∈ u.mentioned := by
  obtain ⟨t, ss, es⟩ := c
  simp only [Compound.mentioned, List.mem_append, TypeSelector.mem_prefixes, Simple.mem_mentionedIn,
    Simple.mem_mentioned, Simple.exists_mem_iff, PseudoElement.mem_mentionedIn, PseudoClass.mem_mentioned]
  simp only [allClasses, List.mem_append, mem_classes, or_and_right, exists_or, Uses, or_assoc]
  rfl

theorem Chain.mem_prefixes {k : Chain} : n ∈ k.prefixes ↔ ∃ c ∈ k.compounds, n ∈ c.prefixes :=
  Chain.iff_exists_compound (f := fun k => n ∈ k.prefixes) (by simp [Chain.prefixes])
    (by simp [Chain.prefixes]) k

theorem Chain.mem_mentioned {k : Chain} : n ∈ k.mentioned ↔ ∃ c ∈ k.compounds, n ∈ c.mentioned :=
  Chain.iff_exists_compound (f := fun k => n ∈ k.mentioned) (by simp [Chain.mentioned])
    (by simp [Chain.mentioned]) k

namespace Selector

theorem prefixes_step (n : String) (s : Selector) :
    n ∈ s.prefixes ↔ ∃ c ∈ s.compounds,
      c.Uses n ∨ ∃ p ∈ c.matchingClasses, ∃ l ∈ p.list?, ∃ u ∈ l, n ∈ u.prefixes := by
  obtain ⟨j, k⟩ := s
  simp only [Selector.prefixes, Chain.mem_prefixes, Compound.mem_prefixes]
  rfl

theorem mentioned_step (n : String) (s : Selector) :
    n ∈ s.mentioned ↔ ∃ c ∈ s.compounds,
      c.Uses n ∨ ∃ p ∈ c.allClasses, ∃ l ∈ p.list?, ∃ u ∈ l, n ∈ u.mentioned := by
  obtain ⟨j, k⟩ := s
  simp only [Selector.mentioned, Chain.mem_mentioned, Compound.mem_mentioned]
  rfl

/-- The prefixes that are listed are those outside of lists behind `of` and of what follows a
pseudo-element. -/
theorem mem_prefixes_iff (s : Selector) (n : String) :
    n ∈ s.prefixes ↔ s.Uses Compound.matchingClasses n :=
  iff_exists_reaches Compound.matchingClasses_subset (prefixes_step n) s

theorem mem_mentioned_iff (s : Selector) (n : String) :
    n ∈ s.mentioned ↔ s.Uses Compound.allClasses n :=
  iff_exists_reaches (fun c => List.Subset.refl c.allClasses) (mentioned_step n) s

end Selector

end

namespace Selector

open ComponentValue

variable {ns : Namespaces} {s s' : Selector} {P Q : Prop}

/-- All prefixes that stand in a selector are listed exactly if each of them stands outside of lists behind `of`
and before any pseudo-element, too. -/
theorem prefixes_complete_iff (s : Selector) :
    (∀ n, n ∈ s.prefixes ↔ s.Uses Compound.matchingClasses n) ∧
      ((∀ n, n ∈ s.prefixes ↔ s.Uses Compound.allClasses n) ↔
        ∀ n, s.Uses Compound.allClasses n → s.Uses Compound.matchingClasses n) := by
  refine ⟨s.mem_prefixes_iff, fun h n hall => ?_, fun h n => ?_⟩
  · exact (s.mem_prefixes_iff n).mp ((h n).mpr hall)
  · rw [mem_prefixes_iff]
    exact ⟨fun hlisted => hlisted.mono Compound.matchingClasses_subset, h n⟩

/-- A prefix behind `of` is not listed. -/
theorem prefixes_incomplete :
    ¬ ∀ (ns : Namespaces) (mode : SelectorMode) (text : String) (list : List Selector),
      listOfText ns mode text = some list →
      ∀ s ∈ list, ∀ n, n ∈ s.prefixes ↔ s.Uses Compound.allClasses n := by
  intro h
  have hread : (listOfText (.ofList [(some "a", "u")]) .absolute ":nth-child(1 of a|b)").any (fun list =>
      list.any fun s => s.prefixes.isEmpty && s.mentioned.contains "a") = true := by
    decide +kernel
  obtain ⟨list, hlist, hany⟩ := (Option.any_eq_true _ _).mp hread
  obtain ⟨s, hs, hprefixes⟩ := List.any_eq_true.mp hany
  rw [Bool.and_eq_true, List.isEmpty_iff, List.contains_iff_mem, mem_mentioned_iff] at hprefixes
  have hlisted := (h _ _ _ list hlist s hs "a").mpr hprefixes.2
  rw [hprefixes.1] at hlisted
  cases hlisted

/-! ## The nesting selector in front -/

/-- Nesting selectors stand in `s`, each of them behind a pseudo-element. -/
def HidesNesting (s : Selector) : Prop := s.Nests Compound.allClasses ∧ ¬ s.Nests Compound.classes

theorem nests_classes_iff (s : Selector) :
    (s.Nests Compound.classes ↔ s.Nests Compound.allClasses) ↔ ¬ s.HidesNesting := by
  constructor
  · rintro h ⟨hall, hclasses⟩
    exact hclasses (h.mpr hall)
  · intro h
    refine ⟨fun hclasses => hclasses.mono Compound.classes_subset, fun hall => ?_⟩
    exact Classical.byContradiction fun hclasses => h ⟨hall, hclasses⟩

/-- `s'` is `s`, with the nesting selector in front unless `P` holds. -/
def PlacedUnless (P : Prop) (s s' : Selector) : Prop := (P ∧ s' = s) ∨ (¬ P ∧ s' = s.underNesting)

theorem underNesting_ne (s : Selector) : s.underNesting ≠ s := by
  intro h
  have hlength := congrArg (fun s => s.compounds.length) h
  simp [underNesting, compounds, Chain.compounds, chain] at hlength

theorem PlacedUnless.iff_congr (h : PlacedUnless P s s') : PlacedUnless Q s s' ↔ (P ↔ Q) := by
  rcases h with ⟨hP, rfl⟩ | ⟨hP, rfl⟩
  · have hne := s'.underNesting_ne.symm
    simp [PlacedUnless, hP, hne]
  · simp [PlacedUnless, hP, s.underNesting_ne]

theorem placedUnless_inMode (s : Selector) :
    PlacedUnless (s.leading = none ∧ s.Nests Compound.classes) s (inMode .nested s) := by
  rw [← mentionsNesting_iff, PlacedUnless, inMode]
  cases hl : s.leading <;> cases hm : s.mentionsNesting <;> simp

theorem selector_nested (ns : Namespaces) (ps : List Piece) :
    selector ns .nested ps = (selector ns .relative ps).map (inMode .nested) := by
  have hchain : ∀ (l : Option Combinator) (r : Except Failure Chain),
      (do let k ← r; pure (inMode .nested (.mk l k))) =
        (do let k ← r; pure (inMode .relative (.mk l k))).map (inMode .nested) := by
    intro l r
    cases r <;> rfl
  unfold selector
  split
  · exact hchain none _
  · exact hchain (some _) _
  · exact hchain none _

theorem keepDeclared_map (f : Selector → Selector) (l : List (Except Failure Selector)) :
    keepDeclared (l.map (Except.map f)) = (keepDeclared l).map (List.map f) := by
  induction l with
  | nil => rfl
  | cons r l ih =>
      rcases r with (_ | _) | s
      · rfl
      · exact ih
      · rw [List.map_cons, Except.map, keepDeclared, ih, keepDeclared, Option.map_map, Option.map_map]
        rfl

/-- What is read among nested rules is read as among scoped ones, and then made relative to the
nesting selector. -/
theorem listOfValues_nested (ns : Namespaces) (vs : List ComponentValue) :
    listOfValues ns .nested vs = (listOfValues ns .relative vs).map (List.map (inMode .nested)) := by
  have hpart : readPart ns .nested = Except.map (inMode .nested) ∘ readPart ns .relative :=
    funext fun part => selector_nested ns _
  rw [listOfValues_eq, listOfValues_eq, hpart, ← List.map_map, keepDeclared_map]
  cases keepDeclared ((splitOn isComma vs).map (readPart ns .relative)) with
  | none => rfl
  | some ss => cases ss <;> rfl

/-- A nesting selector is seen unless it stands behind a pseudo-element, so it is seen exactly in the selectors
that do not hide it.  And among nested rules, the nesting selector is put in front of exactly those selectors that
start with a combinator or have it nowhere, unless one without a leading combinator hides it. -/
theorem nesting_found_iff (ns : Namespaces) (vs : List ComponentValue) (s : Selector) :
    ((s.mentionsNesting = true ↔ s.Nests Compound.classes) ∧
      ((s.mentionsNesting = true ↔ s.Nests Compound.allClasses) ↔ ¬ s.HidesNesting)) ∧
    listOfValues ns .nested vs = (listOfValues ns .relative vs).map (List.map (inMode .nested)) ∧
      (PlacedUnless (s.leading = none ∧ s.Nests Compound.allClasses) s (inMode .nested s) ↔
        (s.leading = none → ¬ s.HidesNesting)) := by
  refine ⟨⟨s.mentionsNesting_iff, ?_⟩, listOfValues_nested ns vs, ?_⟩
  · rw [mentionsNesting_iff, nests_classes_iff]
  · rw [(placedUnless_inMode s).iff_congr, and_congr_right_iff, nests_classes_iff]

/-- A nesting selector behind a pseudo-element is not seen. -/
theorem nesting_not_found :
    ¬ ∀ (ns : Namespaces) (mode : SelectorMode) (text : String) (list : List Selector),
      listOfText ns mode text = some list →
      ∀ s ∈ list, s.mentionsNesting = true ↔ s.Nests Compound.allClasses := by
  intro h
  have hread : (listOfText .empty .absolute "::before:is(&)").any (fun list => list.any fun s =>
      !s.mentionsNesting && s.compounds.any fun c => c.allClasses.any fun p =>
        p.list?.any fun l => l.any Selector.mentionsNesting) = true := by
    decide +kernel
  obtain ⟨list, hlist, hany⟩ := (Option.any_eq_true _ _).mp hread
  obtain ⟨s, hs, hnesting⟩ := List.any_eq_true.mp hany
  rw [Bool.and_eq_true, Bool.not_eq_true'] at hnesting
  obtain ⟨hunseen, hargument⟩ := hnesting
  obtain ⟨c, hc, hclass⟩ := List.any_eq_true.mp hargument
  obtain ⟨p, hp, hlist'⟩ := List.any_eq_true.mp hclass
  obtain ⟨l, hl, hu⟩ := (Option.any_eq_true _ _).mp hlist'
  obtain ⟨u, hu, hmention⟩ := List.any_eq_true.mp hu
  obtain ⟨t, ht, hown⟩ := ((mentionsNesting_iff u).mp hmention).mono Compound.classes_subset
  rw [(h _ _ _ list hlist s hs).mpr ⟨t, .argument hc hp hl hu ht, hown⟩] at hunseen
  cases hunseen

end Selector

end StyleTree
