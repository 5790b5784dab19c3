/-
# `Proofs.Selector.WellFormed` — what selectors are like that were read

A list of selectors that was read is well formed, whatever the text was
(`wellFormed_listOfText`):

    names           can be written as identifiers
    prefixes        are declared
    pseudo-classes  have names that are known, in lower case, and take the
                    kind of argument that goes with the name
    counted ones    have steps and offsets of 32 bits
    compounds       are not empty, and only the last has pseudo-elements
    selectors       start with a combinator only where the mode permits it,
                    and mention the nesting selector where it demands it
    lists           are not empty

This is all that has to be known of a selector to read its text again.
-/
import StyleTree.Proofs.Token.Strings
import StyleTree.Proofs.Selector.Prefixes

namespace StyleTree

open ComponentValue
open Text (IsName IsClean)

/-! ## Well-formed selectors -/

/-- A prefix that is declared and can be written. -/
def Qualifier.WellFormed (ns : Namespaces) : Option Qualifier → Prop
  | some (.named n) => ns.isDeclared n = true ∧ IsName n
  | _ => True

structure TypeSelector.WellFormed (ns : Namespaces) (t : TypeSelector) : Prop where
  qualifier : Qualifier.WellFormed ns t.qualifier
  name : ∀ n ∈ t.name, IsName n

structure AttributeSelector.WellFormed (ns : Namespaces) (a : AttributeSelector) : Prop where
  qualifier : Qualifier.WellFormed ns a.qualifier
  name : IsName a.name
  value : ∀ t ∈ a.test, IsClean t.2
  flagged : a.flag.isSome = true → a.test.isSome = true
  flag : ∀ c ∈ a.flag, c = 'i' ∨ c = 's'

/-- The mode of the list that a pseudo-class takes, if it takes nothing else. -/
def Selector.listMode? (name : String) : Option SelectorMode :=
  if name ∈ Names.matchingClasses then some .absolute
  else if name = "has" then some .relative
  else none

mutual

def Simple.WellFormed (ns : Namespaces) : Simple → Prop
  | .nesting => True
  | .byId n => IsName n
  | .byClass n => IsName n
  | .byAttribute a => a.WellFormed ns
  | .pseudo p => p.WellFormed ns

def PseudoClass.WellFormed (ns : Namespaces) : PseudoClass → Prop
  | .plain n => Selector.singleColonName n = some (.ofClass (.plain n)) ∧ Text.foldCase n = n
  | .matching n list =>
    ∃ mode, Selector.listMode? n = some mode ∧ list ≠ [] ∧ Selector.AllWellFormed ns mode list
  | .counting n k =>
    (n ∈ Selector.Names.filteringClasses ∨ n ∈ Selector.Names.countingClasses) ∧ k.InRange
  | .countingOf n k list =>
    n ∈ Selector.Names.filteringClasses ∧ k.InRange ∧ list ≠ [] ∧ Selector.AllWellFormed ns .absolute list
  | .raw _ _ => True

def PseudoElement.WellFormed (ns : Namespaces) : PseudoElement → Prop
  | .mk n argument classes =>
    (argument = none →
      (n ∈ Selector.Names.plainElements ∨ Selector.Names.isVendor n = true) ∧ Text.foldCase n = n) ∧
      PseudoClass.AllWellFormed ns classes

def Simple.AllWellFormed (ns : Namespaces) : List Simple → Prop
  | [] => True
  | s :: ss => s.WellFormed ns ∧ Simple.AllWellFormed ns ss

def PseudoClass.AllWellFormed (ns : Namespaces) : List PseudoClass → Prop
  | [] => True
  | p :: ps => p.WellFormed ns ∧ PseudoClass.AllWellFormed ns ps

def PseudoElement.AllWellFormed (ns : Namespaces) : List PseudoElement → Prop
  | [] => True
  | e :: es => e.WellFormed ns ∧ PseudoElement.AllWellFormed ns es

def Compound.WellFormed (ns : Namespaces) : Compound → Prop
  | .mk type simple elements =>
    (∀ t ∈ type, t.WellFormed ns) ∧ Simple.AllWellFormed ns simple ∧
      PseudoElement.AllWellFormed ns elements ∧ (Compound.mk type simple elements).isEmpty = false

def Chain.WellFormed (ns : Namespaces) : Chain → Prop
  | .last c => c.WellFormed ns
  | .link c _ rest => c.WellFormed ns ∧ c.elements = [] ∧ rest.WellFormed ns

def Selector.WellFormed (ns : Namespaces) (mode : SelectorMode) : Selector → Prop
  | .mk leading chain =>
    chain.WellFormed ns ∧ leading ≠ some .descendant ∧ (mode = .absolute → leading = none) ∧
      (mode = .nested → leading = none ∧ chain.mentionsNesting = true)

def Selector.AllWellFormed (ns : Namespaces) (mode : SelectorMode) : List Selector → Prop
  | [] => True
  | s :: ss => s.WellFormed ns mode ∧ Selector.AllWellFormed ns mode ss

end

section

variable {ns : Namespaces}

theorem Simple.allWellFormed_append {ss ts : List Simple} :
    AllWellFormed ns (ss ++ ts) ↔ AllWellFormed ns ss ∧ AllWellFormed ns ts := by
  induction ss with
  | nil => simp only [List.nil_append, AllWellFormed, true_and]
  | cons s ss ih => rw [List.cons_append, AllWellFormed, AllWellFormed, ih, and_assoc]

theorem PseudoClass.allWellFormed_append {ps qs : List PseudoClass} :
    AllWellFormed ns (ps ++ qs) ↔ AllWellFormed ns ps ∧ AllWellFormed ns qs := by
  induction ps with
  | nil => simp only [List.nil_append, AllWellFormed, true_and]
  | cons p ps ih => rw [List.cons_append, AllWellFormed, AllWellFormed, ih, and_assoc]

theorem PseudoElement.allWellFormed_append {es fs : List PseudoElement} :
    AllWellFormed ns (es ++ fs) ↔ AllWellFormed ns es ∧ AllWellFormed ns fs := by
  induction es with
  | nil => simp only [List.nil_append, AllWellFormed, true_and]
  | cons e es ih => rw [List.cons_append, AllWellFormed, AllWellFormed, ih, and_assoc]

theorem Selector.allWellFormed_iff {mode : SelectorMode} {l : List Selector} :
    AllWellFormed ns mode l ↔ ∀ s ∈ l, s.WellFormed ns mode := by
  induction l with
  | nil => simp [AllWellFormed]
  | cons s l ih => rw [AllWellFormed, ih, List.forall_mem_cons]

end

namespace Selector

variable {ns : Namespaces} {mode : SelectorMode}

/-! ## Compounds as they grow -/

/-- A compound of well-formed parts, perhaps of none. -/
def Sound (ns : Namespaces) (c : Compound) : Prop :=
  (∀ t ∈ c.type, t.WellFormed ns) ∧ Simple.AllWellFormed ns c.simple ∧
    PseudoElement.AllWellFormed ns c.elements

variable {c : Compound} {p : PseudoClass}

theorem sound_withSimple {s : Simple} (hc : Sound ns c) (hs : s.WellFormed ns) : Sound ns (c.withSimple s) :=
  ⟨hc.1, Simple.allWellFormed_append.mpr ⟨hc.2.1, hs, trivial⟩, hc.2.2⟩

theorem sound_withElement {n : String} {a : Option (List ComponentValue)} (hc : Sound ns c)
    (hn : a = none → (n ∈ Names.plainElements ∨ Names.isVendor n = true) ∧ Text.foldCase n = n) :
    Sound ns (c.withElement n a) :=
  ⟨hc.1, hc.2.1, PseudoElement.allWellFormed_append.mpr ⟨hc.2.2, ⟨hn, trivial⟩, trivial⟩⟩

theorem wellFormed_addClass (hp : p.WellFormed ns) (es : List PseudoElement) :
    PseudoElement.AllWellFormed ns es → PseudoElement.AllWellFormed ns (Compound.addClass p es) := by
  fun_induction Compound.addClass p es with
  | case1 => exact id
  | case2 n a ps =>
      intro h
      exact ⟨⟨h.1.1, PseudoClass.allWellFormed_append.mpr ⟨h.1.2, hp, trivial⟩⟩, trivial⟩
  | case3 e es _ ih =>
      intro h
      exact ⟨h.1, ih h.2⟩

theorem sound_withClass (hc : Sound ns c) (hp : p.WellFormed ns) : Sound ns (c.withClass p) := by
  unfold Compound.withClass
  split
  · exact sound_withSimple hc hp
  · exact ⟨hc.1, hc.2.1, wellFormed_addClass hp _ hc.2.2⟩

/-! ## Types and attributes -/

/-- The lexeme is clean, and a number in it is in range. -/
def Good (l : Lexeme) : Prop := l.Clean ∧ l.Fits

theorem good_next (c : Char) (cs : List Char) (l : Lexeme) (h : (Scan.next c cs).1 = some l) : Good l :=
  ⟨Scan.clean_next c cs l h, Scan.fits_next c cs l h⟩

theorem isName_of_ident {v : ComponentValue} {n : String} (h : Each Good v) (hn : v.ident? = some n) :
    IsName n := by
  unfold ident? at hn
  split at hn
  · cases hn
    exact h.1
  · cases hn

theorem wellFormed_declared {n : String} {k : Qualifier} (hn : IsName n) (h : declared ns n = .ok k) :
    Qualifier.WellFormed ns (some k) := by
  unfold declared at h
  split at h
  · next hd =>
      cases h
      exact ⟨hd, hn⟩
  · cases h

theorem wellFormed_qualifier {q : Piece} {k : Qualifier} (hq : Each Good q.value)
    (h : qualifier ns q = .ok k) : Qualifier.WellFormed ns (some k) := by
  unfold qualifier at h
  split at h
  · next hn => exact wellFormed_declared (isName_of_ident hq hn) h
  · cases h
    trivial

/-- The values of pieces are good. -/
def GoodPieces (ps : List Piece) : Prop := ∀ p ∈ ps, Each Good p.value

theorem wellFormed_typeSelector {ps rest : List Piece} {t : Option TypeSelector} (hps : GoodPieces ps)
    (h : typeSelector ns ps = .ok (t, rest)) : ∀ t' ∈ t, t'.WellFormed ns := by
  have hname : ∀ {p : Piece}, p ∈ ps → ∀ n ∈ p.ident?, IsName n := fun hp n hn =>
    isName_of_ident (hps _ hp) hn
  cases typeSelector_eq_ok.mp h with
  | absent => rintro _ ⟨⟩
  | name =>
      rintro _ ⟨⟩
      exact ⟨trivial, hname (by simp)⟩
  | bar =>
      rintro _ ⟨⟩
      exact ⟨trivial, hname (by simp)⟩
  | @qualified p _ _ _ _ _ _ _ hk =>
      rintro _ ⟨⟩
      exact ⟨wellFormed_qualifier (hps p (by simp)) hk, hname (by simp)⟩

theorem wellFormed_attributeName {vs rest : List ComponentValue} {k : Option Qualifier} {n : String}
    (hvs : EachOf Good vs) (h : attributeName ns vs = .ok (k, n, rest)) :
    Qualifier.WellFormed ns k ∧ IsName n ∧ EachOf Good rest := by
  unfold attributeName at h
  split at h
  · cases h
    exact ⟨trivial, hvs.2.1.1, hvs.2.2⟩
  · cases h
    exact ⟨trivial, hvs.2.2.1.1, hvs.2.2.2⟩
  · obtain ⟨k', hk, h⟩ := bind_eq_ok.mp h
    split at h
    · cases h
      exact ⟨wellFormed_declared hvs.1.1 hk, hvs.2.2.1.1, hvs.2.2.2⟩
    · cases h
  · cases h
    exact ⟨trivial, hvs.1.1, hvs.2⟩
  · cases h

theorem isClean_attributeValue {v : ComponentValue} {s : String} (hv : Each Good v)
    (h : attributeValue? v = some s) : IsClean s := by
  unfold attributeValue? at h
  split at h
  · cases h
    exact hv.1.clean
  · cases h
    exact hv.1
  · cases h

theorem letter_of_flag {v : ComponentValue} {c : Char} (h : flag? v = some c) : c = 'i' ∨ c = 's' := by
  unfold flag? at h
  split at h
  · cases h
    exact .inl rfl
  split at h
  · cases h
    exact .inr rfl
  · cases h

theorem wellFormed_attributeTest {vs : List ComponentValue} {test : Option (Matcher × String)}
    {flag : Option Char} (hvs : EachOf Good vs) (h : attributeTest vs = some (test, flag)) :
    (∀ t ∈ test, IsClean t.2) ∧ (flag.isSome = true → test.isSome = true) ∧
      ∀ c ∈ flag, c = 'i' ∨ c = 's' := by
  unfold attributeTest at h
  split at h
  · cases h
    exact ⟨by rintro _ ⟨⟩, id, by rintro _ ⟨⟩⟩
  · next m v =>
      obtain ⟨k, -, h⟩ := Option.bind_eq_some_iff.mp h
      obtain ⟨s, hs, h⟩ := Option.bind_eq_some_iff.mp h
      cases h
      refine ⟨?_, fun _ => rfl, by rintro _ ⟨⟩⟩
      rintro _ ⟨⟩
      exact isClean_attributeValue hvs.2.1 hs
  · next m v f =>
      obtain ⟨k, -, h⟩ := Option.bind_eq_some_iff.mp h
      obtain ⟨s, hs, h⟩ := Option.bind_eq_some_iff.mp h
      obtain ⟨c, hc, h⟩ := Option.bind_eq_some_iff.mp h
      cases h
      refine ⟨?_, fun _ => rfl, ?_⟩
      · rintro _ ⟨⟩
        exact isClean_attributeValue hvs.2.1 hs
      · rintro _ ⟨⟩
        exact letter_of_flag hc
  · cases h

theorem wellFormed_attributeSelector {vs : List ComponentValue} {a : AttributeSelector}
    (hvs : EachOf Good vs) (h : attributeSelector ns vs = .ok a) : a.WellFormed ns := by
  obtain ⟨⟨k, n, rest⟩, hn, h⟩ := bind_eq_ok.mp h
  have hstart : EachOf Good (vs.dropWhile isBlank) := hvs.of_subset (List.dropWhile_sublist _).subset
  obtain ⟨hk, hname, hrest⟩ := wellFormed_attributeName hstart hn
  simp only at h
  split at h
  · next test flag htest =>
      cases h
      have hblanks : EachOf Good (withoutBlanks rest) := hrest.of_subset List.filter_sublist.subset
      obtain ⟨hvalue, hflagged, hflag⟩ := wellFormed_attributeTest hblanks htest
      exact ⟨hk, hname, hvalue, hflagged, hflag⟩
  · cases h

/-! ## Compounds and chains -/

/-- A piece with a good value and a well-formed meaning. -/
def Piece.Sound (ns : Namespaces) (p : Piece) : Prop :=
  Each Good p.value ∧ ∀ c, p.meaning = some c → c.WellFormed ns

theorem sound_singleColon {q : Piece} {x : Pseudo} (hc : Sound ns c) (hq : q.Sound ns)
    (h : singleColon q = some x) : Sound ns (x.addTo c) := by
  unfold singleColon at h
  split at h
  · next n _ =>
      have hfold := Text.foldCase_foldCase n
      have hname := h
      unfold singleColonName at h
      split at h
      · next hlegacy =>
          cases h
          refine sound_withElement hc fun _ => ⟨.inl ?_, hfold⟩
          have hall : ∀ m ∈ Names.singleColonElements, m ∈ Names.plainElements := by decide +kernel
          exact hall _ hlegacy
      · split at h
        · cases h
          exact sound_withClass hc ⟨hname, hfold⟩
        · cases h
  · obtain ⟨p, hp, hx⟩ := Option.map_eq_some_iff.mp h
    cases hx
    exact sound_withClass hc (hq.2 p hp)
  · cases h

theorem sound_doubleColon {q : Piece} {x : Pseudo} (hc : Sound ns c) (h : doubleColon q = some x) :
    Sound ns (x.addTo c) := by
  unfold doubleColon at h
  split at h
  · next n _ =>
      have hfold := Text.foldCase_foldCase n
      simp only at h
      split at h
      · next hname =>
          cases h
          simp only [Bool.or_eq_true, decide_eq_true_eq] at hname
          exact sound_withElement hc fun _ => ⟨hname, hfold⟩
      · cases h
  · simp only at h
    split at h
    · cases h
      exact sound_withElement hc (by rintro ⟨⟩)
    · cases h
  · cases h

/-- By the cases of the reader: each piece that it takes adds what is well formed. -/
theorem sound_grow {ps : List Piece} {c c' : Compound} (hc : Sound ns c) (hps : ∀ p ∈ ps, p.Sound ns) :
    grow ns c ps = .ok c' → Sound ns c' := by
  fun_induction grow ns c ps with
  | case1 c =>
      intro h
      cases h
      exact hc
  | case2 c p hp q hq r ps x hx ih =>
      intro h
      exact ih (sound_doubleColon hc hx) (fun p hp => hps p (by simp [hp])) h
  | case5 c p hp q ps hq x hx ih =>
      intro h
      exact ih (sound_singleColon hc (hps q (by simp)) hx) (fun p hp => hps p (by simp [hp])) h
  | case9 c p ps hp he hv ih =>
      intro h
      exact ih (sound_withSimple hc trivial) (fun p hp => hps p (by simp [hp])) h
  | case10 c p ps hp he n hv ih =>
      intro h
      have hgood := (hps p (by simp)).1
      rw [hv] at hgood
      exact ih (sound_withSimple hc hgood.1) (fun p hp => hps p (by simp [hp])) h
  | case11 c p hp he hv q ps n hn ih =>
      intro h
      have hname := isName_of_ident (hps q (by simp)).1 hn
      exact ih (sound_withSimple hc hname) (fun p hp => hps p (by simp [hp])) h
  | case14 c p ps hp he vs hv a ha ih =>
      intro h
      have hgood := (hps p (by simp)).1
      rw [hv] at hgood
      have ha := wellFormed_attributeSelector hgood.2 ha
      exact ih (sound_withSimple hc ha) (fun p hp => hps p (by simp [hp])) h
  | _ =>
      intro h
      cases h

theorem wellFormed_compound {ps : List Piece} (hps : ∀ p ∈ ps, p.Sound ns) (h : compound ns ps = .ok c) :
    c.WellFormed ns := by
  obtain ⟨⟨t, rest⟩, ht, h⟩ := bind_eq_ok.mp h
  obtain ⟨c', hgrow, hc⟩ := bind_eq_ok.mp h
  have htype := wellFormed_typeSelector (fun p hp => (hps p hp).1) ht
  have hrest := (covers_typeSelector ht).2
  have hstart : Sound ns (.mk t [] []) := ⟨htype, trivial, trivial⟩
  have hsound := sound_grow hstart (fun p hp => hps p (hrest hp)) hgrow
  split at hc
  · cases hc
  · next hempty =>
      cases hc
      obtain ⟨t, ss, es⟩ := c
      exact ⟨hsound.1, hsound.2.1, hsound.2.2, Bool.eq_false_iff.mpr hempty⟩

theorem wellFormed_chainOf {more : List (Combinator × List Piece)} : ∀ {first : List Piece} {k : Chain},
    (∀ p ∈ first, p.Sound ns) → (∀ m ∈ more, ∀ p ∈ m.2, p.Sound ns) →
      chainOf ns first more = .ok k → k.WellFormed ns := by
  induction more with
  | nil =>
      intro first k hfirst _ h
      obtain ⟨d, hd, h⟩ := bind_eq_ok.mp h
      cases h
      exact wellFormed_compound hfirst hd
  | cons m more ih =>
      intro first k hfirst hmore h
      obtain ⟨j, segment⟩ := m
      obtain ⟨d, hd, h⟩ := bind_eq_ok.mp h
      split at h
      · cases h
      · next he =>
          obtain ⟨rest, hrest, h⟩ := bind_eq_ok.mp h
          cases h
          refine ⟨wellFormed_compound hfirst hd, ?_, ih ?_ ?_ hrest⟩
          · simpa using he
          · exact hmore (j, segment) List.mem_cons_self
          · exact fun m hm => hmore m (List.mem_cons_of_mem _ hm)

/-! ## Selectors and lists -/

theorem wellFormed_underNesting {l : Option Combinator} {k : Chain} (hk : k.WellFormed ns) :
    (underNesting (.mk l k)).WellFormed ns mode :=
  ⟨⟨⟨by rintro _ ⟨⟩, ⟨trivial, trivial⟩, trivial, rfl⟩, rfl, hk⟩, by rintro ⟨⟩, fun _ => rfl,
    fun _ => ⟨rfl, rfl⟩⟩

/-- A selector as it was read, made into one of its mode. -/
theorem wellFormed_inMode {l : Option Combinator} {k : Chain} (hk : k.WellFormed ns)
    (hl : l ≠ some .descendant) (habsolute : mode = .absolute → l = none) :
    (inMode mode (.mk l k)).WellFormed ns mode := by
  unfold inMode
  split
  · exact wellFormed_underNesting hk
  · next hmode =>
      refine ⟨hk, hl, habsolute, fun hnested => ?_⟩
      simp only [hnested, decide_true, Bool.true_and, Bool.or_eq_true, not_or, Bool.not_eq_true,
        Bool.not_eq_false, Bool.not_eq_eq_eq_not, Bool.not_true] at hmode
      exact ⟨Option.not_isSome_iff_eq_none.mp (Bool.eq_false_iff.mp hmode.1), hmode.2⟩

theorem wellFormed_selector {ps : List Piece} {s : Selector} (hps : ∀ p ∈ ps, p.Sound ns)
    (h : selector ns mode ps = .ok s) : s.WellFormed ns mode := by
  have hcut := inSegments_segments hps
  unfold selector at h
  generalize segments ps = r at h hcut
  split at h
  · obtain ⟨k, hk, h⟩ := bind_eq_ok.mp h
    cases h
    have hfirst := hcut.2 _ List.mem_cons_self
    have hmore := fun m hm => hcut.2 m (List.mem_cons_of_mem _ hm)
    exact wellFormed_inMode (wellFormed_chainOf hfirst hmore hk) (by rintro ⟨⟩) fun _ => rfl
  · next k first more hnot =>
      split at h
      · cases h
      · next hmode =>
          obtain ⟨chain, hchain, h⟩ := bind_eq_ok.mp h
          cases h
          have hfirst := hcut.2 _ List.mem_cons_self
          have hmore := fun m hm => hcut.2 m (List.mem_cons_of_mem _ hm)
          refine wellFormed_inMode (wellFormed_chainOf hfirst hmore hchain) ?_ fun habs => absurd habs hmode
          rintro ⟨⟩
          exact hnot rfl
  · obtain ⟨k, hk, h⟩ := bind_eq_ok.mp h
    cases h
    exact wellFormed_inMode (wellFormed_chainOf hcut.1 hcut.2 hk) (by rintro ⟨⟩) fun _ => rfl

theorem wellFormed_listOfPieces {ps : List Piece} {ss : List Selector} (hps : ∀ p ∈ ps, p.Sound ns)
    (h : listOfPieces ns mode ps = some ss) : ss ≠ [] ∧ AllWellFormed ns mode ss := by
  unfold listOfPieces at h
  split at h
  · next s ss' hkeep =>
      cases h
      refine ⟨List.cons_ne_nil _ _, allWellFormed_iff.mpr fun t ht => ?_⟩
      obtain ⟨part, hpart, hread⟩ := List.mem_map.mp ((mem_keepDeclared hkeep t).mp ht)
      exact wellFormed_selector (fun p hp => hps p (mem_of_mem_splitOn hpart hp)) hread
  · cases h

/-! ## The meaning of functions -/

theorem wellFormed_countingClass {name : String} {vs : List ComponentValue} {ps : List Piece}
    {p : PseudoClass} (hname : name ∈ Names.filteringClasses ∨ name ∈ Names.countingClasses)
    (hvs : EachOf Good vs) (hps : ∀ q ∈ ps, q.Sound ns) (h : countingClass ns name vs ps = some p) :
    p.WellFormed ns := by
  have hfits : EachOf Lexeme.Fits vs := hvs.imp fun _ hl => hl.2
  unfold countingClass at h
  split at h
  · cases h
  · next n rest hread =>
      have hrange := Nth.inRange_read hfits hread
      split at h
      · cases h
        exact ⟨hname, hrange⟩
      · split at h
        · next hof =>
            obtain ⟨ss, hss, rfl⟩ := Option.map_eq_some_iff.mp h
            simp only [Bool.and_eq_true, decide_eq_true_eq] at hof
            exact ⟨hof.1, hrange, wellFormed_listOfPieces (fun q hq => hps q (List.drop_subset _ _ hq)) hss⟩
        · cases h

theorem wellFormed_functionalClass {name : String} {vs : List ComponentValue} {ps : List Piece}
    {p : PseudoClass} (hvs : EachOf Good vs) (hps : ∀ q ∈ ps, q.Sound ns)
    (h : functionalClass ns name vs ps = some p) : p.WellFormed ns := by
  unfold functionalClass at h
  split at h
  · next hname =>
      obtain ⟨ss, hss, rfl⟩ := Option.map_eq_some_iff.mp h
      exact ⟨.absolute, if_pos hname, wellFormed_listOfPieces hps hss⟩
  split at h
  · next hname hhas =>
      obtain ⟨ss, hss, rfl⟩ := Option.map_eq_some_iff.mp h
      exact ⟨.relative, (if_neg hname).trans (if_pos hhas), wellFormed_listOfPieces hps hss⟩
  split at h
  · next hname =>
      simp only [Bool.or_eq_true, decide_eq_true_eq] at hname
      exact wellFormed_countingClass hname hvs hps h
  split at h
  · cases h
    trivial
  · cases h

mutual

theorem sound_piece (ns : Namespaces) : ∀ v : ComponentValue, Each Good v → (piece ns v).Sound ns
  | .token t => fun hv => ⟨hv, fun p hp => by cases hp⟩
  | .block (.bracket b) vs => fun hv => ⟨hv, fun p hp => by cases hp⟩
  | .block (.function n) vs => fun hv => by
      have hvs := sound_pieces ns vs hv.2
      exact ⟨hv, fun p hp => wellFormed_functionalClass hv.2 hvs hp⟩

theorem sound_pieces (ns : Namespaces) : ∀ vs : List ComponentValue, EachOf Good vs →
    ∀ p ∈ pieces ns vs, p.Sound ns
  | [] => fun _ p hp => by cases hp
  | v :: vs => fun h p hp => by
      have hv := sound_piece ns v h.1
      have hvs := sound_pieces ns vs h.2
      rw [pieces] at hp
      rcases List.mem_cons.mp hp with rfl | hp
      · exact hv
      · exact hvs p hp

end

/-- A list of selectors that was read from a text is not empty, and all of it is well formed. -/
theorem wellFormed_listOfText {text : String} {ss : List Selector} (h : listOfText ns mode text = some ss) :
    ss ≠ [] ∧ AllWellFormed ns mode ss := by
  have hgood : EachOf Good (ofText text) := each_ofText (forall_mem_scan good_next) text
  exact wellFormed_listOfPieces (sound_pieces ns _ hgood) h

end Selector

end StyleTree
