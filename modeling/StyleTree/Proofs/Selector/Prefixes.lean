/-
# `Proofs.Selector.Prefixes` — selectors use declared prefixes only

`mentioned` collects the prefixes that stand anywhere in a selector: in the
type and in the attributes of each compound, in the lists of selectors that
pseudo-classes take, also behind `of`, and in pseudo-classes behind a
pseudo-element.  (`Selector.prefixes`, which tools ask for, does not look
into the last two.)  Arguments that are kept as raw values are no selectors.

A list of selectors that was read mentions declared prefixes only
(`covers_listOfValues`).  The proof follows the reader: a value is given its
meaning from the inside out, so that the lists inside a selector are known
to be covered before the selector is read.
-/
import StyleTree.Proofs.Selector.Pieces

namespace StyleTree

/-! ## The prefixes of a selector -/

mutual

def Simple.mentioned : Simple → List String
  | .byAttribute a => Qualifier.prefixes a.qualifier
  | .pseudo p => p.mentioned
  | _ => []

def PseudoClass.mentioned : PseudoClass → List String
  | .matching _ list => Selector.mentionedIn list
  | .countingOf _ _ list => Selector.mentionedIn list
  | _ => []

def PseudoElement.mentioned : PseudoElement → List String
  | .mk _ _ classes => PseudoClass.mentionedIn classes

def Simple.mentionedIn : List Simple → List String
  | [] => []
  | s :: ss => s.mentioned ++ Simple.mentionedIn ss

def PseudoClass.mentionedIn : List PseudoClass → List String
  | [] => []
  | p :: ps => p.mentioned ++ PseudoClass.mentionedIn ps

def PseudoElement.mentionedIn : List PseudoElement → List String
  | [] => []
  | e :: es => e.mentioned ++ PseudoElement.mentionedIn es

def Compound.mentioned : Compound → List String
  | .mk type simple elements =>
    TypeSelector.prefixes type ++
      (Simple.mentionedIn simple ++ PseudoElement.mentionedIn elements)

def Chain.mentioned : Chain → List String
  | .last c => c.mentioned
  | .link c _ rest => c.mentioned ++ rest.mentioned

def Selector.mentioned : Selector → List String
  | .mk _ chain => chain.mentioned

def Selector.mentionedIn : List Selector → List String
  | [] => []
  | s :: ss => s.mentioned ++ Selector.mentionedIn ss

end

/-- All these prefixes are declared. -/
def Namespaces.Covers (ns : Namespaces) (l : List String) : Prop := ∀ n ∈ l, ns.isDeclared n = true

namespace Namespaces

variable {ns : Namespaces} {l l' : List String}

theorem covers_nil : ns.Covers [] := fun n hn => by cases hn

theorem covers_append : ns.Covers (l ++ l') ↔ ns.Covers l ∧ ns.Covers l' := by
  constructor
  · intro h
    exact ⟨fun n hn => h n (List.mem_append_left _ hn), fun n hn => h n (List.mem_append_right _ hn)⟩
  · rintro ⟨h, h'⟩ n hn
    exact (List.mem_append.mp hn).elim (h n) (h' n)

/-- What is declared in the one is declared in the other. -/
def Extends (t u : Namespaces) : Prop := ∀ n, t.isDeclared n = true → u.isDeclared n = true

theorem Extends.covers {t u : Namespaces} (h : t.Extends u) {l : List String} (hl : t.Covers l) :
    u.Covers l := fun n hn => h n (hl n hn)

end Namespaces

open Namespaces (covers_nil covers_append)

theorem Simple.mentionedIn_append (ss ts : List Simple) :
    mentionedIn (ss ++ ts) = mentionedIn ss ++ mentionedIn ts := by
  induction ss with
  | nil => rfl
  | cons s ss ih => rw [List.cons_append, mentionedIn, mentionedIn, ih, List.append_assoc]

theorem PseudoClass.mentionedIn_append (ps qs : List PseudoClass) :
    mentionedIn (ps ++ qs) = mentionedIn ps ++ mentionedIn qs := by
  induction ps with
  | nil => rfl
  | cons p ps ih => rw [List.cons_append, mentionedIn, mentionedIn, ih, List.append_assoc]

theorem PseudoElement.mentionedIn_append (es fs : List PseudoElement) :
    mentionedIn (es ++ fs) = mentionedIn es ++ mentionedIn fs := by
  induction es with
  | nil => rfl
  | cons e es ih => rw [List.cons_append, mentionedIn, mentionedIn, ih, List.append_assoc]

namespace Selector

open ComponentValue

variable {ns : Namespaces}

section

/-! ## Compounds as they grow -/

variable {c : Compound} {p : PseudoClass}

theorem covers_withSimple {s : Simple} (hc : ns.Covers c.mentioned) (hs : ns.Covers s.mentioned) :
    ns.Covers (c.withSimple s).mentioned := by
  obtain ⟨t, ss, es⟩ := c
  rw [Compound.mentioned, covers_append, covers_append] at hc
  have hone : Simple.mentionedIn [s] = s.mentioned := List.append_nil _
  rw [Compound.withSimple, Compound.mentioned, covers_append, covers_append]
  refine ⟨hc.1, ?_, hc.2.2⟩
  rw [Compound.simple, Simple.mentionedIn_append, covers_append, hone]
  exact ⟨hc.2.1, hs⟩

theorem covers_withElement (hc : ns.Covers c.mentioned) (n : String)
    (a : Option (List ComponentValue)) : ns.Covers (c.withElement n a).mentioned := by
  obtain ⟨t, ss, es⟩ := c
  rw [Compound.mentioned, covers_append, covers_append] at hc
  rw [Compound.withElement, Compound.mentioned, covers_append, covers_append]
  refine ⟨hc.1, hc.2.1, ?_⟩
  rw [Compound.elements, PseudoElement.mentionedIn_append, covers_append]
  exact ⟨hc.2.2, covers_nil⟩

theorem covers_addClass (hp : ns.Covers p.mentioned) : ∀ {es : List PseudoElement},
    ns.Covers (PseudoElement.mentionedIn es) →
      ns.Covers (PseudoElement.mentionedIn (Compound.addClass p es))
  | [], _ => covers_nil
  | [.mk n a ps], h => by
      have hone : PseudoClass.mentionedIn [p] = p.mentioned := List.append_nil _
      rw [PseudoElement.mentionedIn, covers_append, PseudoElement.mentioned] at h
      rw [Compound.addClass, PseudoElement.mentionedIn, covers_append, PseudoElement.mentioned,
        PseudoClass.mentionedIn_append, covers_append, hone]
      exact ⟨⟨h.1, hp⟩, covers_nil⟩
  | e :: f :: es, h => by
      rw [PseudoElement.mentionedIn, covers_append] at h
      rw [Compound.addClass, PseudoElement.mentionedIn, covers_append]
      · exact ⟨h.1, covers_addClass hp h.2⟩
      · intro n a ps _ hnil
        cases hnil

theorem covers_withClass (hc : ns.Covers c.mentioned) (hp : ns.Covers p.mentioned) :
    ns.Covers (c.withClass p).mentioned := by
  unfold Compound.withClass
  split
  · exact covers_withSimple hc hp
  · obtain ⟨t, ss, es⟩ := c
    rw [Compound.mentioned, covers_append, covers_append] at hc
    rw [Compound.mentioned, covers_append, covers_append]
    exact ⟨hc.1, hc.2.1, covers_addClass hp hc.2.2⟩

end

/-! ## Names with a prefix -/

theorem bind_eq_ok {α β : Type} {x : Except Failure α} {f : α → Except Failure β} {b : β} :
    (x >>= f) = .ok b ↔ ∃ a, x = .ok a ∧ f a = .ok b := by
  cases x with
  | error e =>
      constructor
      · intro h
        cases h
      · rintro ⟨a, h, -⟩
        cases h
  | ok a =>
      constructor
      · intro h
        exact ⟨a, rfl, h⟩
      · rintro ⟨a', h, hf⟩
        cases h
        exact hf

theorem covers_declared {n : String} {k : Qualifier} (h : declared ns n = .ok k) :
    ns.Covers (Qualifier.prefixes (some k)) := by
  unfold declared at h
  split at h
  · next hd =>
      cases h
      intro m hm
      rw [Qualifier.prefixes, List.mem_singleton] at hm
      rw [hm, hd]
  · cases h

theorem covers_qualifier {p : Piece} {k : Qualifier} (h : qualifier ns p = .ok k) :
    ns.Covers (Qualifier.prefixes (some k)) := by
  unfold qualifier at h
  split at h
  · exact covers_declared h
  · cases h
    exact covers_nil

/-- The pieces behind a type selector are among those that were there. -/
theorem covers_typeSelector {ps rest : List Piece} {t : Option TypeSelector}
    (h : typeSelector ns ps = .ok (t, rest)) : ns.Covers (TypeSelector.prefixes t) ∧ rest ⊆ ps := by
  cases typeSelector_eq_ok.mp h with
  | absent => exact ⟨covers_nil, List.Subset.refl _⟩
  | @name p => exact ⟨covers_nil, List.subset_cons_self p _⟩
  | @bar p q => exact ⟨covers_nil, List.subset_append_right [p, q] _⟩
  | @qualified p q r _ _ _ _ _ hk => exact ⟨covers_qualifier hk, List.subset_append_right [p, q, r] _⟩

theorem covers_attributeName {vs rest : List ComponentValue} {k : Option Qualifier} {n : String}
    (h : attributeName ns vs = .ok (k, n, rest)) : ns.Covers (Qualifier.prefixes k) := by
  unfold attributeName at h
  split at h
  · cases h
    exact covers_nil
  · cases h
    exact covers_nil
  · obtain ⟨k', hk, h⟩ := bind_eq_ok.mp h
    split at h
    · cases h
      exact covers_declared hk
    · cases h
  · cases h
    exact covers_nil
  · cases h

theorem covers_attributeSelector {vs : List ComponentValue} {a : AttributeSelector}
    (h : attributeSelector ns vs = .ok a) : ns.Covers (Qualifier.prefixes a.qualifier) := by
  obtain ⟨⟨k, n, rest⟩, hn, h⟩ := bind_eq_ok.mp h
  simp only at h
  split at h
  · cases h
    exact covers_attributeName hn
  · cases h

/-! ## Compounds and chains -/

/-- The pseudo-class that a piece stands for mentions declared prefixes only. -/
def Piece.Closed (ns : Namespaces) (p : Piece) : Prop :=
  ∀ c, p.meaning = some c → ns.Covers c.mentioned

theorem covers_addTo {c : Compound} {x : Pseudo} (hc : ns.Covers c.mentioned)
    (hx : ∀ p, x = .ofClass p → ns.Covers p.mentioned) : ns.Covers (x.addTo c).mentioned := by
  cases x with
  | ofClass p => exact covers_withClass hc (hx p rfl)
  | ofElement n a => exact covers_withElement hc n a

theorem closed_singleColon {q : Piece} (hq : q.Closed ns) {x : Pseudo} (h : singleColon q = some x)
    (p : PseudoClass) (hp : x = .ofClass p) : ns.Covers p.mentioned := by
  subst hp
  unfold singleColon singleColonName at h
  split at h
  · split at h
    · cases h
    · split at h
      · cases h
        exact covers_nil
      · cases h
  · obtain ⟨c, hc, hx⟩ := Option.map_eq_some_iff.mp h
    cases hx
    exact hq p hc
  · cases h

theorem not_ofClass_doubleColon {q : Piece} {x : Pseudo} (h : doubleColon q = some x)
    (p : PseudoClass) : x ≠ .ofClass p := by
  rintro rfl
  unfold doubleColon at h
  split at h
  · simp only at h
    split at h <;> cases h
  · simp only at h
    split at h <;> cases h
  · cases h

/-- By the cases of the reader: each piece that it takes adds what is covered, the other cases fail. -/
theorem covers_grow {ps : List Piece} {c c' : Compound} (hc : ns.Covers c.mentioned)
    (hps : ∀ p ∈ ps, p.Closed ns) : grow ns c ps = .ok c' → ns.Covers c'.mentioned := by
  fun_induction grow ns c ps with
  | case1 c =>
      intro h
      cases h
      exact hc
  | case2 c p hp q hq r ps x hx ih =>
      intro h
      exact ih (covers_addTo hc fun p hofc => absurd hofc (not_ofClass_doubleColon hx p))
        (fun p hp => hps p (by simp [hp])) h
  | case5 c p hp q ps hq x hx ih =>
      intro h
      exact ih (covers_addTo hc (closed_singleColon (hps q (by simp)) hx))
        (fun p hp => hps p (by simp [hp])) h
  | case9 c p ps hp he hv ih =>
      intro h
      exact ih (covers_withSimple hc covers_nil) (fun p hp => hps p (by simp [hp])) h
  | case10 c p ps hp he n hv ih =>
      intro h
      exact ih (covers_withSimple hc covers_nil) (fun p hp => hps p (by simp [hp])) h
  | case11 c p hp he hv q ps n hn ih =>
      intro h
      exact ih (covers_withSimple hc covers_nil) (fun p hp => hps p (by simp [hp])) h
  | case14 c p ps hp he vs hv a ha ih =>
      intro h
      exact ih (covers_withSimple hc (covers_attributeSelector ha)) (fun p hp => hps p (by simp [hp])) h
  | _ =>
      intro h
      cases h

theorem covers_compound {ps : List Piece} {c : Compound} (hps : ∀ p ∈ ps, p.Closed ns)
    (h : compound ns ps = .ok c) : ns.Covers c.mentioned := by
  obtain ⟨⟨t, rest⟩, ht, h⟩ := bind_eq_ok.mp h
  obtain ⟨c', hc, h⟩ := bind_eq_ok.mp h
  obtain ⟨htype, hrest⟩ := covers_typeSelector ht
  have hstart : ns.Covers (Compound.mk t [] []).mentioned :=
    covers_append.mpr ⟨htype, covers_nil⟩
  have hgrown := covers_grow hstart (fun p hp => hps p (hrest hp)) hc
  split at h
  · cases h
  · cases h
    exact hgrown

theorem covers_chainOf {more : List (Combinator × List Piece)} : ∀ {first : List Piece} {c : Chain},
    (∀ p ∈ first, p.Closed ns) → (∀ m ∈ more, ∀ p ∈ m.2, p.Closed ns) →
      chainOf ns first more = .ok c → ns.Covers c.mentioned := by
  induction more with
  | nil =>
      intro first c hfirst _ h
      obtain ⟨d, hd, h⟩ := bind_eq_ok.mp h
      cases h
      exact covers_compound hfirst hd
  | cons m more ih =>
      intro first c hfirst hmore h
      obtain ⟨k, segment⟩ := m
      obtain ⟨d, hd, h⟩ := bind_eq_ok.mp h
      split at h
      · cases h
      · obtain ⟨rest, hrest, h⟩ := bind_eq_ok.mp h
        cases h
        rw [Chain.mentioned, covers_append]
        refine ⟨covers_compound hfirst hd, ih ?_ ?_ hrest⟩
        · exact hmore (k, segment) List.mem_cons_self
        · exact fun m hm => hmore m (List.mem_cons_of_mem _ hm)

theorem covers_inMode {s : Selector} (h : ns.Covers s.mentioned) (mode : SelectorMode) :
    ns.Covers (inMode mode s).mentioned := by
  unfold inMode
  split
  · obtain ⟨k, c⟩ := s
    exact covers_append.mpr ⟨covers_nil, h⟩
  · exact h

/-! ## Lists of selectors -/

/-- What holds of all pieces holds of those in the segments. -/
def InSegments (P : Piece → Prop) (r : List Piece × List (Combinator × List Piece)) : Prop :=
  (∀ p ∈ r.1, P p) ∧ ∀ m ∈ r.2, ∀ p ∈ m.2, P p

section

variable {P : Piece → Prop} {r : List Piece × List (Combinator × List Piece)}

theorem inSegments_split {k : Combinator} {first : List Piece} {more : List (Combinator × List Piece)}
    (h : InSegments P (first, more)) : InSegments P ([], (k, first) :: more) := by
  refine ⟨fun p hp => (List.not_mem_nil hp).elim, fun m hm => ?_⟩
  rcases List.mem_cons.mp hm with rfl | hm
  · exact h.1
  · exact h.2 m hm

theorem inSegments_addPiece {p : Piece} (hp : P p) (h : InSegments P r) : InSegments P (addPiece p r) := by
  unfold addPiece
  split
  · split
    · next k _ segment more =>
        refine ⟨h.1, fun m hm => ?_⟩
        rcases List.mem_cons.mp hm with rfl | hm
        · exact h.2 (.descendant, segment) List.mem_cons_self
        · exact h.2 m (List.mem_cons_of_mem _ hm)
    · exact inSegments_split h
  · split
    · split
      · exact h
      · exact inSegments_split h
    · refine ⟨fun q hq => ?_, h.2⟩
      rcases List.mem_cons.mp hq with rfl | hq
      · exact hp
      · exact h.1 q hq

theorem inSegments_segments {ps : List Piece} (hps : ∀ p ∈ ps, P p) : InSegments P (segments ps) := by
  induction ps with
  | nil => exact ⟨fun p hp => (List.not_mem_nil hp).elim, fun m hm => (List.not_mem_nil hm).elim⟩
  | cons p ps ih =>
      exact inSegments_addPiece (hps p List.mem_cons_self)
        (ih fun q hq => hps q (List.mem_cons_of_mem _ hq))

end

theorem covers_selector {mode : SelectorMode} {ps : List Piece} {s : Selector}
    (hps : ∀ p ∈ ps, p.Closed ns) (h : selector ns mode ps = .ok s) : ns.Covers s.mentioned := by
  have hcut := inSegments_segments hps
  unfold selector at h
  generalize segments ps = r at h hcut
  split at h
  · obtain ⟨c, hc, h⟩ := bind_eq_ok.mp h
    cases h
    have hfirst := hcut.2 _ List.mem_cons_self
    have hmore := fun m hm => hcut.2 m (List.mem_cons_of_mem _ hm)
    exact covers_inMode (covers_chainOf hfirst hmore hc) mode
  · split at h
    · cases h
    · obtain ⟨c, hc, h⟩ := bind_eq_ok.mp h
      cases h
      have hfirst := hcut.2 _ List.mem_cons_self
      have hmore := fun m hm => hcut.2 m (List.mem_cons_of_mem _ hm)
      exact covers_inMode (covers_chainOf hfirst hmore hc) mode
  · obtain ⟨c, hc, h⟩ := bind_eq_ok.mp h
    cases h
    exact covers_inMode (covers_chainOf hcut.1 hcut.2 hc) mode

theorem covers_keepDeclared : ∀ {l : List (Except Failure Selector)} {ss : List Selector},
    (∀ s, .ok s ∈ l → ns.Covers s.mentioned) → keepDeclared l = some ss →
      ns.Covers (mentionedIn ss)
  | [], _, _, h => by
      cases h
      exact covers_nil
  | .ok s :: l, _, hl, h => by
      obtain ⟨ss, hss, rfl⟩ := Option.map_eq_some_iff.mp h
      have hrest := covers_keepDeclared (fun s hs => hl s (List.mem_cons_of_mem _ hs)) hss
      exact covers_append.mpr ⟨hl s List.mem_cons_self, hrest⟩
  | .error .undeclaredPrefix :: l, _, hl, h =>
      covers_keepDeclared (fun s hs => hl s (List.mem_cons_of_mem _ hs)) h
  | .error .syntaxError :: _, _, _, h => by cases h

theorem covers_listOfPieces {mode : SelectorMode} {ps : List Piece} {ss : List Selector}
    (hps : ∀ p ∈ ps, p.Closed ns) (h : listOfPieces ns mode ps = some ss) :
    ns.Covers (mentionedIn ss) := by
  unfold listOfPieces at h
  split at h
  · next hkeep =>
      cases h
      refine covers_keepDeclared (fun s hs => ?_) hkeep
      obtain ⟨part, hpart, hsel⟩ := List.mem_map.mp hs
      exact covers_selector (fun p hp => hps p (mem_of_mem_splitOn hpart hp)) hsel
  · cases h

/-! ## The meaning of functions -/

theorem covers_countingClass {name : String} {vs : List ComponentValue} {ps : List Piece}
    {c : PseudoClass} (hps : ∀ p ∈ ps, p.Closed ns) (h : countingClass ns name vs ps = some c) :
    ns.Covers c.mentioned := by
  unfold countingClass at h
  split at h
  · cases h
  · split at h
    · cases h
      exact covers_nil
    · split at h
      · obtain ⟨ss, hss, rfl⟩ := Option.map_eq_some_iff.mp h
        exact covers_listOfPieces (fun p hp => hps p (List.drop_subset _ _ hp)) hss
      · cases h

theorem covers_functionalClass {name : String} {vs : List ComponentValue} {ps : List Piece}
    {c : PseudoClass} (hps : ∀ p ∈ ps, p.Closed ns) (h : functionalClass ns name vs ps = some c) :
    ns.Covers c.mentioned := by
  unfold functionalClass at h
  split at h
  · obtain ⟨ss, hss, rfl⟩ := Option.map_eq_some_iff.mp h
    exact covers_listOfPieces hps hss
  · split at h
    · obtain ⟨ss, hss, rfl⟩ := Option.map_eq_some_iff.mp h
      exact covers_listOfPieces hps hss
    · split at h
      · exact covers_countingClass hps h
      · split at h
        · cases h
          exact covers_nil
        · cases h

mutual

theorem closed_piece (ns : Namespaces) : ∀ v : ComponentValue, (piece ns v).Closed ns
  | .token t => fun c hc => by
      simp only [piece] at hc
      cases hc
  | .block o vs => fun c hc => by
      have hvs := closed_pieces ns vs
      simp only [piece] at hc
      cases o with
      | function n => exact covers_functionalClass hvs hc
      | bracket b => cases hc

theorem closed_pieces (ns : Namespaces) : ∀ vs : List ComponentValue, ∀ p ∈ pieces ns vs, p.Closed ns
  | [] => fun p hp => by cases hp
  | v :: vs => fun p hp => by
      have hv := closed_piece ns v
      have hvs := closed_pieces ns vs
      rw [pieces] at hp
      rcases List.mem_cons.mp hp with rfl | hp
      · exact hv
      · exact hvs p hp

end

/-- What was read as a list of selectors mentions declared prefixes only. -/
theorem covers_listOfValues {mode : SelectorMode} {vs : List ComponentValue} {ss : List Selector}
    (h : listOfValues ns mode vs = some ss) : ns.Covers (mentionedIn ss) :=
  covers_listOfPieces (closed_pieces ns vs) h

end Selector

end StyleTree
