/-
# `Proofs.Selector.First` — what the text of a selector begins with

A selector begins with a name exactly if it has no combinator in front and
its first compound has a type that is named, with a name or a prefix that is
not empty (`Selector.startsNamed`).  Every other selector begins with a
sign: of a combinator, of a universal type, or of a simple selector.

    > b        + b        ~ b
    *          *|b        |b
    &          #b         .b         [b]        :b

What stands behind a name is never read as a part of it, so that the text
begins with an identifier exactly if the selector begins with a name
(`scan_begins_iff`).
-/
import StyleTree.Selector.Text
import StyleTree.Proofs.Token.First

namespace StyleTree

open Scan

variable {cs X : List Char} {b : Bool}

/-! ## Names and signs -/

/-- Characters that may stand behind a type. -/
def signsBehindType : List Char := ['|', '&', '#', '.', '[', ':', ' ', ',']

/-- Characters that a selector may begin with, besides those of a name. -/
def signs : List Char := signsBehindType ++ ['*', '>', '+', '~']

/-- The text begins with a character that may stand behind a type. -/
def Follows (cs : List Char) : Prop := ∃ c ds, cs = c :: ds ∧ c ∈ signsBehindType

/-- Whether the text begins with a name or with a sign. -/
inductive Begins : Bool → List Char → Prop
  | named {n rest : List Char} : n ≠ [] → Follows rest → Begins true (Text.writeIdentifier n ++ rest)
  | sign {c : Char} {cs : List Char} : c ∈ signs → Begins false (c :: cs)

theorem Follows.append (h : Follows X) (cs : List Char) : Follows (X ++ cs) := by
  obtain ⟨c, ds, rfl, hc⟩ := h
  exact ⟨c, ds ++ cs, rfl, hc⟩

theorem Follows.begins (h : Follows cs) : Begins false cs := by
  obtain ⟨c, ds, rfl, hc⟩ := h
  exact .sign (List.mem_append_left _ hc)

theorem behindType_ends {c : Char} (h : c ∈ signsBehindType) :
    (isNameChar c = false ∧ c ≠ '\\') ∧ c ≠ '(' ∧ c ≠ '>' := by
  have hall : signsBehindType.all
      (fun c => (isNameChar c = false ∧ c ≠ '\\') ∧ c ≠ '(' ∧ c ≠ '>') = true := by decide
  exact of_decide_eq_true (List.all_eq_true.mp hall c h)

theorem sign_is_no_name {c : Char} (h : c ∈ signs) :
    isNameStart c = false ∧ c ≠ '-' ∧ c ≠ '\\' ∧ c ≠ '/' := by
  have hall : signs.all (fun c => isNameStart c = false ∧ c ≠ '-' ∧ c ≠ '\\' ∧ c ≠ '/') = true := by decide
  exact of_decide_eq_true (List.all_eq_true.mp hall c h)

theorem startsIdentifier_eq_false {c : Char} (h : isNameStart c = false) (hminus : c ≠ '-')
    (hescape : c ≠ '\\') : startsIdentifier (c :: cs) = false := by
  unfold startsIdentifier
  split <;> simp_all

/-- The text of a name is read as an identifier, and that of a sign is not. -/
theorem scan_begins_iff (h : Begins b cs) : (∃ n ls, Lexeme.scan cs = .token (.ident n) :: ls) ↔ b = true := by
  cases h with
  | @named n rest hn hrest =>
      obtain ⟨c, ds, rfl, hc⟩ := hrest
      obtain ⟨hstops, hopen, hclose⟩ := behindType_ends hc
      refine iff_of_true ⟨_, _, scan_writeIdentifier hn hstops ?_ ?_⟩ rfl
      · rintro _ ⟨⟩
        exact hopen rfl
      · rintro _ ⟨⟩
        exact hclose rfl
  | @sign c cs hc =>
      obtain ⟨hname, hminus, hescape, hslash⟩ := sign_is_no_name hc
      refine iff_of_false ?_ Bool.false_ne_true
      rintro ⟨n, ls, hls⟩
      obtain ⟨l, hl, hident⟩ :=
        next_of_not_startsIdentifier (startsIdentifier_eq_false hname hminus hescape) hslash
      rw [Lexeme.scan_cons, hl] at hls
      cases hls
      exact hident n rfl

/-! ## Selectors -/

/-- The type is written with a name or a prefix in front. -/
def TypeSelector.startsNamed : TypeSelector → Bool
  | ⟨some (.named p), _⟩ => !p.isEmpty
  | ⟨some _, _⟩ => false
  | ⟨none, some n⟩ => !n.isEmpty
  | ⟨none, none⟩ => false

def Compound.startsNamed (c : Compound) : Bool := c.type.any TypeSelector.startsNamed

def Chain.startsNamed : Chain → Bool
  | .last c => c.startsNamed
  | .link c _ _ => c.startsNamed

/-- The selector is written with a name in front. -/
def Selector.startsNamed : Selector → Bool
  | .mk none chain => chain.startsNamed
  | .mk (some _) _ => false

/-- A text that begins with another that begins so. -/
theorem follows_of_append {s t u : String} (hs : s = t ++ u) (ht : Follows t.toList) : Follows s.toList := by
  rw [hs, String.toList_append]
  exact ht.append _

theorem AttributeSelector.follows_text (a : AttributeSelector) : Follows a.text.toList := by
  unfold text
  simp only [String.append_assoc]
  exact follows_of_append rfl ⟨'[', [], rfl, by decide⟩

theorem PseudoClass.follows_text (p : PseudoClass) : Follows p.text.toList := by
  have hcolon : Follows ":".toList := ⟨':', [], rfl, by decide⟩
  cases p with
  | plain n =>
      rw [text]
      exact follows_of_append rfl hcolon
  | _ =>
      rw [text]
      simp only [String.append_assoc]
      exact follows_of_append rfl hcolon

theorem Simple.follows_text (s : Simple) : Follows s.text.toList := by
  cases s with
  | nesting => exact ⟨'&', [], by rw [text]; rfl, by decide⟩
  | byId n => rw [text]; exact follows_of_append rfl ⟨'#', [], rfl, by decide⟩
  | byClass n => rw [text]; exact follows_of_append rfl ⟨'.', [], rfl, by decide⟩
  | byAttribute a => rw [text]; exact a.follows_text
  | pseudo p => rw [text]; exact p.follows_text

theorem Simple.follows_textOf (ss : List Simple) (hX : Follows X) : Follows ((textOf ss).toList ++ X) := by
  cases ss with
  | nil =>
      rw [textOf]
      exact hX
  | cons s ss =>
      rw [textOf, String.toList_append, List.append_assoc]
      exact s.follows_text.append _

theorem PseudoElement.follows_text (e : PseudoElement) : Follows e.text.toList := by
  obtain ⟨n, argument, classes⟩ := e
  unfold text
  simp only [String.append_assoc]
  exact follows_of_append rfl ⟨':', [':'], rfl, by decide⟩

theorem PseudoElement.follows_textOf (es : List PseudoElement) (hX : Follows X) :
    Follows ((textOf es).toList ++ X) := by
  cases es with
  | nil =>
      rw [textOf]
      exact hX
  | cons e es =>
      rw [textOf, String.toList_append, List.append_assoc]
      exact e.follows_text.append _

theorem begins_identifier (n : String) (hX : Follows X) :
    Begins (!n.isEmpty) ((Text.identifier n).toList ++ X) := by
  rw [Text.identifier, String.toList_ofList]
  cases hn : n.isEmpty with
  | true =>
      obtain rfl : n = "" := String.isEmpty_iff.mp hn
      exact hX.begins
  | false =>
      refine .named ?_ hX
      rintro hnil
      rw [String.toList_eq_nil_iff.mp hnil] at hn
      cases hn

theorem TypeSelector.begins_text (t : TypeSelector) (hX : Follows X) :
    Begins t.startsNamed (t.text.toList ++ X) := by
  have hbar : ∀ cs, Follows ('|' :: cs) := fun cs => ⟨'|', cs, rfl, by decide⟩
  have hstar : ∀ cs, Begins false ('*' :: cs) := fun cs => .sign (by decide)
  have hany : "*|".toList = ['*', '|'] := rfl
  have hnone : "|".toList = ['|'] := rfl
  have huniversal : "*".toList = ['*'] := rfl
  obtain ⟨q, n⟩ := t
  rw [text, String.toList_append, List.append_assoc]
  match q with
  | some (.named p) =>
      simp only [Qualifier.text, String.toList_append, List.append_assoc]
      exact begins_identifier p (hbar _)
  | some .any =>
      rw [Qualifier.text, hany]
      exact hstar _
  | some .none =>
      rw [Qualifier.text, hnone]
      exact (hbar _).begins
  | none =>
      cases n with
      | some n => exact begins_identifier n hX
      | none =>
          rw [huniversal]
          exact hstar _

theorem Compound.begins_text (c : Compound) (hX : Follows X) :
    Begins c.startsNamed (c.text.toList ++ X) := by
  obtain ⟨type, simple, elements⟩ := c
  have hrest := Simple.follows_textOf simple (PseudoElement.follows_textOf elements hX)
  unfold text
  simp only [String.toList_append, List.append_assoc]
  cases type with
  | none => exact hrest.begins
  | some t => exact t.begins_text hrest

theorem Chain.begins_text (c : Chain) (hX : Follows X) : Begins c.startsNamed (c.text.toList ++ X) := by
  have hblank : ∀ cs, Follows (' ' :: cs) := fun cs => ⟨' ', cs, rfl, by decide⟩
  cases c with
  | last c =>
      rw [text]
      exact c.begins_text hX
  | link c k rest =>
      have hk : Follows k.text.toList := by
        cases k
        · exact hblank _
        all_goals
          rw [Combinator.text, String.append_assoc]
          · exact follows_of_append rfl (hblank [])
          · exact nofun
      rw [text]
      simp only [String.toList_append, List.append_assoc]
      exact c.begins_text (hk.append _)

theorem Selector.begins_text (s : Selector) (hX : Follows X) :
    Begins s.startsNamed (s.text.toList ++ X) := by
  obtain ⟨leading, chain⟩ := s
  unfold text
  rw [String.toList_append, List.append_assoc]
  cases leading with
  | none => exact chain.begins_text hX
  | some k =>
      rw [String.toList_append, List.append_assoc]
      cases k <;> exact .sign (by decide)

/-- A list of selectors begins as its first one does. -/
theorem Selector.begins_listText (s : Selector) (ss : List Selector) (hX : Follows X) :
    Begins s.startsNamed ((listText (s :: ss)).toList ++ X) := by
  rw [listText, texts]
  cases ss with
  | nil => exact s.begins_text hX
  | cons s' ss =>
      rw [texts, Text.joined, String.append_assoc, String.toList_append, List.append_assoc]
      · refine s.begins_text ?_
        rw [String.toList_append, List.append_assoc]
        exact ⟨',', _, rfl, by decide⟩
      · exact nofun

end StyleTree
