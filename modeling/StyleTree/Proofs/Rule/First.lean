/-
# `Proofs.Rule.First` — what the text of a rule begins with

Among declarations, the first value of a text decides what it is read as:
an at-keyword starts a rule, an identifier starts a declaration, and all
else starts a style rule.  The text of an at-rule begins with its keyword,
so it is read as a rule wherever it stands.  That of a style rule begins as
its first selector does, and is taken for a declaration if that is a name
(`Rule.startsWithIdent_iff`).
-/
import StyleTree.Rule.Text
import StyleTree.Proofs.Selector.First
import StyleTree.Proofs.ComponentValue.Nesting
import StyleTree.Proofs.Statement.Splitting

namespace StyleTree

open ComponentValue Scan

variable {r : Rule} {ts : List (Tree Rule)} {head : RuleHead} {s t u : String}

/-! ## The first value -/

/-- The text is that of an identifier and something behind it. -/
def StartsWithIdent (text : String) : Prop := ∃ n vs, ofText text = .token (.ident n) :: vs

theorem startsWithIdent_iff :
    StartsWithIdent s ↔ ∃ n ls, Lexeme.scan s.toList = .token (.ident n) :: ls := by
  unfold StartsWithIdent ofText
  cases Lexeme.scan s.toList with
  | nil =>
      refine iff_of_false ?_ ?_
      · rintro ⟨n, vs, h⟩
        cases h
      · rintro ⟨n, ls, h⟩
        cases h
  | cons l ls =>
      cases l with
      | token t =>
          rw [nest_token]
          simp
      | opening o =>
          obtain ⟨contents, vs, h⟩ := nest_opening o ls
          rw [h]
          simp

/-- The text begins with an `@` and a letter. -/
def beginsAt (s : String) : Bool :=
  match s.toList with
  | '@' :: c :: _ => isNameStart c
  | _ => false

theorem beginsAt_append (h : beginsAt s = true) (t : String) : beginsAt (s ++ t) = true := by
  unfold beginsAt at h ⊢
  rw [String.toList_append]
  split at h
  · next hs =>
      rw [hs]
      exact h
  · cases h

/-- A text that begins with an at-keyword is read as a rule. -/
theorem split_of_beginsAt (h : beginsAt s = true) :
    ∃ st items, Statement.split .declarations (ofText s) = .rule st :: items := by
  unfold beginsAt at h
  split at h
  · next c cs hs =>
      unfold ofText
      rw [hs, Lexeme.scan_cons, next_at (startsIdentifier_cons h), Option.toList_some, List.singleton_append,
        nest_token, Statement.split, Statement.nextItem_atRule]
      exact ⟨_, _, rfl⟩
  · cases h

/-! ## Rules -/

namespace RuleHead

/-- The rule is written with a name in front. -/
def startsNamed : RuleHead → Bool
  | style (s :: _) => s.startsNamed
  | _ => false

/-- The margin box of the rule is one of those that there are. -/
def HasBox (head : RuleHead) : Prop := ∀ i, head = .margin i → (MarginBox.name? i).isSome = true

theorem beginsAt_boxName : ∀ name ∈ MarginBox.names, beginsAt ("@" ++ name) = true := by
  decide +kernel

theorem beginsAt_namedHead {keyword : String} (h : beginsAt ("@" ++ keyword) = true) (name : String) :
    beginsAt (namedHead keyword name) = true := by
  rw [namedHead, String.append_assoc]
  exact beginsAt_append h _

theorem beginsAt_text (h : head.HasBox) (hstyle : head.kind ≠ .style) (hkey : head.kind ≠ .keyframe) :
    beginsAt head.text = true := by
  cases head with
  | style _ => exact absurd rfl hstyle
  | keyframe _ => exact absurd rfl hkey
  | margin i =>
      obtain ⟨name, hname⟩ := Option.isSome_iff_exists.mp (h i rfl)
      show beginsAt ("@" ++ (MarginBox.name? i).getD "") = true
      rw [hname, Option.getD_some]
      rw [MarginBox.name?] at hname
      exact beginsAt_boxName name (List.mem_of_getElem? hname)
  | page l =>
      cases l with
      | nil => rfl
      | cons s l =>
          show beginsAt ("@page " ++ PageSelector.listText (s :: l)) = true
          exact beginsAt_append (by decide) _
  | featureBlock m =>
      have hnames : ∀ f : FeatureType, beginsAt ("@" ++ f.name) = true := by
        intro f
        cases f <;> rfl
      exact hnames m.feature
  | fontPaletteValues n => exact beginsAt_namedHead (by decide) n
  | counterStyle n => exact beginsAt_namedHead (by decide) n
  | property n => exact beginsAt_namedHead (by decide) n
  | positionTry n => exact beginsAt_namedHead (by decide) n
  | colorProfile n => exact beginsAt_namedHead (by decide) n
  | fontFace => rfl
  | startingStyle => rfl
  | viewTransition => rfl
  | importRule _ | namespaceRule _ _ | container _ _ | scope _ _ =>
      unfold text
      simp only [String.append_assoc]
      exact beginsAt_append (by decide) _
  | _ =>
      unfold text
      exact beginsAt_append (by decide) _

end RuleHead

namespace Rule

theorem beginsAt_text (h : r.head.HasBox) (hstyle : r.kind ≠ .style) (hkey : r.kind ≠ .keyframe) :
    beginsAt (text (.node r ts)) = true := by
  rw [text, textWith]
  split
  · next m hm =>
      unfold FeatureValues.text
      simp only [String.append_assoc]
      rw [← String.append_assoc]
      refine beginsAt_append ?_ _
      cases m.feature <;> rfl
  · have hhead := RuleHead.beginsAt_text h hstyle hkey
    split <;> exact beginsAt_append hhead _

theorem follows_blockText (parts : List String) : Follows (blockText parts).toList := by
  have hblank : ∀ cs, Follows (' ' :: cs) := fun cs => ⟨' ', cs, rfl, by decide⟩
  unfold blockText
  split
  · exact hblank _
  · simp only [String.append_assoc]
    exact follows_of_append rfl (hblank _)

/-- The text of a style rule is taken for a declaration exactly if its first selector begins with a
name. -/
theorem startsWithIdent_iff (h : r.kind = .style) :
    StartsWithIdent (text (.node r ts)) ↔ r.head.startsNamed = true := by
  obtain ⟨head, declarations, context⟩ := r
  cases head with
  | style l =>
      have hblock := follows_blockText
        (declarationText ⟨.style l, declarations, context⟩ ++ texts ts)
      have htext : text (.node ⟨.style l, declarations, context⟩ ts) = Selector.listText l ++
          blockText (declarationText ⟨.style l, declarations, context⟩ ++ texts ts) := by
        rw [text]
        rfl
      rw [StyleTree.startsWithIdent_iff, htext, String.toList_append]
      cases l with
      | nil => exact scan_begins_iff hblock.begins
      | cons s ss => exact scan_begins_iff (s.begins_listText ss hblock)
  | _ => cases h

end Rule

end StyleTree
