/-
# `Proofs.Sheet.Preludes` — rules with names are written as they were read

The heads of named rules come from three sources: from the prelude of a
statement that was read, and from the names that keyframes and counter styles
are given afterwards.  The second may be any text; one with U+0000 in it can
be stored, but not written.  All others read back from the rule as text
(`names_read_back`).
-/
import StyleTree.Proofs.Arena.Ids
import StyleTree.Proofs.Rule.Preludes
import StyleTree.Proofs.Sheet.Links
import StyleTree.Proofs.Sheet.Runs

namespace StyleTree.Sheet

open ComponentValue

variable {s t : Sheet} {id : RuleId} {r : Rule} {name : String}

theorem rule?_setHead (hr : s.rule? id = some r) (head : RuleHead) :
    (s.setHead id r head).rule? id = some { r with head } := by
  obtain ⟨n, hn, hvalue⟩ := Option.map_eq_some_iff.mp hr
  show ((s.arena.modify id fun n => { n with value := { r with head } }).get? id).map Node.value = _
  rw [Arena.get?_modify, if_pos rfl, hn]
  rfl

theorem readsBack_keyframes (hname : name.isEmpty = false) (hclean : Text.IsClean name) :
    (RuleHead.keyframes name).ReadsBack :=
  have hkind : RuleKind.keyframes ∈ RuleKind.named := by decide
  RuleHead.readsBack hkind (fun hempty => by rw [hempty] at hname; cases hname) hclean

theorem readsBack_counterStyle {n : String} (h : counterStyleName name = .ok n) :
    (RuleHead.counterStyle n).ReadsBack := by
  unfold counterStyleName at h
  generalize hn : (Prelude.onlyIdent? (trim (ofText name))).filter Name.isCounterStyle = o at h
  cases o with
  | none => cases h
  | some m =>
      cases h
      obtain ⟨honly, hstyle⟩ := Option.filter_eq_some_iff.mp hn
      rw [Name.isCounterStyle, Bool.and_eq_true, Bool.not_eq_true'] at hstyle
      have hlegible : EachOf Lexeme.Legible (trim (ofText name)) :=
        (legible_ofText name).of_subset fun _ hv => mem_of_mem_trim hv
      have hkind : RuleKind.counterStyle ∈ RuleKind.named := by decide
      exact RuleHead.readsBack hkind hstyle (Prelude.isName_of_onlyIdent? hlegible honly)

/-- What was read from the prelude of a named rule reads back from the rule with an empty block as text; so does the
name that keyframes are given, if U+0000 is not in it, and the one that a counter style is given. -/
theorem names_read_back :
    (∀ k st c ns head, st.IsRead → k ∈ RuleKind.named → RuleHead.ofPrelude? k st c ns = some head →
      head.kind = k ∧ head.ReadsBack) ∧
    (∀ (s t : Sheet) id name, Text.IsClean name → s.run (renameKeyframes id name) = (.ok (), t) →
      ∃ r, t.rule? id = some r ∧ r.head = .keyframes name ∧ r.head.ReadsBack) ∧
    ∀ (s t : Sheet) id name, s.run (renameCounterStyle id name) = (.ok (), t) →
      ∃ r n, t.rule? id = some r ∧ counterStyleName name = .ok n ∧ r.head = .counterStyle n ∧ r.head.ReadsBack := by
  refine ⟨fun k st c ns head hst hk h => ?_, fun s t id name hclean h => ?_, fun s t id name h => ?_⟩
  · obtain rfl := RuleHead.kind_of_ofPrelude? h
    have hvalid := (RuleHead.isProduced_of_ofPrelude? h).isValid
    exact ⟨rfl, RuleHead.readsBack hk hvalid (RuleHead.isLegible_of_ofPrelude? hst.legible h)⟩
  · obtain ⟨r, -, hr, -, hname, rfl⟩ := renameKeyframes_ok h
    exact ⟨_, rule?_setHead hr _, rfl, readsBack_keyframes hname hclean⟩
  · obtain ⟨r, n, -, hr, -, hname, rfl⟩ := renameCounterStyle_ok h
    exact ⟨_, n, rule?_setHead hr _, hname, rfl, readsBack_counterStyle hname⟩

/-- A layer with a point in its name, keyframes that are given a reserved name, and a counter style with a blank. -/
theorem names_read_back_escaped :
    (∃ st head, Statement.single (ofText "@LAYER a\\.b.c, d;") = .ok st ∧
      RuleHead.ofPrelude? .layerStatement st .stylesheet .empty = some head ∧ head.text = "@layer a\\.b.c, d" ∧
      head.ReadsBack) ∧
    (∃ r, ((read .scripted "@keyframes a{}").run (renameKeyframes ⟨1, 1⟩ "none")).2.rule? ⟨1, 1⟩ = some r ∧
      r.head = .keyframes "none" ∧ r.head.text = "@keyframes \"none\"" ∧ r.head.ReadsBack) ∧
    ∃ r n, ((read .scripted "@counter-style a{}").run (renameCounterStyle ⟨1, 1⟩ " b\\ c ")).2.rule? ⟨1, 1⟩ = some r ∧
      counterStyleName " b\\ c " = .ok n ∧ r.head = .counterStyle n ∧ r.head.ReadsBack := by
  have hlayers : ((Statement.single (ofText "@LAYER a\\.b.c, d;")).toOption.any fun st =>
      (RuleHead.ofPrelude? .layerStatement st .stylesheet .empty).any fun head =>
        head.text = "@layer a\\.b.c, d") = true := by
    decide +kernel
  have hkeyframes : ((read .scripted "@keyframes a{}").run (renameKeyframes ⟨1, 1⟩ "none")).1 = .ok () := by decide +kernel
  have hcounter : ((read .scripted "@counter-style a{}").run (renameCounterStyle ⟨1, 1⟩ " b\\ c ")).1 = .ok () := by
    decide +kernel
  refine ⟨?_, ?_, names_read_back.2.2 _ _ _ _ (Prod.ext hcounter rfl)⟩
  · cases hst : Statement.single (ofText "@LAYER a\\.b.c, d;") with
    | error f =>
        rw [hst] at hlayers
        cases hlayers
    | ok st =>
        rw [hst] at hlayers
        have hread : (RuleHead.ofPrelude? .layerStatement st .stylesheet .empty).any (fun head =>
            head.text = "@layer a\\.b.c, d") = true := hlayers
        obtain ⟨head, hhead, htext⟩ := (Option.any_eq_true _ _).mp hread
        exact ⟨st, head, rfl, hhead, of_decide_eq_true htext,
          (names_read_back.1 _ st _ _ head (.single hst) (by decide) hhead).2⟩
  · have hclean : Text.IsName "none" := by decide
    obtain ⟨r, hr, hhead, hback⟩ := names_read_back.2.1 _ _ _ _ hclean.clean (Prod.ext hkeyframes rfl)
    exact ⟨r, hr, hhead, by rw [hhead]; decide +kernel, hback⟩

end StyleTree.Sheet
