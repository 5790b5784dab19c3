/-
# `Proofs.Sheet.Heads` — what rules say stays valid

What a rule says besides its block comes from a production, and some of it
can be changed by edits, which have checks of their own:

    selectors, keys          the text is read by the production again
    a counter style          the name passes the filter of the production
    keyframes                the name is not empty, so it could have been
                             written as a string

So the head of each rule is what the production of its kind gives for some
values, whatever was done to the sheet (`ruleInvariant_isProduced`), and
all that follows from the production may be relied on.

Ids are not used again, so a rule which is there before and after an event
is the same one: it was changed by a setter, if at all, and these keep its
kind (`kind_step`).
-/
import StyleTree.Proofs.Rule.Productions
import StyleTree.Proofs.Sheet.Contexts
import StyleTree.Proofs.Sheet.Rules

namespace StyleTree

open StyleTree.Tree (idsOf EveryOf)

variable {c : RuleContext} {head : RuleHead}

/-! ## Heads that were produced -/

/-- What the rule says is what the production of its kind gives in its context. -/
def Rule.IsProduced (r : Rule) : Prop := r.head.IsProduced r.context

theorem RuleHead.isProduced_read {st : Statement} {ns : Namespaces} (h : st.read c ns = .ok head) :
    head.IsProduced c :=
  isProduced_of_ofPrelude? (Statement.read_eq_ok.mp h).2.2

theorem RuleHead.isProduced_scope : (style [Selector.scope]).IsProduced .scope :=
  ⟨.empty, [.token .colon, .token (.ident "scope")], rfl⟩

theorem RuleHead.isProduced_keyframes {name : String} (h : name.isEmpty = false) :
    (keyframes name).IsProduced c :=
  ⟨[.token (.string name)], by rw [Prelude.keyframesName?, h, if_neg Bool.false_ne_true]⟩

theorem RuleHead.isProduced_counterStyle {name n : String} (h : Sheet.counterStyleName name = .ok n) :
    (counterStyle n).IsProduced c := by
  unfold Sheet.counterStyleName at h
  generalize hname : (Prelude.onlyIdent? _).filter Name.isCounterStyle = o at h
  cases o with
  | none => cases h
  | some m =>
      cases h
      exact ⟨_, hname⟩

theorem RuleHead.isProduced_selectors {s : Sheet} {r : Rule} {text : String}
    (h : s.selectorsOf r text = .ok (some head)) : head.IsProduced r.context := by
  rcases Sheet.selectorsOf_cases h with ⟨-, l, hl, rfl⟩ | ⟨-, l, hl, rfl⟩
  · exact ⟨_, _, hl⟩
  · exact ⟨_, hl⟩

theorem Sheet.Revision.isProduced {s : Sheet} {e : Edit} {id : RuleId} {r r' : Rule} (h : s.Revision e id r r')
    (hr : r.IsProduced) : r'.IsProduced := by
  cases h with
  | key _ htext => exact ⟨_, htext⟩
  | keyframesName _ hname => exact RuleHead.isProduced_keyframes hname
  | counterStyleName _ hname => exact RuleHead.isProduced_counterStyle hname
  | @selectors _ _ r head hsel =>
      show head.IsProduced r.context
      exact RuleHead.isProduced_selectors hsel
  | blank _ _ | declared _ _ | removed _ => exact hr
  | feature _ _ _ | noFeature _ _ => trivial

/-- Whatever was done to a sheet, each rule says what the production of its kind gives. -/
theorem Rule.ruleInvariant_isProduced : RuleInvariant fun _ r => r.IsProduced where
  read := RuleHead.isProduced_read
  declare := by
    intro o r ds hr
    have hcontext : (r.withDeclarations o ds).context = r.context := Rule.context_withDeclarations o r ds
    unfold IsProduced
    rw [hcontext]
    rcases Rule.head_withDeclarations o r ds with hhead | ⟨m, -, hhead⟩
    · rw [hhead]
      exact hr
    · rw [hhead]
      trivial
  scope _ _ := RuleHead.isProduced_scope
  merge _ _ _ _ _ := trivial
  found _ := trivial
  revise h hr := h.isProduced hr

/-! ## Kinds -/

namespace Sheet

variable {s t : Sheet} {ts us : List (Tree (RuleId × Rule))} {e : Edit} {id : RuleId} {r r' : Rule}

/-- A tree that was added to others has none of their ids. -/
theorem Planted.not_mem_added (h : t.Planted us) {w : Tree (RuleId × Rule)}
    (hperm : (idsOf us).Perm (w.ids ++ idsOf ts)) (hid : id ∈ idsOf ts) : id ∉ w.ids := by
  have hn := hperm.nodup_iff.mp h.forest.nodup
  exact fun hw => (List.nodup_append'.mp hn).2.2 hw hid

/-- An edit that does not replace all rules leaves no rule under the id of one of another kind. -/
theorem Reshape.everyOf_kind {ns : Namespaces} (h : Reshape s ts e ns us) (hs : s.Planted ts) (ht : t.Planted us)
    (he : ∀ text, e ≠ .replace text) (hr : s.rule? id = some r) :
    EveryOf (fun x => x.1 = id → x.2.kind = r.kind) us := by
  have hold : EveryOf (fun x => x.1 = id → x.2.kind = r.kind) ts := fun x hx heq =>
    congrArg Rule.kind (hs.everyOf_eq hr x hx heq)
  -- what was added has other ids
  have hnew : ∀ {w : Tree (RuleId × Rule)}, (idsOf us).Perm (w.ids ++ idsOf ts) →
      Tree.Every (fun x => x.1 = id → x.2.kind = r.kind) w := fun hperm x hx heq =>
    absurd (List.mem_map.mpr ⟨x, hx, heq⟩) (ht.not_mem_added hperm (hs.mem_idsOf hr))
  cases h with
  | ignored _ => exact hold
  | revised hx hrev =>
      refine (hs.everyOf_eq hr).adjustAll (fun b _ hb heq => congrArg Rule.kind (hb heq)) ?_
      rintro b hb rfl
      obtain rfl : b = r := hb rfl
      obtain rfl := Option.some.inj (hx.symm.trans hr)
      exact hrev.kind_eq.1
  | @listed _ _ _ _ w hi _ _ _ =>
      have hperm := Tree.idsOf_perm (List.perm_insertIdx w ts hi)
      rw [Tree.idsOf_cons] at hperm
      exact hold.insertIdx (hnew hperm) hi
  | grafted _ hp _ _ _ | founded hp _ _ _ _ =>
      exact hold.graftAll (hnew (Tree.idsOf_graftAll ts hs.forest.nodup (hs.mem_idsOf hp)))
  | cut _ _ _ => exact hold.pruneAll
  | replaced _ => exact absurd rfl (he _)

/-- A rule that is there before and after an edit is of the same kind. -/
theorem Change.kind_eq (h : Change s e t) (hs : s.IsForest) (hr : s.rule? id = some r)
    (hr' : t.rule? id = some r') : r'.kind = r.kind := by
  by_cases he : ∃ text, e = .replace text
  · obtain ⟨text, rfl⟩ := he
    cases h with
    | ignored h => cases h
    | revised _ h => cases h
    | replaced _ _ => exact absurd (mem_ids_of_rule? hr') (commit_gone text hs (mem_ids_of_rule? hr))
  · obtain ⟨ts, hs⟩ := hs
    obtain ⟨us, ht, hre⟩ := h.reshape hs
    exact ht.everyOf_iff.mp (hre.everyOf_kind hs ht (not_exists.mp he) hr) id r' hr' rfl

end Sheet

namespace SharedSheet

variable {σ : SharedSheet} {id : RuleId} {r : Rule}

theorem kind_step (hf : σ.sheet.IsForest) (hr : σ.sheet.rule? id = some r) (e : Event) {r' : Rule}
    (hr' : (σ.step e).sheet.rule? id = some r') : r'.kind = r.kind := by
  have hturn := turn_step σ e
  generalize σ.step e = τ at hturn hr'
  have hgone : ∀ text, (σ.sheet.commit text).rule? id ≠ some r' := fun text h =>
    Sheet.commit_gone text hf (Sheet.mem_ids_of_rule? hr) (Sheet.mem_ids_of_rule? h)
  cases hturn with
  | @edited e =>
      rcases Sheet.perform_cases σ.sheet e with ⟨f, hrun⟩ | ⟨o, t, hrun⟩
      · rw [hrun] at hr'
        obtain rfl := Option.some.inj (hr.symm.trans hr')
        rfl
      · rw [hrun] at hr'
        exact (Sheet.change_of_ok hrun).kind_eq hf hr hr'
  | commits _ | dropped _ => exact absurd hr' (hgone _)
  | _ =>
      obtain rfl := Option.some.inj (hr.symm.trans hr')
      rfl

/-- Whatever was done to a sheet: what a rule says is what the production of its kind gives, with all that
follows from it; and no event changes the kind of a rule that is there before and after it. -/
theorem rule_data_stays_valid (h : σ.Reachable) (hr : σ.sheet.rule? id = some r) :
    r.head.IsProduced r.context ∧ r.head.IsValid ∧
      ∀ e r', (σ.step e).sheet.rule? id = some r' → r'.kind = r.kind := by
  have hproduced : r.IsProduced := Rule.ruleInvariant_isProduced.of_reachable h hr
  exact ⟨hproduced, hproduced.isValid, fun e r' hr' => kind_step (isForest_of_reachable h) hr e hr'⟩

/-- Keyframes are given a name that they could not have as an identifier. -/
theorem rule_data_stays_valid_keyframes :
    let σ := (ofSheet (Sheet.read .scripted "@keyframes k{from,50%{}}")).step
      (.edit (.renameKeyframes ⟨1, 1⟩ "none"))
    ∃ r r', σ.sheet.rule? ⟨1, 1⟩ = some r ∧ r.kind = .keyframes ∧ r.head.name? = some "none" ∧
      r.head.IsProduced r.context ∧ σ.sheet.rule? ⟨2, 1⟩ = some r' ∧ r'.kind = .keyframe ∧ r'.head.IsValid ∧
      ∀ e r'', (σ.step e).sheet.rule? ⟨2, 1⟩ = some r'' → r''.kind = .keyframe := by
  intro σ
  have hσ : σ.Reachable := ⟨_, [.edit (.renameKeyframes ⟨1, 1⟩ "none")], .read _ _, rfl⟩
  have hnames : (σ.sheet.rule? ⟨1, 1⟩).any (fun r => r.kind = .keyframes ∧ r.head.name? = some "none") = true := by
    decide +kernel
  have hkey : (σ.sheet.rule? ⟨2, 1⟩).any (fun r => r.kind = .keyframe) = true := by
    decide +kernel
  obtain ⟨r, hr, hnames⟩ := (Option.any_eq_true _ _).mp hnames
  obtain ⟨r', hr', hkey⟩ := (Option.any_eq_true _ _).mp hkey
  obtain ⟨hkind, hname⟩ := of_decide_eq_true hnames
  obtain ⟨-, hvalid, hkeeps⟩ := rule_data_stays_valid hσ hr'
  refine ⟨r, r', hr, hkind, hname, (rule_data_stays_valid hσ hr).1, hr', of_decide_eq_true hkey, hvalid, ?_⟩
  exact fun e r'' h => (hkeeps e r'' h).trans (of_decide_eq_true hkey)

end SharedSheet

end StyleTree
