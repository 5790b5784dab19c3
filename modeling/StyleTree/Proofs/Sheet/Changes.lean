/-
# `Proofs.Sheet.Changes` — all that an edit can do

`Change s e t` lists what the edit `e` makes of the sheet `s` if it
succeeds, one constructor for each way in which the arena is written.  Edits
that only change what a rule says fall under one of them, `revised`; which
words they may put there is `Revision`.  `change_of_ok` is proved from the
steps of each edit once, and what holds behind every edit is then a case
analysis of `Change`.
-/
import StyleTree.Proofs.Sheet.Atomicity

namespace StyleTree.Sheet

variable {s t : Sheet} {e : Edit} {id : RuleId} {r r' : Rule}

/-- The edit `e` makes `r'` of the rule `r`, which is `id`. -/
inductive Revision (s : Sheet) : Edit → RuleId → Rule → Rule → Prop
  | key {id : RuleId} {text : String} {r : Rule} {k : KeyframeKey} :
      r.kind = .keyframe → KeyframeKey.ofText? text = some k →
      Revision s (.setKey id text) id r { r with head := .keyframe k }
  | keyframesName {id : RuleId} {name : String} {r : Rule} :
      r.kind = .keyframes → name.isEmpty = false →
      Revision s (.renameKeyframes id name) id r { r with head := .keyframes name }
  | counterStyleName {id : RuleId} {name n : String} {r : Rule} :
      r.kind = .counterStyle → counterStyleName name = .ok n →
      Revision s (.renameCounterStyle id name) id r { r with head := .counterStyle n }
  | selectors {id : RuleId} {text : String} {r : Rule} {head : RuleHead} :
      s.selectorsOf r text = .ok (some head) →
      Revision s (.setSelectors id text) id r { r with head }
  | blank {id : RuleId} {name value : String} {important : Bool} {r : Rule} {b : DeclarationBlock} :
      r.declarations = some b → (ComponentValue.ofText value).all ComponentValue.isBlank = true →
      Revision s (.setProperty id name value important) id r
        { r with declarations := some (b.erase name) }
  | declared {id : RuleId} {name value n : String} {important : Bool} {r : Rule}
      {b : DeclarationBlock} {v : DeclaredValue} :
      r.declarations = some b →
      s.settings.options.grammar.read b.context name value important = .ok (n, v) →
      Revision s (.setProperty id name value important) id r { r with declarations := some (b.insert n v) }
  | removed {id : RuleId} {name : String} {r : Rule} {b : DeclarationBlock} :
      r.declarations = some b →
      Revision s (.removeProperty id name) id r { r with declarations := some (b.erase name) }
  | feature {p b : RuleId} {f : FeatureType} {name : String} {values : List Nat} {r : Rule}
      {m m' : FeatureValues} : s.featuresUnder? p f = some (b, m) → r.head = .featureBlock m →
      m.set name values = .ok m' →
      Revision s (.setFeature p f name values) b r { r with head := .featureBlock m' }
  | noFeature {p b : RuleId} {f : FeatureType} {name : String} {r : Rule} {m : FeatureValues} :
      s.featuresUnder? p f = some (b, m) → r.head = .featureBlock m →
      Revision s (.removeFeature p f name) b r { r with head := .featureBlock (m.erase name) }

/-- Edits that succeed also where they find nothing to do. -/
def Ignorable : Edit → Prop
  | .setSelectors .. | .removeFeature .. | .deleteKeyframe .. => True
  | _ => False

/-- What an edit that succeeds makes of a sheet. -/
inductive Change (s : Sheet) : Edit → Sheet → Prop
  | ignored {e : Edit} : Ignorable e → Change s e s
  | revised {e : Edit} {id : RuleId} {r : Rule} {f : Rule → Rule} :
      s.rule? id = some r → s.Revision e id r (f r) →
      Change s e { s with arena := s.arena.modify id fun n => { n with value := f n.value } }
  | inserted {l : RuleList} {text : String} {i : Nat} {is : List RuleId} {context : RuleContext}
      {st : Statement} {head : RuleHead} : s.list l = .ok (is, context) → i ≤ is.length →
      Statement.single (ComponentValue.ofText text) = .ok st → s.headOf st context = .ok head →
      s.admits l context head.kind i = .ok () →
      Change s (.insert l text i)
        ((s.plant context head st).2.place l i (s.plant context head st).1).2
  | appended {id : RuleId} {text : String} {r : Rule} {st : Statement} {head : RuleHead} :
      s.rule? id = some r → r.kind = .keyframes →
      Statement.single (ComponentValue.ofText text) = .ok st → s.keyframeOf st = .ok head →
      Change s (.appendKeyframe id text)
        ((s.plant .keyframes head st).2.append id (s.plant .keyframes head st).1)
  | founded {id : RuleId} {f : FeatureType} {name : String} {values : List Nat} {r : Rule}
      {m : FeatureValues} : s.rule? id = some r → r.kind = .fontFeatureValues →
      s.featuresUnder? id f = none → (FeatureValues.empty f).set name values = .ok m →
      Change s (.setFeature id f name values) (s.addFeatures id m)
  | deleted {l : RuleList} {i : Nat} {is : List RuleId} {context : RuleContext} {id : RuleId}
      {r : Rule} : s.list l = .ok (is, context) → is[i]? = some id → s.rule? id = some r →
      (r.kind = .namespaceRule → s.hasBody = false) →
      Change s (.delete l i) (((s.unlist l i).detach id).2.settleNamespaces r.kind)
  | keyframeDeleted {id c : RuleId} {key : String} : s.findKeyframe? id key = some c →
      Change s (.deleteKeyframe id key) (s.detach c).2
  | replaced {text : String} : s.settings.constructed = true → s.pending = false →
      Change s (.replace text) (s.commit text)

/-! ## The edits -/

/-- A block of feature values that was found under a rule says nothing else. -/
theorem featuresUnder?_eq_some {p b : RuleId} {f : FeatureType} {m : FeatureValues}
    (h : s.featuresUnder? p f = some (b, m)) :
    s.arena.featureBlock? p f = some b ∧ m.feature = f ∧
      ∃ r, s.rule? b = some r ∧ r.head = .featureBlock m := by
  obtain ⟨b', hb, he⟩ := Option.map_eq_some_iff.mp h
  simp only [Prod.mk.injEq] at he
  obtain ⟨rfl, hm⟩ := he
  have hfound := List.find?_some hb
  cases hf : s.arena.features? b' with
  | none =>
      rw [hf] at hfound
      cases hfound
  | some m' =>
      rw [hf, Option.getD_some] at hm
      subst hm
      rw [hf, Option.any_some, decide_eq_true_eq] at hfound
      obtain ⟨r, hr, hhead⟩ := Option.bind_eq_some_iff.mp hf
      refine ⟨hb, hfound, r, hr, ?_⟩
      unfold RuleHead.features? at hhead
      split at hhead
      · next hfb =>
          cases hhead
          exact hfb
      · cases hhead

theorem change_setSelectors {text : String} {u : Unit}
    (h : s.run (setSelectors id text) = (.ok u, t)) : Change s (.setSelectors id text) t := by
  obtain ⟨r, head, -, hr, hhead, rfl⟩ := setSelectors_ok h
  cases head with
  | none => exact .ignored trivial
  | some head => exact .revised (f := fun _ => { r with head }) hr (.selectors hhead)

theorem change_setProperty {name value : String} {important : Bool} {u : Unit}
    (h : s.run (setProperty id name value important) = (.ok u, t)) :
    Change s (.setProperty id name value important) t := by
  obtain ⟨r, b, -, hr, hb, ⟨hv, rfl⟩ | ⟨n, v, hread, rfl⟩⟩ := setProperty_ok h
  · exact .revised (f := fun _ => { r with declarations := some (b.erase name) }) hr (.blank hb hv)
  · exact .revised (f := fun _ => { r with declarations := some (b.insert n v) }) hr
      (.declared hb hread)

theorem change_setFeature {f : FeatureType} {name : String} {values : List Nat} {u : Unit}
    (h : s.run (setFeature id f name values) = (.ok u, t)) :
    Change s (.setFeature id f name values) t := by
  obtain ⟨r, -, hr, hk, ⟨b, m, m', hsome, hset, rfl⟩ | ⟨m', hnone, hset, rfl⟩⟩ := setFeature_ok h
  · obtain ⟨-, -, rb, hrb, hhead⟩ := featuresUnder?_eq_some hsome
    exact .revised (f := fun r => { r with head := .featureBlock m' }) hrb (.feature hsome hhead hset)
  · exact .founded hr hk hnone hset

theorem change_removeFeature {f : FeatureType} {name : String} {found : Bool}
    (h : s.run (removeFeature id f name) = (.ok found, t)) : Change s (.removeFeature id f name) t := by
  obtain ⟨r, -, -, -, ⟨b, m, hsome, -, rfl⟩ | ⟨-, -, rfl⟩⟩ := removeFeature_ok h
  · obtain ⟨-, -, rb, hrb, hhead⟩ := featuresUnder?_eq_some hsome
    exact .revised (f := fun r => { r with head := .featureBlock (m.erase name) }) hrb
      (.noFeature hsome hhead)
  · exact .ignored trivial

theorem change_deleteKeyframe {key : String} {d : Option RemovedRule}
    (h : s.run (deleteKeyframe id key) = (.ok d, t)) : Change s (.deleteKeyframe id key) t := by
  rcases (deleteKeyframe_ok h).2.2 with ⟨-, -, rfl⟩ | ⟨c, hc, hd⟩
  · exact .ignored trivial
  · obtain rfl : (s.detach c).2 = t := congrArg Prod.snd hd
    exact .keyframeDeleted hc

theorem change_of_ok {o : Outcome} (h : s.run (perform e) = (.ok o, t)) : Change s e t := by
  cases e with
  | insert l text i =>
      obtain ⟨n, h, -⟩ := map_eq_ok.mp h
      obtain ⟨is, context, st, head, -, -, hl, hi, hst, hhead, hadmits, hplace⟩ := insert_ok h
      obtain rfl : ((s.plant context head st).2.place l i (s.plant context head st).1).2 = t :=
        congrArg Prod.snd hplace
      exact .inserted hl hi hst hhead hadmits
  | delete l i =>
      obtain ⟨d, h, -⟩ := map_eq_ok.mp h
      obtain ⟨id, k, u, -, -, hdel, hu, rfl⟩ := delete_ok h
      obtain ⟨is, context, r, hl, hi, hr, rfl, hb⟩ := deletable_ok hdel
      obtain rfl : ((s.unlist l i).detach id).2 = u := congrArg Prod.snd hu
      exact .deleted hl hi hr hb
  | appendKeyframe id text =>
      obtain ⟨new, h, -⟩ := map_eq_ok.mp h
      obtain ⟨r, st, head, -, hr, hk, hst, hhead, -, rfl⟩ := appendKeyframe_ok h
      exact .appended hr hk hst hhead
  | deleteKeyframe id key =>
      obtain ⟨d, h, -⟩ := map_eq_ok.mp h
      exact change_deleteKeyframe h
  | setKey id text =>
      obtain ⟨u, h, -⟩ := map_eq_ok.mp h
      obtain ⟨r, k, -, hr, hk, htext, rfl⟩ := setKey_ok h
      exact .revised (f := fun _ => { r with head := .keyframe k }) hr (.key hk htext)
  | renameKeyframes id name =>
      obtain ⟨u, h, -⟩ := map_eq_ok.mp h
      obtain ⟨r, -, hr, hk, hn, rfl⟩ := renameKeyframes_ok h
      exact .revised (f := fun _ => { r with head := .keyframes name }) hr (.keyframesName hk hn)
  | renameCounterStyle id name =>
      obtain ⟨u, h, -⟩ := map_eq_ok.mp h
      obtain ⟨r, n, -, hr, hk, hn, rfl⟩ := renameCounterStyle_ok h
      exact .revised (f := fun _ => { r with head := .counterStyle n }) hr (.counterStyleName hk hn)
  | setSelectors id text =>
      obtain ⟨u, h, -⟩ := map_eq_ok.mp h
      exact change_setSelectors h
  | setProperty id name value important =>
      obtain ⟨u, h, -⟩ := map_eq_ok.mp h
      exact change_setProperty h
  | removeProperty id name =>
      obtain ⟨v, h, -⟩ := map_eq_ok.mp h
      obtain ⟨r, b, -, hr, hb, -, rfl⟩ := removeProperty_ok h
      exact .revised (f := fun _ => { r with declarations := some (b.erase name) }) hr (.removed hb)
  | setFeature id f name values =>
      obtain ⟨u, h, -⟩ := map_eq_ok.mp h
      exact change_setFeature h
  | removeFeature id f name =>
      obtain ⟨found, h, -⟩ := map_eq_ok.mp h
      exact change_removeFeature h
  | replace text =>
      obtain ⟨u, h, -⟩ := map_eq_ok.mp h
      obtain ⟨hc, hp, rfl⟩ := replace_ok h
      exact .replaced hc hp

/-! ## What no edit changes -/

/-- Only style rules and pages get other selectors. -/
theorem selectorsOf_cases {r : Rule} {text : String} {head : RuleHead}
    (h : s.selectorsOf r text = .ok (some head)) :
    (r.kind = .style ∧ ∃ l, Selector.listOfText s.namespaces r.context.selectorMode text = some l ∧
        head = .style l) ∨
      (r.kind = .page ∧ ∃ l, PageSelector.listOfValues? (ComponentValue.ofText text) = some l ∧
        head = .page l) := by
  unfold selectorsOf at h
  split at h
  · next hk =>
      obtain ⟨l, hl, rfl⟩ := Option.map_eq_some_iff.mp (Except.ok.inj h)
      exact Or.inl ⟨hk, l, hl, rfl⟩
  · next hk =>
      obtain ⟨l, hl, rfl⟩ := Option.map_eq_some_iff.mp (Except.ok.inj h)
      exact Or.inr ⟨hk, l, hl, rfl⟩
  · cases h

/-- A rule keeps its kind and its context. -/
theorem Revision.kind_eq (h : s.Revision e id r r') : r'.kind = r.kind ∧ r'.context = r.context := by
  cases h with
  | key hk _ => exact ⟨hk.symm, rfl⟩
  | keyframesName hk _ => exact ⟨hk.symm, rfl⟩
  | counterStyleName hk _ => exact ⟨hk.symm, rfl⟩
  | selectors hsel =>
      refine ⟨?_, rfl⟩
      rcases selectorsOf_cases hsel with ⟨hk, l, -, rfl⟩ | ⟨hk, l, -, rfl⟩
      · exact hk.symm
      · exact hk.symm
  | blank _ _ => exact ⟨rfl, rfl⟩
  | declared _ _ => exact ⟨rfl, rfl⟩
  | removed _ => exact ⟨rfl, rfl⟩
  | feature _ hhead _ => exact ⟨(congrArg RuleHead.kind hhead).symm, rfl⟩
  | noFeature _ hhead => exact ⟨(congrArg RuleHead.kind hhead).symm, rfl⟩

theorem settleNamespaces_settings (s : Sheet) (k : RuleKind) :
    (s.settleNamespaces k).settings = s.settings := by
  unfold settleNamespaces
  split <;> rfl

theorem settleNamespaces_pending (s : Sheet) (k : RuleKind) :
    (s.settleNamespaces k).pending = s.pending := by
  unfold settleNamespaces
  split <;> rfl

theorem Change.settings_eq (h : Change s e t) : t.settings = s.settings := by
  cases h with
  | @inserted l _ _ _ _ _ _ _ _ _ _ _ => cases l <;> rfl
  | @deleted l _ _ _ _ _ _ _ _ _ =>
      rw [settleNamespaces_settings]
      cases l <;> rfl
  | _ => rfl

/-- An edit that replaces the rules finds the sheet unlocked. -/
theorem Change.pending_eq (h : Change s e t) : t.pending = s.pending := by
  cases h with
  | @inserted l _ _ _ _ _ _ _ _ _ _ _ => cases l <;> rfl
  | @deleted l _ _ _ _ _ _ _ _ _ =>
      rw [settleNamespaces_pending]
      cases l <;> rfl
  | replaced _ hp => exact hp.symm
  | _ => rfl

theorem perform_settings (s : Sheet) (e : Edit) : (s.run (perform e)).2.settings = s.settings := by
  rcases perform_cases s e with ⟨f, h⟩ | ⟨o, t, h⟩
  · rw [h]
  · rw [h]
    exact (change_of_ok h).settings_eq

theorem perform_pending (s : Sheet) (e : Edit) : (s.run (perform e)).2.pending = s.pending := by
  rcases perform_cases s e with ⟨f, h⟩ | ⟨o, t, h⟩
  · rw [h]
  · rw [h]
    exact (change_of_ok h).pending_eq

end StyleTree.Sheet
