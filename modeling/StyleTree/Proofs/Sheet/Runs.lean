/-
# `Proofs.Sheet.Runs` — what an edit that succeeds has done

For each edit there is one statement, read off its steps once: if it
succeeds, all its checks have passed and the sheet behind it is a given
one.  Nothing behind this file looks into the steps of an edit again to
see what success means.
-/
import StyleTree.Sheet.Shared

namespace StyleTree.Sheet

open StyleTree.Sheet.Action (look write check change)

variable {α β : Type} {s t : Sheet}

/-! ## One step at a time -/

theorem run_look_bind (s : Sheet) (f : Sheet → Except Fault α) (k : α → Action β) :
    s.run (look f >>= k) =
      match f s with
      | .ok a => s.run (k a)
      | .error e => (.error e, s) := by
  rw [run_bind, run_look]
  cases f s <;> rfl

theorem run_write_bind (s : Sheet) (f : Sheet → α × Sheet) (k : α → Action β) :
    s.run (write f >>= k) = (f s).2.run (k (f s).1) := by
  rw [run_bind, run_write]

theorem run_change_bind (s : Sheet) (f : Sheet → Sheet) (k : Unit → Action β) :
    s.run (change f >>= k) = (f s).run (k ()) := run_write_bind s _ k

theorem run_change (s : Sheet) (f : Sheet → Sheet) : s.run (change f) = (.ok (), f s) := rfl

theorem run_map (s : Sheet) (f : α → β) (m : Action α) :
    s.run (f <$> m) = ((s.run m).1.map f, (s.run m).2) := by
  rw [← bind_pure_comp, run_bind]
  rcases s.run m with ⟨_ | _, _⟩ <;> rfl

theorem look_eq_ok {f : Sheet → Except Fault α} {k : α → Action β} {b : β} :
    s.run (look f >>= k) = (.ok b, t) ↔ ∃ a, f s = .ok a ∧ s.run (k a) = (.ok b, t) := by
  rw [run_look_bind]
  cases f s <;> simp

theorem check_eq_ok {c : Prop} [Decidable c] {f : Fault} {k : Unit → Action β} {b : β} :
    s.run (check c f >>= k) = (.ok b, t) ↔ c ∧ s.run (k ()) = (.ok b, t) := by
  rw [check, look_eq_ok]
  by_cases hc : c
  · simp only [hc, if_true, true_and]
    exact ⟨fun ⟨_, h⟩ => h, fun h => ⟨(), h⟩⟩
  · simp [hc]

/-- Behind a look two actions run alike if they do so with whatever was found. -/
theorem run_look_congr {f : Sheet → Except Fault α} {k k' : α → Action β}
    (h : ∀ a, f s = .ok a → s.run (k a) = s.run (k' a)) : s.run (look f >>= k) = s.run (look f >>= k') := by
  rw [run_look_bind, run_look_bind]
  cases hf : f s with
  | error e => rfl
  | ok a => exact h a hf

theorem run_check_bind {c : Prop} [Decidable c] (hc : c) (s : Sheet) (f : Fault) (k : Unit → Action β) :
    s.run (check c f >>= k) = s.run (k ()) := by
  rw [check, run_look_bind, if_pos hc]

theorem map_eq_ok {f : α → β} {m : Action α} {b : β} :
    s.run (f <$> m) = (.ok b, t) ↔ ∃ a, s.run m = (.ok a, t) ∧ f a = b := by
  rw [run_map]
  rcases s.run m with ⟨_ | a, u⟩
  · simp [Except.map]
  · simp only [Except.map, Prod.mk.injEq, Except.ok.injEq]
    constructor
    · rintro ⟨hb, hu⟩
      exact ⟨a, ⟨rfl, hu⟩, hb⟩
    · rintro ⟨_, ⟨rfl, hu⟩, hb⟩
      exact ⟨hb, hu⟩

theorem access_eq_ok {u : Unit} : s.access = .ok u ↔ s.settings.originClean = true := by
  unfold access
  split <;> simp_all

theorem unlocked_eq_ok {u : Unit} : s.unlocked = .ok u ↔ s.pending = false := by
  unfold unlocked
  split <;> simp_all

theorem ruleOfKind_eq_ok {id : RuleId} {k : RuleKind} {r : Rule} :
    s.ruleOfKind id k = .ok r ↔ s.rule? id = some r ∧ r.kind = k := by
  unfold ruleOfKind
  cases s.rule? id with
  | none => simp
  | some r' =>
      simp only [Option.some.injEq]
      split
      · next hk =>
          rw [Except.ok.injEq]
          exact ⟨fun h => ⟨h, h ▸ hk⟩, fun h => h.1⟩
      · next hk =>
          refine ⟨fun h => absurd h (by simp), ?_⟩
          rintro ⟨rfl, h⟩
          exact absurd h hk

theorem anyRule_eq_ok {id : RuleId} {r : Rule} : s.anyRule id = .ok r ↔ s.rule? id = some r := by
  unfold anyRule
  cases s.rule? id <;> simp

/-! ## Lists -/

theorem list_under_eq_ok {p : RuleId} {ids : List RuleId} {context : RuleContext} :
    s.list (.under p) = .ok (ids, context) ↔
      ∃ r, s.rule? p = some r ∧ hasList r.kind = true ∧ s.arena.children p = ids ∧
        r.blockContext = context := by
  simp only [list]
  cases s.rule? p with
  | none => simp
  | some r =>
      simp only [Option.some.injEq, exists_eq_left']
      split
      · next hr => simp [hr]
      · next hr => simp [hr]

theorem insert_ok {l : RuleList} {text : String} {i n : Nat}
    (h : s.run (insert l text i) = (.ok n, t)) :
    ∃ ids context st head, s.settings.originClean = true ∧ s.pending = false ∧
      s.list l = .ok (ids, context) ∧ i ≤ ids.length ∧
      Statement.single (ComponentValue.ofText text) = .ok st ∧ s.headOf st context = .ok head ∧
      s.admits l context head.kind i = .ok () ∧
      (s.plant context head st).2.place l i (s.plant context head st).1 = (n, t) := by
  unfold insert at h
  obtain ⟨_, hclean, h⟩ := look_eq_ok.mp h
  obtain ⟨_, hfree, h⟩ := look_eq_ok.mp h
  obtain ⟨⟨ids, context⟩, hlist, h⟩ := look_eq_ok.mp h
  obtain ⟨hi, h⟩ := check_eq_ok.mp h
  obtain ⟨st, hst, h⟩ := look_eq_ok.mp h
  obtain ⟨head, hhead, h⟩ := look_eq_ok.mp h
  obtain ⟨_, hadmits, h⟩ := look_eq_ok.mp h
  rw [run_write_bind, run_write, Prod.mk.injEq, Except.ok.injEq] at h
  exact ⟨ids, context, st, head, access_eq_ok.mp hclean, unlocked_eq_ok.mp hfree, hlist, hi, hst,
    hhead, hadmits, Prod.ext h.1 h.2⟩

theorem deletable_ok {l : RuleList} {i : Nat} {id : RuleId} {k : RuleKind}
    (h : s.deletable l i = .ok (id, k)) :
    ∃ ids context r, s.list l = .ok (ids, context) ∧ ids[i]? = some id ∧ s.rule? id = some r ∧
      r.kind = k ∧ (k = .namespaceRule → s.hasBody = false) := by
  unfold deletable at h
  cases hl : s.list l with
  | error e => rw [hl] at h; cases h
  | ok p =>
      obtain ⟨ids, context⟩ := p
      rw [hl] at h
      cases hi : ids[i]? with
      | none => simp only [bind, Except.bind, hi] at h; cases h
      | some id' =>
          simp only [bind, Except.bind, hi] at h
          cases hr : s.anyRule id' with
          | error e => rw [hr] at h; cases h
          | ok r =>
              simp only [hr] at h
              split at h
              · cases h
              · next hb =>
                  cases h
                  refine ⟨ids, context, r, rfl, hi, anyRule_eq_ok.mp hr, rfl, fun hk => ?_⟩
                  simpa [hk] using hb

theorem takeOut_eq_ok {id : RuleId} {d : RemovedRule} :
    s.run (takeOut id) = (.ok d, t) ↔ s.detach id = (some d, t) := by
  rw [takeOut, run_write_bind, run_look]
  rcases s.detach id with ⟨_ | d', u⟩ <;> simp

theorem delete_ok {l : RuleList} {i : Nat} {d : RemovedRule}
    (h : s.run (delete l i) = (.ok d, t)) :
    ∃ id k u, s.settings.originClean = true ∧ s.pending = false ∧ s.deletable l i = .ok (id, k) ∧
      (s.unlist l i).detach id = (some d, u) ∧ t = u.settleNamespaces k := by
  unfold delete at h
  obtain ⟨_, hclean, h⟩ := look_eq_ok.mp h
  obtain ⟨_, hfree, h⟩ := look_eq_ok.mp h
  obtain ⟨⟨id, k⟩, hdel, h⟩ := look_eq_ok.mp h
  simp only [run_change_bind] at h
  rw [run_bind] at h
  rcases hr : (s.unlist l i).run (takeOut id) with ⟨_ | d', u⟩
  · rw [hr] at h
    cases h
  · rw [hr] at h
    cases h
    exact ⟨id, k, u, access_eq_ok.mp hclean, unlocked_eq_ok.mp hfree, hdel, takeOut_eq_ok.mp hr, rfl⟩

/-! ## Keyframes -/

theorem appendKeyframe_ok {id new : RuleId} {text : String}
    (h : s.run (appendKeyframe id text) = (.ok new, t)) :
    ∃ r st head, s.settings.originClean = true ∧ s.rule? id = some r ∧ r.kind = .keyframes ∧
      Statement.single (ComponentValue.ofText text) = .ok st ∧ s.keyframeOf st = .ok head ∧
      new = (s.plant .keyframes head st).1 ∧
      t = (s.plant .keyframes head st).2.append id (s.plant .keyframes head st).1 := by
  unfold appendKeyframe at h
  obtain ⟨_, hclean, h⟩ := look_eq_ok.mp h
  obtain ⟨r, hr, h⟩ := look_eq_ok.mp h
  obtain ⟨st, hst, h⟩ := look_eq_ok.mp h
  obtain ⟨head, hhead, h⟩ := look_eq_ok.mp h
  rw [run_write_bind, run_change_bind, run_pure] at h
  cases h
  obtain ⟨hr, hk⟩ := ruleOfKind_eq_ok.mp hr
  exact ⟨r, st, head, access_eq_ok.mp hclean, hr, hk, hst, hhead, rfl, rfl⟩

theorem deleteKeyframe_ok {id : RuleId} {key : String} {d : Option RemovedRule}
    (h : s.run (deleteKeyframe id key) = (.ok d, t)) :
    s.settings.originClean = true ∧ (∃ r, s.rule? id = some r ∧ r.kind = .keyframes) ∧
      (s.findKeyframe? id key = none ∧ d = none ∧ t = s ∨
        ∃ c, s.findKeyframe? id key = some c ∧ s.detach c = (d, t)) := by
  unfold deleteKeyframe at h
  obtain ⟨_, hclean, h⟩ := look_eq_ok.mp h
  obtain ⟨r, hr, h⟩ := look_eq_ok.mp h
  obtain ⟨c, hc, h⟩ := look_eq_ok.mp h
  cases hc
  refine ⟨access_eq_ok.mp hclean, ⟨r, ruleOfKind_eq_ok.mp hr⟩, ?_⟩
  cases hc : s.findKeyframe? id key with
  | none =>
      rw [hc, run_pure] at h
      cases h
      exact Or.inl ⟨rfl, rfl, rfl⟩
  | some c =>
      rw [hc, run_write] at h
      simp only [Prod.mk.injEq, Except.ok.injEq] at h
      exact Or.inr ⟨c, rfl, Prod.ext h.1 h.2⟩

theorem setKey_ok {id : RuleId} {text : String} {u : Unit} (h : s.run (setKey id text) = (.ok u, t)) :
    ∃ r k, s.settings.originClean = true ∧ s.rule? id = some r ∧ r.kind = .keyframe ∧
      KeyframeKey.ofText? text = some k ∧ t = s.setHead id r (.keyframe k) := by
  unfold setKey at h
  obtain ⟨_, hclean, h⟩ := look_eq_ok.mp h
  obtain ⟨r, hr, h⟩ := look_eq_ok.mp h
  obtain ⟨k, hk, h⟩ := look_eq_ok.mp h
  rw [run_change] at h
  cases h
  cases ht : KeyframeKey.ofText? text with
  | none => rw [ht] at hk; cases hk
  | some k' =>
      rw [ht] at hk
      cases hk
      obtain ⟨hr, hkind⟩ := ruleOfKind_eq_ok.mp hr
      exact ⟨r, k, access_eq_ok.mp hclean, hr, hkind, rfl, rfl⟩

theorem renameKeyframes_ok {id : RuleId} {name : String} {u : Unit}
    (h : s.run (renameKeyframes id name) = (.ok u, t)) :
    ∃ r, s.settings.originClean = true ∧ s.rule? id = some r ∧ r.kind = .keyframes ∧
      name.isEmpty = false ∧ t = s.setHead id r (.keyframes name) := by
  unfold renameKeyframes at h
  obtain ⟨_, hclean, h⟩ := look_eq_ok.mp h
  obtain ⟨r, hr, h⟩ := look_eq_ok.mp h
  obtain ⟨hn, h⟩ := check_eq_ok.mp h
  rw [run_change] at h
  cases h
  obtain ⟨hr, hk⟩ := ruleOfKind_eq_ok.mp hr
  exact ⟨r, access_eq_ok.mp hclean, hr, hk, hn, rfl⟩

/-! ## Contents -/

theorem setSelectors_ok {id : RuleId} {text : String} {u : Unit}
    (h : s.run (setSelectors id text) = (.ok u, t)) :
    ∃ r head, s.settings.originClean = true ∧ s.rule? id = some r ∧
      s.selectorsOf r text = .ok head ∧ t = head.elim s (s.setHead id r) := by
  unfold setSelectors at h
  obtain ⟨_, hclean, h⟩ := look_eq_ok.mp h
  obtain ⟨r, hr, h⟩ := look_eq_ok.mp h
  obtain ⟨head, hhead, h⟩ := look_eq_ok.mp h
  refine ⟨r, head, access_eq_ok.mp hclean, anyRule_eq_ok.mp hr, hhead, ?_⟩
  cases head with
  | none =>
      rw [run_pure] at h
      cases h
      rfl
  | some head =>
      rw [run_change] at h
      cases h
      rfl

theorem renameCounterStyle_ok {id : RuleId} {name : String} {u : Unit}
    (h : s.run (renameCounterStyle id name) = (.ok u, t)) :
    ∃ r n, s.settings.originClean = true ∧ s.rule? id = some r ∧ r.kind = .counterStyle ∧
      counterStyleName name = .ok n ∧ t = s.setHead id r (.counterStyle n) := by
  unfold renameCounterStyle at h
  obtain ⟨_, hclean, h⟩ := look_eq_ok.mp h
  obtain ⟨r, hr, h⟩ := look_eq_ok.mp h
  obtain ⟨n, hn, h⟩ := look_eq_ok.mp h
  rw [run_change] at h
  cases h
  obtain ⟨hr, hk⟩ := ruleOfKind_eq_ok.mp hr
  exact ⟨r, n, access_eq_ok.mp hclean, hr, hk, hn, rfl⟩

theorem blockOf_eq_ok {id : RuleId} {r : Rule} {b : DeclarationBlock} :
    s.blockOf id = .ok (r, b) ↔ s.rule? id = some r ∧ r.declarations = some b := by
  unfold blockOf
  cases s.rule? id with
  | none => simp
  | some r' =>
      simp only [Option.some.injEq]
      split
      · next b' hd =>
          rw [Except.ok.injEq, Prod.mk.injEq]
          constructor
          · rintro ⟨rfl, rfl⟩
            exact ⟨rfl, hd⟩
          · rintro ⟨rfl, hb⟩
            rw [hd, Option.some.injEq] at hb
            exact ⟨rfl, hb⟩
      · next hd =>
          refine ⟨fun h => (by cases h), ?_⟩
          rintro ⟨rfl, hb⟩
          rw [hd] at hb
          cases hb

theorem removeProperty_ok {id : RuleId} {name : String} {v : Option String}
    (h : s.run (removeProperty id name) = (.ok v, t)) :
    ∃ r b, s.settings.originClean = true ∧ s.rule? id = some r ∧ r.declarations = some b ∧
      v = b.value? name ∧ t = s.setBlock id r (b.erase name) := by
  unfold removeProperty at h
  obtain ⟨_, hclean, h⟩ := look_eq_ok.mp h
  obtain ⟨⟨r, b⟩, hb, h⟩ := look_eq_ok.mp h
  simp only [run_change_bind] at h
  rw [run_pure] at h
  cases h
  obtain ⟨hr, hb⟩ := blockOf_eq_ok.mp hb
  exact ⟨r, b, access_eq_ok.mp hclean, hr, hb, rfl, rfl⟩

theorem setProperty_ok {id : RuleId} {name value : String} {important : Bool} {u : Unit}
    (h : s.run (setProperty id name value important) = (.ok u, t)) :
    ∃ r b, s.settings.originClean = true ∧ s.rule? id = some r ∧ r.declarations = some b ∧
      ((ComponentValue.ofText value).all ComponentValue.isBlank = true ∧
          t = s.setBlock id r (b.erase name) ∨
        ∃ n v, s.settings.options.grammar.read b.context name value important = .ok (n, v) ∧
          t = s.setBlock id r (b.insert n v)) := by
  unfold setProperty at h
  obtain ⟨_, hclean, h⟩ := look_eq_ok.mp h
  by_cases hv : (ComponentValue.ofText value).all ComponentValue.isBlank = true
  · rw [if_pos hv, run_bind] at h
    rcases hrm : s.run (removeProperty id name) with ⟨_ | v, w⟩
    · rw [hrm] at h
      cases h
    · rw [hrm] at h
      cases h
      obtain ⟨r, b, hclean, hr, hb, -, ht⟩ := removeProperty_ok hrm
      exact ⟨r, b, hclean, hr, hb, Or.inl ⟨hv, ht⟩⟩
  · rw [if_neg hv] at h
    obtain ⟨⟨r, b⟩, hb, h⟩ := look_eq_ok.mp h
    obtain ⟨⟨n, v⟩, hread, h⟩ := look_eq_ok.mp h
    simp only [run_change] at h
    cases h
    obtain ⟨hr, hb⟩ := blockOf_eq_ok.mp hb
    exact ⟨r, b, access_eq_ok.mp hclean, hr, hb, Or.inr ⟨n, v, hread, rfl⟩⟩

theorem setFeature_ok {id : RuleId} {f : FeatureType} {name : String} {values : List Nat} {u : Unit}
    (h : s.run (setFeature id f name values) = (.ok u, t)) :
    ∃ r, s.settings.originClean = true ∧ s.rule? id = some r ∧ r.kind = .fontFeatureValues ∧
      ((∃ b m m', s.featuresUnder? id f = some (b, m) ∧ m.set name values = .ok m' ∧
          t = s.setFeatures b m') ∨
        ∃ m', s.featuresUnder? id f = none ∧ (FeatureValues.empty f).set name values = .ok m' ∧
          t = s.addFeatures id m') := by
  unfold setFeature at h
  obtain ⟨_, hclean, h⟩ := look_eq_ok.mp h
  obtain ⟨r, hr, h⟩ := look_eq_ok.mp h
  obtain ⟨o, ho, h⟩ := look_eq_ok.mp h
  cases ho
  obtain ⟨hr, hk⟩ := ruleOfKind_eq_ok.mp hr
  refine ⟨r, access_eq_ok.mp hclean, hr, hk, ?_⟩
  cases hf : s.featuresUnder? id f with
  | none =>
      simp only [hf] at h
      obtain ⟨m', hm', h⟩ := look_eq_ok.mp h
      rw [run_change] at h
      cases h
      exact Or.inr ⟨m', rfl, hm', rfl⟩
  | some p =>
      obtain ⟨b, m⟩ := p
      simp only [hf] at h
      obtain ⟨m', hm', h⟩ := look_eq_ok.mp h
      rw [run_change] at h
      cases h
      exact Or.inl ⟨b, m, m', rfl, hm', rfl⟩

theorem removeFeature_ok {id : RuleId} {f : FeatureType} {name : String} {found : Bool}
    (h : s.run (removeFeature id f name) = (.ok found, t)) :
    ∃ r, s.settings.originClean = true ∧ s.rule? id = some r ∧ r.kind = .fontFeatureValues ∧
      ((∃ b m, s.featuresUnder? id f = some (b, m) ∧ found = (m.get? name).isSome ∧
          t = s.setFeatures b (m.erase name)) ∨
        s.featuresUnder? id f = none ∧ found = false ∧ t = s) := by
  unfold removeFeature at h
  obtain ⟨_, hclean, h⟩ := look_eq_ok.mp h
  obtain ⟨r, hr, h⟩ := look_eq_ok.mp h
  obtain ⟨o, ho, h⟩ := look_eq_ok.mp h
  cases ho
  obtain ⟨hr, hk⟩ := ruleOfKind_eq_ok.mp hr
  refine ⟨r, access_eq_ok.mp hclean, hr, hk, ?_⟩
  cases hf : s.featuresUnder? id f with
  | none =>
      simp only [hf, run_pure] at h
      cases h
      exact Or.inr ⟨rfl, rfl, rfl⟩
  | some p =>
      obtain ⟨b, m⟩ := p
      simp only [hf, run_change_bind, run_pure] at h
      cases h
      exact Or.inl ⟨b, m, rfl, rfl, rfl⟩

/-! ## Replacement -/

theorem run_lock (s : Sheet) :
    s.run lock =
      if s.settings.constructed = true ∧ s.pending = false then (.ok (), { s with pending := true })
      else (.error .locked, s) := by
  unfold lock replaceable unlocked
  rw [run_look_bind]
  cases hc : s.settings.constructed <;> cases hp : s.pending <;> simp [run_change]

theorem request_eq (s : Sheet) (text : String) :
    Replacement.request s text =
      if s.settings.constructed = true ∧ s.pending = false then
        (.scheduled text, { s with pending := true })
      else (.refused .locked, s) := by
  unfold Replacement.request
  rw [run_lock]
  split
  · next h =>
      split at h
      · next hc =>
          cases h
          rw [if_pos hc]
      · cases h
  · next h =>
      split at h
      · cases h
      · next hc =>
          cases h
          rw [if_neg hc]

theorem replace_ok {text : String} {u : Unit} (h : s.run (replace text) = (.ok u, t)) :
    s.settings.constructed = true ∧ s.pending = false ∧ t = s.commit text := by
  unfold replace at h
  rw [run_bind, run_lock] at h
  split at h
  · next hs =>
      split at hs
      · next hc =>
          cases hs
          rw [run_change] at h
          cases h
          exact ⟨hc.1, hc.2, rfl⟩
      · cases hs
  · cases h

end StyleTree.Sheet
