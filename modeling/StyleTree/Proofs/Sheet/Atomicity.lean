/-
# `Proofs.Sheet.Atomicity` — an edit that fails has written nothing

What an action wrote before it failed stays written, so a failure leaves
the sheet as it was only if no write comes before it.  `Atomic s m` says
this of an action on a sheet.  Reading steps in front of an atomic action
keep it atomic, and a step that writes is atomic by itself; so all that is
left is the one place where a check follows a write.  `delete` takes the
rule from its list first and then asks the arena for it, and there the
arena has it (`detach_isSome`).

The same holds of the three calls that do nothing without failing: the
text of selectors that cannot be read, a key that no keyframe has, and a
replacement that may not start.
-/
import StyleTree.Proofs.Sheet.Runs
import StyleTree.Proofs.Arena.Removal

namespace StyleTree

/-! ## The arena gives up what it has -/

theorem Arena.moveSubtree_isSome {α : Type} {a : Arena α} {id : RuleId} (h : id ∈ a.ids)
    (target : Arena α) : (a.moveSubtree id target).1.isSome := by
  have hsize : a.size ≠ 0 := by
    rw [size_eq]
    exact Nat.ne_of_gt (List.length_pos_of_mem h)
  obtain ⟨depth, hd⟩ := Nat.exists_eq_succ_of_ne_zero hsize
  rw [← ids_unlink a id] at h
  obtain ⟨n, hn⟩ := exists_get? h
  rw [moveSubtree, hd, transfer, hn]
  rfl

namespace Sheet

open StyleTree.Sheet.Action (look write check change)

variable {α β : Type} {s : Sheet}

theorem mem_ids_of_rule? {id : RuleId} {r : Rule} (h : s.rule? id = some r) : id ∈ s.arena.ids := by
  rw [rule?, Arena.value?, Option.map_eq_some_iff] at h
  obtain ⟨n, hn, -⟩ := h
  exact Arena.mem_ids_of_get? hn

theorem detach_isSome {id : RuleId} (h : id ∈ s.arena.ids) : (s.detach id).1.isSome := by
  rw [detach, Option.isSome_map]
  exact Arena.moveSubtree_isSome h .empty

/-! ## Atomic actions -/

/-- If the action fails, the sheet is what it was before. -/
def Atomic (s : Sheet) (m : Action α) : Prop := ∀ f, (s.run m).1 = .error f → (s.run m).2 = s

theorem atomic_pure (a : α) : s.Atomic (pure a) := fun _ _ => rfl

/-- An action that does not fail is atomic, whatever it writes. -/
theorem atomic_of_ok {m : Action α} {a : α} (h : (s.run m).1 = .ok a) : s.Atomic m := by
  intro f hf
  rw [h] at hf
  cases hf

theorem atomic_write (f : Sheet → α × Sheet) : s.Atomic (write f) := atomic_of_ok rfl

theorem atomic_change (f : Sheet → Sheet) : s.Atomic (change f) := atomic_of_ok rfl

theorem atomic_look_bind {f : Sheet → Except Fault α} {k : α → Action β}
    (h : ∀ a, f s = .ok a → s.Atomic (k a)) : s.Atomic (look f >>= k) := by
  rw [Atomic, run_look_bind]
  cases hf : f s with
  | error e =>
      intro _ _
      exact rfl
  | ok a => exact h a hf

theorem atomic_map {m : Action α} {f : α → β} (h : s.Atomic m) : s.Atomic (f <$> m) := by
  intro e he
  rw [run_map] at he ⊢
  cases hm : (s.run m).1 with
  | error e' => exact h e' hm
  | ok a => rw [hm] at he; cases he

/-- A write behind which nothing fails. -/
theorem atomic_write_bind {f : Sheet → α × Sheet} {k : α → Action β} {b : β}
    (h : ((f s).2.run (k (f s).1)).1 = .ok b) : s.Atomic (write f >>= k) := by
  refine atomic_of_ok (a := b) ?_
  rw [run_write_bind]
  exact h

/-! ## The edits -/

theorem atomic_insert (l : RuleList) (text : String) (i : Nat) : s.Atomic (insert l text i) := by
  unfold insert check
  refine atomic_look_bind fun _ _ => atomic_look_bind fun _ _ => ?_
  refine atomic_look_bind fun ⟨ids, context⟩ _ => ?_
  refine atomic_look_bind fun _ _ => atomic_look_bind fun t _ => ?_
  refine atomic_look_bind fun head _ => atomic_look_bind fun _ _ => ?_
  exact atomic_write_bind (by rw [run_write])

/-- The check behind the write passes: the rule was read before it left its list. -/
theorem atomic_delete (l : RuleList) (i : Nat) : s.Atomic (delete l i) := by
  unfold delete
  refine atomic_look_bind fun _ _ => atomic_look_bind fun _ _ => ?_
  refine atomic_look_bind fun ⟨id, k⟩ hdel => ?_
  obtain ⟨ids, context, r, -, -, hr, -⟩ := deletable_ok hdel
  have hid : id ∈ (s.unlist l i).arena.ids := by
    cases l <;> exact mem_ids_of_rule? hr
  obtain ⟨d, hd⟩ := Option.isSome_iff_exists.mp (detach_isSome hid)
  have htake : (s.unlist l i).run (takeOut id) = (.ok d, ((s.unlist l i).detach id).2) :=
    takeOut_eq_ok.mpr (Prod.ext hd rfl)
  refine atomic_of_ok (a := d) ?_
  rw [run_change_bind, run_bind, htake]
  simp only
  rw [run_change_bind, run_pure]

theorem atomic_appendKeyframe (id : RuleId) (text : String) : s.Atomic (appendKeyframe id text) := by
  unfold appendKeyframe
  refine atomic_look_bind fun _ _ => atomic_look_bind fun _ _ => ?_
  refine atomic_look_bind fun t _ => atomic_look_bind fun head _ => ?_
  exact atomic_write_bind (by rw [run_change_bind, run_pure])

theorem atomic_deleteKeyframe (id : RuleId) (key : String) : s.Atomic (deleteKeyframe id key) := by
  unfold deleteKeyframe
  refine atomic_look_bind fun _ _ => atomic_look_bind fun _ _ => atomic_look_bind fun c _ => ?_
  cases c with
  | none => exact atomic_pure none
  | some c => exact atomic_write _

theorem atomic_setKey (id : RuleId) (text : String) : s.Atomic (setKey id text) := by
  unfold setKey
  refine atomic_look_bind fun _ _ => atomic_look_bind fun r _ => atomic_look_bind fun k _ => ?_
  exact atomic_change _

theorem atomic_renameKeyframes (id : RuleId) (name : String) : s.Atomic (renameKeyframes id name) := by
  unfold renameKeyframes check
  refine atomic_look_bind fun _ _ => atomic_look_bind fun r _ => atomic_look_bind fun _ _ => ?_
  exact atomic_change _

theorem atomic_renameCounterStyle (id : RuleId) (name : String) :
    s.Atomic (renameCounterStyle id name) := by
  unfold renameCounterStyle
  refine atomic_look_bind fun _ _ => atomic_look_bind fun r _ => atomic_look_bind fun n _ => ?_
  exact atomic_change _

theorem atomic_setSelectors (id : RuleId) (text : String) : s.Atomic (setSelectors id text) := by
  unfold setSelectors
  refine atomic_look_bind fun _ _ => atomic_look_bind fun r _ => atomic_look_bind fun head _ => ?_
  cases head with
  | none => exact atomic_pure ()
  | some head => exact atomic_change _

theorem atomic_removeProperty (id : RuleId) (name : String) : s.Atomic (removeProperty id name) := by
  unfold removeProperty
  refine atomic_look_bind fun _ _ => atomic_look_bind fun ⟨r, b⟩ _ => ?_
  exact atomic_write_bind (by rw [run_pure])

theorem atomic_setProperty (id : RuleId) (name value : String) (important : Bool) :
    s.Atomic (setProperty id name value important) := by
  unfold setProperty
  refine atomic_look_bind fun _ _ => ?_
  split
  · rw [bind_pure_comp]
    exact atomic_map (atomic_removeProperty id name)
  · refine atomic_look_bind fun ⟨r, b⟩ _ => atomic_look_bind fun ⟨n, v⟩ _ => ?_
    exact atomic_change _

theorem atomic_setFeature (id : RuleId) (f : FeatureType) (name : String) (values : List Nat) :
    s.Atomic (setFeature id f name values) := by
  unfold setFeature
  refine atomic_look_bind fun _ _ => atomic_look_bind fun _ _ => atomic_look_bind fun b _ => ?_
  cases b with
  | none => exact atomic_look_bind fun m _ => atomic_change _
  | some b => exact atomic_look_bind fun m _ => atomic_change _

theorem atomic_removeFeature (id : RuleId) (f : FeatureType) (name : String) :
    s.Atomic (removeFeature id f name) := by
  unfold removeFeature
  refine atomic_look_bind fun _ _ => atomic_look_bind fun _ _ => atomic_look_bind fun b _ => ?_
  cases b with
  | none => exact atomic_pure false
  | some b => exact atomic_write_bind (by rw [run_pure])

/-- The lock is the only check of a replacement, so what follows it does not fail. -/
theorem atomic_replace (text : String) : s.Atomic (replace text) := by
  unfold replace
  by_cases h : s.settings.constructed = true ∧ s.pending = false
  · refine atomic_of_ok (a := ()) ?_
    rw [run_bind, run_lock, if_pos h]
    rfl
  · intro _ _
    rw [run_bind, run_lock, if_neg h]

theorem atomic_perform (e : Edit) : s.Atomic (perform e) := by
  cases e with
  | insert l text i => exact atomic_map (atomic_insert l text i)
  | delete l i => exact atomic_map (atomic_delete l i)
  | appendKeyframe r text => exact atomic_map (atomic_appendKeyframe r text)
  | deleteKeyframe r key => exact atomic_map (atomic_deleteKeyframe r key)
  | setKey r text => exact atomic_map (atomic_setKey r text)
  | renameKeyframes r name => exact atomic_map (atomic_renameKeyframes r name)
  | renameCounterStyle r name => exact atomic_map (atomic_renameCounterStyle r name)
  | setSelectors r text => exact atomic_map (atomic_setSelectors r text)
  | setProperty r name value i => exact atomic_map (atomic_setProperty r name value i)
  | removeProperty r name => exact atomic_map (atomic_removeProperty r name)
  | setFeature r f name values => exact atomic_map (atomic_setFeature r f name values)
  | removeFeature r f name => exact atomic_map (atomic_removeFeature r f name)
  | replace text => exact atomic_map (atomic_replace text)

/-- An edit fails and leaves the sheet as it was, or it succeeds. -/
theorem perform_cases (s : Sheet) (e : Edit) :
    (∃ f, s.run (perform e) = (.error f, s)) ∨ ∃ o t, s.run (perform e) = (.ok o, t) := by
  rcases h : s.run (perform e) with ⟨f | o, t⟩
  · have hs : t = s := by
      have := atomic_perform (s := s) e f
      rw [h] at this
      exact this rfl
    exact Or.inl ⟨f, by rw [hs]⟩
  · exact Or.inr ⟨o, t, rfl⟩

/-! ## Calls that do nothing -/

/-- A keyframe that was found is a rule of the sheet. -/
theorem mem_ids_of_findKeyframe? {id c : RuleId} {key : String} (h : s.findKeyframe? id key = some c) :
    c ∈ s.arena.children id ∧ c ∈ s.arena.ids := by
  unfold findKeyframe? at h
  split at h
  · have hm := List.mem_of_find?_eq_some h
    have hc := List.find?_some h
    refine ⟨List.mem_reverse.mp hm, ?_⟩
    unfold keyText? at hc
    split at hc
    · next hr => exact mem_ids_of_rule? hr
    · simp at hc
  · cases h

theorem deleteKeyframe_none {id : RuleId} {key : String} {t : Sheet}
    (h : s.run (deleteKeyframe id key) = (.ok none, t)) : t = s := by
  rcases (deleteKeyframe_ok h).2.2 with ⟨-, -, ht⟩ | ⟨c, hc, hd⟩
  · exact ht
  · have hsome := detach_isSome (mem_ids_of_findKeyframe? hc).2
    rw [hd] at hsome
    cases hsome

theorem setSelectors_ignored {id : RuleId} {text : String} {r : Rule} (hr : s.rule? id = some r)
    (hi : s.selectorsOf r text = .ok none) : (s.run (setSelectors id text)).2 = s := by
  rcases h : s.run (setSelectors id text) with ⟨f | u, t⟩
  · have := atomic_setSelectors (s := s) id text f
    rw [h] at this
    exact this rfl
  · obtain ⟨r', head, -, hr', hhead, ht⟩ := setSelectors_ok h
    rw [hr, Option.some.injEq] at hr'
    subst hr'
    rw [hi, Except.ok.injEq] at hhead
    subst hhead
    exact ht

theorem request_refused {text : String} {f : Fault}
    (h : (Replacement.request s text).1 = .refused f) : (Replacement.request s text).2 = s := by
  rw [request_eq] at h ⊢
  split
  · next hc =>
      rw [if_pos hc] at h
      cases h
  · rfl

/-- A call that fails, or does nothing because a text is invalid, a key is unknown or a replacement
may not start, leaves the whole sheet as it was. -/
theorem failure_changes_nothing (s : Sheet) :
    (∀ e f, (s.run (perform e)).1 = .error f → (s.run (perform e)).2 = s) ∧
      (∀ id r text, s.rule? id = some r → s.selectorsOf r text = .ok none →
        (s.run (perform (.setSelectors id text))).2 = s) ∧
      (∀ id key, (s.run (perform (.deleteKeyframe id key))).1 = .ok (.detached none) →
        (s.run (perform (.deleteKeyframe id key))).2 = s) ∧
      ∀ text f, (Replacement.request s text).1 = .refused f → (Replacement.request s text).2 = s := by
  refine ⟨fun e => atomic_perform e, fun id r text hr hi => ?_, fun id key h => ?_,
    fun text f => request_refused⟩
  · rw [perform, run_map]
    exact setSelectors_ignored hr hi
  · rw [perform, run_map] at h ⊢
    rcases hd : s.run (deleteKeyframe id key) with ⟨e | d, t⟩
    · rw [hd] at h
      cases h
    · rw [hd] at h
      cases h
      exact deleteKeyframe_none hd

end Sheet

end StyleTree
