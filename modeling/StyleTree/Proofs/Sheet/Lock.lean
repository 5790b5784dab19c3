/-
# `Proofs.Sheet.Lock` — what the lock of a replacement keeps out

While a replacement is under way the sheet is locked.  Inserting, deleting
and replacing test the lock and fail.  Three edits put rules in or take
rules out without a look at it (`IgnoresLock`): a keyframe is appended, a
keyframe is deleted, and feature values are set where their kind has no
block yet.  `held_iff` says that these, where they succeed, are all that
the lock lets through, and `lock_holds_iff` says the same of whole runs:
from the moment a request has taken the lock until a replacement is made,
the shape of the sheet stays what it was exactly if none of the three
finds something to do in between.
-/
import StyleTree.Proofs.Sheet.Links

namespace StyleTree

namespace Sheet

open StyleTree.Sheet.Action (look write check change)

variable {α β : Type} {s t u : Sheet}

/-! ## Shape -/

/-- The same rules in the same lists, and the same namespaces. -/
structure SameShape (s t : Sheet) : Prop where
  ids : t.arena.ids = s.arena.ids
  children : ∀ id, t.arena.children id = s.arena.children id
  rules : t.rules = s.rules
  namespaces : t.namespaces = s.namespaces

theorem SameShape.refl (s : Sheet) : SameShape s s := ⟨rfl, fun _ => rfl, rfl, rfl⟩

theorem SameShape.symm (h : SameShape s t) : SameShape t s :=
  ⟨h.ids.symm, fun id => (h.children id).symm, h.rules.symm, h.namespaces.symm⟩

theorem SameShape.trans (h₁ : SameShape s t) (h₂ : SameShape t u) : SameShape s u :=
  ⟨h₂.ids.trans h₁.ids, fun id => (h₂.children id).trans (h₁.children id), h₂.rules.trans h₁.rules,
    h₂.namespaces.trans h₁.namespaces⟩

theorem sameShape_modify (s : Sheet) (id : RuleId) (f : Rule → Rule) :
    SameShape s { s with arena := s.arena.modify id fun n => { n with value := f n.value } } := by
  refine ⟨Arena.ids_modify s.arena id _, fun x => ?_, rfl, rfl⟩
  simp only [Arena.children]
  rw [Arena.get?_modify]
  split
  · rw [Option.map_map]
    rfl
  · rfl

/-! ## Edits and the lock -/

/-- Edits that put rules in or take rules out. -/
def EditsRules (s : Sheet) : Edit → Prop
  | .insert .. | .delete .. | .appendKeyframe .. | .deleteKeyframe .. | .replace _ => True
  | .setFeature id f _ _ => s.featuresUnder? id f = none
  | _ => False

/-- Those of them that do not test the lock. -/
def IgnoresLock (s : Sheet) : Edit → Prop
  | .appendKeyframe .. | .deleteKeyframe .. => True
  | .setFeature id f _ _ => s.featuresUnder? id f = none
  | _ => False

/-- The sheet with the lock released. -/
def release (s : Sheet) : Sheet := { s with pending := false }

/-- The lock keeps the edit out: the shape stays, and if the edit could be made without the lock, then
the lock is why it fails. -/
structure Held (s : Sheet) (e : Edit) : Prop where
  sameShape : SameShape s (s.run (perform e)).2
  locked : s.EditsRules e → (∃ o, (s.release.run (perform e)).1 = .ok o) →
    (s.run (perform e)).1 = .error .locked

/-- The edit is one that ignores the lock, and succeeds. -/
def Passes (s : Sheet) (e : Edit) : Prop := s.IgnoresLock e ∧ ∃ o, (s.run (perform e)).1 = .ok o

/-- The edit is one that ignores the lock, and finds something to do. -/
def Intrudes (s : Sheet) (e : Edit) : Prop :=
  s.IgnoresLock e ∧ ∃ o, (s.run (perform e)).1 = .ok o ∧ o ≠ .detached none

theorem Intrudes.passes {e : Edit} (h : s.Intrudes e) : s.Passes e := by
  obtain ⟨hi, o, ho, -⟩ := h
  exact ⟨hi, o, ho⟩

/-! ## What succeeds although the sheet is locked -/

/-- Of an edit that succeeds on a locked sheet. -/
theorem locked_ok (hp : s.pending = true) {e : Edit} {o : Outcome}
    (h : s.run (perform e) = (.ok o, t)) :
    SameShape s t ∨ s.IgnoresLock e ∧ o ≠ .detached none := by
  have hchange := change_of_ok h
  cases e with
  | insert l text i =>
      obtain ⟨n, h, -⟩ := map_eq_ok.mp h
      obtain ⟨-, -, -, -, -, hfree, -⟩ := insert_ok h
      rw [hp] at hfree
      cases hfree
  | delete l i =>
      obtain ⟨d, h, -⟩ := map_eq_ok.mp h
      obtain ⟨-, -, -, -, hfree, -⟩ := delete_ok h
      rw [hp] at hfree
      cases hfree
  | appendKeyframe id text =>
      obtain ⟨new, -, rfl⟩ := map_eq_ok.mp h
      exact Or.inr ⟨trivial, fun ho => by cases ho⟩
  | deleteKeyframe id key =>
      obtain ⟨d, hd, rfl⟩ := map_eq_ok.mp h
      cases d with
      | none =>
          rw [deleteKeyframe_none hd]
          exact Or.inl (SameShape.refl s)
      | some d => exact Or.inr ⟨trivial, fun ho => by cases ho⟩
  | setFeature id f name values =>
      obtain ⟨v, -, rfl⟩ := map_eq_ok.mp h
      cases hchange with
      | ignored _ => exact Or.inl (SameShape.refl s)
      | revised _ _ => exact Or.inl (sameShape_modify s _ _)
      | founded _ _ hnone _ => exact Or.inr ⟨hnone, fun ho => by cases ho⟩
  | replace text =>
      obtain ⟨v, h, -⟩ := map_eq_ok.mp h
      obtain ⟨-, hfree, -⟩ := replace_ok h
      rw [hp] at hfree
      cases hfree
  | _ =>
      cases hchange with
      | ignored _ => exact Or.inl (SameShape.refl s)
      | revised _ _ => exact Or.inl (sameShape_modify s _ _)

/-- What ignores the lock and finds something to do changes the ids in use. -/
theorem Intrudes.not_sameShape {e : Edit} (h : s.Intrudes e) (hf : s.IsForest) :
    ¬ SameShape s (s.run (perform e)).2 := by
  obtain ⟨hi, o, ho, hne⟩ := h
  have hrun : s.run (perform e) = (.ok o, (s.run (perform e)).2) := Prod.ext ho rfl
  generalize (s.run (perform e)).2 = t at hrun ⊢
  intro hs
  cases e with
  | appendKeyframe id text =>
      obtain ⟨new, h, -⟩ := map_eq_ok.mp hrun
      obtain ⟨r, st, head, -, -, -, -, -, -, rfl⟩ := appendKeyframe_ok h
      obtain ⟨ts, hts⟩ := hf
      obtain ⟨w, hw, -, hfw⟩ := hts.plant .keyframes head st
      have hin : w.root ∈ (s.plant .keyframes head st).2.arena.ids :=
        hfw.mem_ids.mpr (Tree.root_mem_idsOf List.mem_cons_self)
      refine hfw.disjoint w.root (Tree.root_mem_ids w) ?_
      rw [← hts.forest.mem_ids, ← hs.ids, append]
      simp only
      rw [Arena.ids_attach]
      exact hin
  | deleteKeyframe id key =>
      obtain ⟨d, h, rfl⟩ := map_eq_ok.mp hrun
      rcases (deleteKeyframe_ok h).2.2 with ⟨-, rfl, -⟩ | ⟨c, hc, -⟩
      · exact hne rfl
      · refine deleteKeyframe_gone h hf hc .refl ?_
        rw [hs.ids]
        exact (mem_ids_of_findKeyframe? hc).2
  | setFeature id f name values =>
      obtain ⟨v, h, -⟩ := map_eq_ok.mp hrun
      obtain ⟨r, -, -, -, ⟨b, m, m', hsome, -, -⟩ | ⟨m', -, -, rfl⟩⟩ := setFeature_ok h
      · rw [IgnoresLock, hsome] at hi
        cases hi
      · have hlen := congrArg List.length hs.ids
        simp only [addFeatures, Arena.attachInOrder] at hlen
        rw [Arena.ids_attach, Arena.ids_insert, List.length_cons] at hlen
        omega
  | _ => exact hi

theorem sameShape_iff (hf : s.IsForest) (hp : s.pending = true) (e : Edit) :
    SameShape s (s.run (perform e)).2 ↔ ¬ s.Intrudes e := by
  constructor
  · intro hs hi
    exact hi.not_sameShape hf hs
  · intro hi
    rcases perform_cases s e with ⟨f, h⟩ | ⟨o, t, h⟩
    · rw [h]
      exact SameShape.refl s
    · rcases locked_ok hp h with hs | ⟨hig, ho⟩
      · rw [h]
        exact hs
      · exact absurd ⟨hig, o, by rw [h], ho⟩ hi

/-! ## Edits that do not see the lock -/

/-- The action answers the same whether the sheet is locked or not. -/
def Blind (s : Sheet) (m : Action α) : Prop := (s.release.run m).1 = (s.run m).1

theorem blind_look_bind {f : Sheet → Except Fault α} {k : α → Action β} (hf : f s.release = f s)
    (hk : ∀ a, s.Blind (k a)) : s.Blind (look f >>= k) := by
  rw [Blind, run_look_bind, run_look_bind, hf]
  cases f s with
  | error e => rfl
  | ok a => exact hk a

theorem blind_map {m : Action α} {f : α → β} (h : s.Blind m) : s.Blind (f <$> m) := by
  rw [Blind] at h
  rw [Blind, run_map, run_map, h]

theorem IgnoresLock.blind {e : Edit} (h : s.IgnoresLock e) : s.Blind (perform e) := by
  cases e with
  | appendKeyframe id text =>
      refine blind_map ?_
      unfold appendKeyframe
      refine blind_look_bind rfl fun _ => blind_look_bind rfl fun _ => ?_
      exact blind_look_bind rfl fun st => blind_look_bind rfl fun head => rfl
  | deleteKeyframe id key =>
      refine blind_map ?_
      unfold deleteKeyframe
      refine blind_look_bind rfl fun _ => blind_look_bind rfl fun _ => blind_look_bind rfl fun c => ?_
      cases c with
      | none => rfl
      | some c => rfl
  | setFeature id f name values =>
      refine blind_map ?_
      unfold setFeature
      refine blind_look_bind rfl fun _ => blind_look_bind rfl fun _ => blind_look_bind rfl fun b => ?_
      cases b with
      | none => exact blind_look_bind rfl fun m => rfl
      | some b => exact blind_look_bind rfl fun m => rfl
  | _ => exact h.elim

/-- Whoever may edit the sheet finds it locked. -/
theorem insert_locked (hc : s.settings.originClean = true) (hp : s.pending = true) (l : RuleList)
    (text : String) (i : Nat) : s.run (insert l text i) = (.error .locked, s) := by
  unfold insert
  rw [run_look_bind, (access_eq_ok (u := ())).mpr hc, run_look_bind, unlocked, hp]
  rfl

theorem delete_locked (hc : s.settings.originClean = true) (hp : s.pending = true) (l : RuleList)
    (i : Nat) : s.run (delete l i) = (.error .locked, s) := by
  unfold delete
  rw [run_look_bind, (access_eq_ok (u := ())).mpr hc, run_look_bind, unlocked, hp]
  rfl

theorem lock_locked (hp : s.pending = true) : s.run lock = (.error .locked, s) := by
  rw [run_lock, if_neg]
  rw [hp]
  intro h
  cases h.2

theorem replace_locked (hp : s.pending = true) (text : String) :
    s.run (replace text) = (.error .locked, s) := by
  unfold replace
  rw [run_bind, lock_locked hp]

/-- On a locked sheet exactly those edits are not kept out that ignore the lock and succeed. -/
theorem held_iff (hf : s.IsForest) (hp : s.pending = true) (e : Edit) :
    s.Held e ↔ ¬ s.Passes e := by
  constructor
  · rintro ⟨-, hlocked⟩ ⟨hi, o, ho⟩
    have hedits : s.EditsRules e := by
      cases e <;> first | exact hi | exact trivial
    have := hlocked hedits ⟨o, hi.blind.trans ho⟩
    rw [ho] at this
    cases this
  · intro hpass
    refine ⟨(sameShape_iff hf hp e).mpr fun h => hpass h.passes, ?_⟩
    rintro he ⟨o, ho⟩
    have hblind : s.IgnoresLock e → False := fun hi => hpass ⟨hi, o, hi.blind.symm.trans ho⟩
    have hrun : s.release.run (perform e) = (.ok o, (s.release.run (perform e)).2) := Prod.ext ho rfl
    cases e with
    | insert l text i =>
        obtain ⟨n, h, -⟩ := map_eq_ok.mp hrun
        obtain ⟨-, -, -, -, hc, -⟩ := insert_ok h
        rw [perform, run_map, insert_locked (s := s) hc hp]
        rfl
    | delete l i =>
        obtain ⟨d, h, -⟩ := map_eq_ok.mp hrun
        obtain ⟨-, -, -, hc, -⟩ := delete_ok h
        rw [perform, run_map, delete_locked (s := s) hc hp]
        rfl
    | replace text =>
        rw [perform, run_map, replace_locked hp]
        rfl
    | appendKeyframe id text => exact (hblind trivial).elim
    | deleteKeyframe id key => exact (hblind trivial).elim
    | setFeature id f name values => exact (hblind he).elim
    | _ => exact he.elim

end Sheet

namespace SharedSheet

open Sheet (SameShape)

variable {σ : SharedSheet}

/-! ## Runs while the lock is held -/

/-- The shared sheet behind the first `n` events of a run. -/
def after (σ : SharedSheet) (es : List Event) (n : Nat) : SharedSheet := σ.steps (es.take n)

theorem after_succ {es : List Event} {n : Nat} {e : Event} (he : es[n]? = some e) :
    σ.after es (n + 1) = (σ.after es n).step e := by
  rw [after, after, List.take_add_one, he, steps, List.foldl_append]
  rfl

theorem after_of_none {es : List Event} {n : Nat} (he : es[n]? = none) :
    σ.after es (n + 1) = σ.after es n := by
  rw [after, after, List.take_add_one, he]
  simp

theorem isForest_after (h : σ.sheet.IsForest) (es : List Event) (n : Nat) :
    (σ.after es n).sheet.IsForest :=
  (keeps_steps (es.take n) σ).isForest h

theorem request_locked (hp : σ.sheet.pending = true) (text : String) :
    Replacement.request σ.sheet text = (.refused .locked, σ.sheet) := by
  refine request_of_not_accepts ?_ text
  rintro ⟨-, hfree⟩
  rw [hp] at hfree
  cases hfree

/-- Behind an event that makes no replacement the sheet is still locked, and has kept its shape
unless an edit intruded. -/
theorem locked_step (hp : σ.sheet.pending = true) (hf : σ.sheet.IsForest) {e : Event}
    (hc : ¬ σ.Commits e) :
    (σ.step e).sheet.pending = true ∧
      (SameShape σ.sheet (σ.step e).sheet ↔ ∀ ed, e = .edit ed → ¬ σ.sheet.Intrudes ed) := by
  have hquiet : ∀ t : Sheet, (∀ ed, e ≠ .edit ed) → SameShape σ.sheet t →
      (SameShape σ.sheet t ↔ ∀ ed, e = .edit ed → ¬ σ.sheet.Intrudes ed) :=
    fun t hne hs => ⟨fun _ ed hed => absurd hed (hne ed), fun _ => hs⟩
  have h := turn_step σ e
  generalize σ.step e = τ at h ⊢
  cases h with
  | @edited ed =>
      refine ⟨(Sheet.perform_pending σ.sheet ed).trans hp, ?_⟩
      simp only [Event.edit.injEq, forall_eq']
      exact Sheet.sameShape_iff hf hp ed
  | switched =>
      exact ⟨hp, hquiet _ (fun ed hed => by cases hed) ⟨rfl, fun _ => rfl, rfl, rfl⟩⟩
  | accepted ha =>
      rw [ha.2] at hp
      cases hp
  | commits hr => exact absurd (.poll hr) hc
  | dropped hr => exact absurd (.drop hr) hc
  | _ => exact ⟨hp, hquiet _ (fun ed hed => by cases hed) (SameShape.refl σ.sheet)⟩

/-- No event of the run makes a replacement. -/
def Uncommitted (σ : SharedSheet) (es : List Event) : Prop :=
  ∀ n e, es[n]? = some e → ¬ (σ.after es n).Commits e

theorem pending_after (hp : σ.sheet.pending = true) (hf : σ.sheet.IsForest) {es : List Event}
    (hc : σ.Uncommitted es) (n : Nat) : (σ.after es n).sheet.pending = true := by
  induction n with
  | zero => exact hp
  | succ n ih =>
      cases he : es[n]? with
      | none =>
          rw [after_of_none he]
          exact ih
      | some e =>
          rw [after_succ he]
          exact (locked_step ih (isForest_after hf es n) (hc n e he)).1

theorem sameShape_after_iff (hp : σ.sheet.pending = true) (hf : σ.sheet.IsForest) {es : List Event}
    (hc : σ.Uncommitted es) :
    (∀ n, SameShape σ.sheet (σ.after es n).sheet) ↔
      ∀ n e, es[n]? = some (.edit e) → ¬ (σ.after es n).sheet.Intrudes e := by
  have hstep : ∀ n e, es[n]? = some e → (SameShape (σ.after es n).sheet (σ.after es (n + 1)).sheet ↔
      ∀ ed, e = .edit ed → ¬ (σ.after es n).sheet.Intrudes ed) := by
    intro n e he
    rw [after_succ he]
    exact (locked_step (pending_after hp hf hc n) (isForest_after hf es n) (hc n e he)).2
  constructor
  · intro hs n e he
    have hone := (hs n).symm.trans (hs (n + 1))
    exact (hstep n _ he).mp hone e rfl
  · intro hi n
    induction n with
    | zero => exact SameShape.refl σ.sheet
    | succ n ih =>
        cases he : es[n]? with
        | none =>
            rw [after_of_none he]
            exact ih
        | some e => exact ih.trans ((hstep n e he).mpr fun ed hed => hi n ed (hed ▸ he))

/-- From a locked sheet on, until a replacement is made, the sheet stays locked, and every further
request is refused.  The shape of the sheet stays what it was exactly if no edit intrudes, and an edit
is held exactly if it is none of those that ignore the lock and succeed. -/
theorem lock_holds_iff (h : σ.Reachable) (hp : σ.sheet.pending = true) {es : List Event}
    (hc : σ.Uncommitted es) :
    (∀ n, (σ.after es n).sheet.pending = true) ∧
      (∀ n text, (Replacement.request (σ.after es n).sheet text).1 = .refused .locked) ∧
      ((∀ n, SameShape σ.sheet (σ.after es n).sheet) ↔
        ∀ n e, es[n]? = some (.edit e) → ¬ (σ.after es n).sheet.Intrudes e) ∧
      ∀ n e, (σ.after es n).sheet.Held e ↔ ¬ (σ.after es n).sheet.Passes e := by
  have hf := isForest_of_reachable h
  have hpending := pending_after hp hf hc
  refine ⟨hpending, fun n text => ?_, sameShape_after_iff hp hf hc, fun n e => ?_⟩
  · rw [request_locked (hpending n)]
  · exact Sheet.held_iff (isForest_after hf es n) (hpending n) e

/-- A script's sheet with keyframes, of which a replacement was requested. -/
def lockedKeyframes : SharedSheet :=
  (ofSheet (Sheet.read .scripted "@keyframes a{}")).request "b{}"

theorem lockedKeyframes_reachable : lockedKeyframes.Reachable :=
  ⟨ofSheet (Sheet.read .scripted "@keyframes a{}"), [.request "b{}"], .read _ _, rfl⟩

theorem lockedKeyframes_pending : lockedKeyframes.sheet.pending = true := by decide +kernel

theorem lock_holds_iff_keyframes :
    let es : List Event := [.setDisabled true, .edit (.insert .top "c{}" 0)]
    (lockedKeyframes.after es 2).sheet.pending = true ∧
      ((lockedKeyframes.after es 1).sheet.Held (.insert .top "c{}" 0) ↔
        ¬ (lockedKeyframes.after es 1).sheet.Passes (.insert .top "c{}" 0)) := by
  intro es
  have hc : lockedKeyframes.Uncommitted es := by
    intro n e he hcommit
    rcases n with _ | _ | n
    · cases he
      cases hcommit
    · cases he
      cases hcommit
    · cases he
  have h := lock_holds_iff lockedKeyframes_reachable lockedKeyframes_pending hc
  exact ⟨h.1 2, h.2.2.2 1 (.insert .top "c{}" 0)⟩

/-- A keyframe is appended to them although the sheet is locked. -/
theorem lock_lets_keyframe_in :
    lockedKeyframes.Reachable ∧ lockedKeyframes.sheet.pending = true ∧
      ¬ lockedKeyframes.sheet.Held (.appendKeyframe ⟨1, 1⟩ "0%{}") := by
  refine ⟨lockedKeyframes_reachable, lockedKeyframes_pending, fun h => ?_⟩
  have hids : (lockedKeyframes.sheet.run (Sheet.perform (.appendKeyframe ⟨1, 1⟩ "0%{}"))).2.arena.ids ≠
      lockedKeyframes.sheet.arena.ids := by decide +kernel
  exact hids h.sameShape.ids

end SharedSheet

end StyleTree
