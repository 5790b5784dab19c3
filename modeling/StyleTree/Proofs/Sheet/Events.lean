/-
# `Proofs.Sheet.Events` — all that an event can do

`Turn σ e τ` lists what an event `e` can make of a shared sheet `σ`, as
`Sheet.Change` does for the edits: one constructor for each way in which
the sheet or its requests are written.  A poll or a drop matters to the
sheet only if its request waits, that is, if it was accepted and has not
made its replacement.  Runs are taken apart at their last event.
-/
import Mathlib.Data.List.Induction
import StyleTree.Proofs.Sheet.Changes

namespace StyleTree.SharedSheet

variable {σ τ : SharedSheet} {e : Event} {i j : Nat} {r : Replacement}

/-- The request has still to make its replacement. -/
def Waiting (σ : SharedSheet) (i : Nat) : Prop :=
  ∃ text, σ.request? i = some (.scheduled text) ∨ σ.request? i = some (.yielded text)

/-- A replacement may be requested. -/
def Accepts (σ : SharedSheet) : Prop :=
  σ.sheet.settings.constructed = true ∧ σ.sheet.pending = false

/-! ## Requests by number -/

theorem request?_ofSheet (s : Sheet) (i : Nat) : (ofSheet s).request? i = none := rfl

theorem request?_append (σ : SharedSheet) (s : Sheet) (r : Replacement) (i : Nat) :
    (SharedSheet.mk s (σ.requests ++ [some r])).request? i =
      if i = σ.requests.length then some r else σ.request? i := by
  unfold request?
  rcases Nat.lt_trichotomy i σ.requests.length with h | h | h
  · rw [if_neg (Nat.ne_of_lt h), List.getElem?_append_left h]
  · rw [if_pos h, h, List.getElem?_append_right (Nat.le_refl _), Nat.sub_self]
    rfl
  · rw [if_neg (Nat.ne_of_gt h), List.getElem?_eq_none (Nat.le_of_lt h), List.getElem?_eq_none]
    rw [List.length_append]
    exact h

theorem lt_of_request? (h : σ.request? i = some r) : i < σ.requests.length := by
  rw [request?, Option.join_eq_some_iff] at h
  exact (List.getElem?_eq_some_iff.mp h).1

theorem request?_set (h : σ.request? i = some r) (s : Sheet) (q : Option Replacement) (j : Nat) :
    (SharedSheet.mk s (σ.requests.set i q)).request? j = if j = i then q else σ.request? j := by
  unfold request?
  by_cases hj : j = i
  · rw [if_pos hj, hj, List.getElem?_set_self (lt_of_request? h)]
    rfl
  · rw [if_neg hj, List.getElem?_set_ne (Ne.symm hj)]

theorem set_request? (h : σ.request? i = some r) : σ.requests.set i (some r) = σ.requests := by
  rw [request?, Option.join_eq_some_iff] at h
  obtain ⟨hi, hr⟩ := List.getElem?_eq_some_iff.mp h
  rw [← hr]
  exact List.set_getElem_self hi

/-! ## What an event does -/

/-- All that an event can make of a shared sheet. -/
inductive Turn (σ : SharedSheet) : Event → SharedSheet → Prop
  | edited {e : Edit} : Turn σ (.edit e) ⟨(σ.sheet.run (Sheet.perform e)).2, σ.requests⟩
  | switched {d : Bool} : Turn σ (.setDisabled d) ⟨σ.sheet.setDisabled d, σ.requests⟩
  | accepted {text : String} : σ.Accepts →
      Turn σ (.request text)
        ⟨{ σ.sheet with pending := true }, σ.requests ++ [some (.scheduled text)]⟩
  | refused {text : String} : ¬ σ.Accepts →
      Turn σ (.request text) ⟨σ.sheet, σ.requests ++ [some (.refused .locked)]⟩
  | yields {i : Nat} {text : String} : σ.request? i = some (.scheduled text) →
      Turn σ (.poll i) ⟨σ.sheet, σ.requests.set i (some (.yielded text))⟩
  | commits {i : Nat} {text : String} : σ.request? i = some (.yielded text) →
      Turn σ (.poll i) ⟨σ.sheet.commit text, σ.requests.set i (some .committed)⟩
  | settled {i : Nat} : ¬ σ.Waiting i → Turn σ (.poll i) σ
  | dropped {i : Nat} {text : String} :
      σ.request? i = some (.scheduled text) ∨ σ.request? i = some (.yielded text) →
      Turn σ (.drop i) ⟨σ.sheet.commit text, σ.requests.set i none⟩
  | released {i : Nat} {r : Replacement} : ¬ σ.Waiting i → σ.request? i = some r →
      Turn σ (.drop i) ⟨σ.sheet, σ.requests.set i none⟩
  | absent {i : Nat} : σ.request? i = none → Turn σ (.drop i) σ

theorem not_waiting_of_eq {q : Option Replacement} (h : σ.request? i = q)
    (hs : ∀ text, q ≠ some (.scheduled text)) (hy : ∀ text, q ≠ some (.yielded text)) :
    ¬ σ.Waiting i := by
  rintro ⟨text, hw | hw⟩
  · exact hs text (h.symm.trans hw)
  · exact hy text (h.symm.trans hw)

theorem request_of_accepts (h : σ.Accepts) (text : String) :
    Replacement.request σ.sheet text = (.scheduled text, { σ.sheet with pending := true }) := by
  have hc : σ.sheet.settings.constructed = true ∧ σ.sheet.pending = false := h
  rw [Sheet.request_eq, if_pos hc]

theorem request_of_not_accepts (h : ¬ σ.Accepts) (text : String) :
    Replacement.request σ.sheet text = (.refused .locked, σ.sheet) := by
  have hc : ¬ (σ.sheet.settings.constructed = true ∧ σ.sheet.pending = false) := h
  rw [Sheet.request_eq, if_neg hc]

theorem turn_request (σ : SharedSheet) (text : String) : σ.Turn (.request text) (σ.request text) := by
  unfold request
  by_cases h : σ.Accepts
  · rw [request_of_accepts h]
    exact .accepted h
  · rw [request_of_not_accepts h]
    exact .refused h

theorem turn_poll (σ : SharedSheet) (i : Nat) : σ.Turn (.poll i) (σ.poll i).2 := by
  unfold poll
  cases hr : σ.request? i with
  | none => exact .settled (not_waiting_of_eq hr (by simp) (by simp))
  | some r =>
      cases r with
      | refused f =>
          have hw : ¬ σ.Waiting i := not_waiting_of_eq hr (by simp) (by simp)
          simpa only [Replacement.poll, set_request? hr] using Turn.settled hw
      | scheduled text => exact .yields hr
      | yielded text => exact .commits hr
      | committed =>
          have hw : ¬ σ.Waiting i := not_waiting_of_eq hr (by simp) (by simp)
          simpa only [Replacement.poll, set_request? hr] using Turn.settled hw

theorem turn_drop (σ : SharedSheet) (i : Nat) : σ.Turn (.drop i) (σ.drop i) := by
  unfold drop
  cases hr : σ.request? i with
  | none => exact .absent hr
  | some r =>
      cases r with
      | refused f => exact .released (not_waiting_of_eq hr (by simp) (by simp)) hr
      | scheduled text => exact .dropped (Or.inl hr)
      | yielded text => exact .dropped (Or.inr hr)
      | committed => exact .released (not_waiting_of_eq hr (by simp) (by simp)) hr

theorem turn_step (σ : SharedSheet) (e : Event) : σ.Turn e (σ.step e) := by
  cases e with
  | edit e => exact .edited
  | setDisabled d => exact .switched
  | request text => exact turn_request σ text
  | poll i => exact turn_poll σ i
  | drop i => exact turn_drop σ i

theorem steps_concat (σ : SharedSheet) (es : List Event) (e : Event) :
    σ.steps (es ++ [e]) = (σ.steps es).step e := by
  rw [steps, List.foldl_append]
  rfl

theorem constructed_step (σ : SharedSheet) (e : Event) :
    (σ.step e).sheet.settings.constructed = σ.sheet.settings.constructed := by
  have h := turn_step σ e
  generalize σ.step e = τ at h
  cases h with
  | @edited e => exact congrArg HostSettings.constructed (Sheet.perform_settings σ.sheet e)
  | _ => rfl

theorem constructed_steps (σ : SharedSheet) (es : List Event) :
    (σ.steps es).sheet.settings.constructed = σ.sheet.settings.constructed := by
  induction es using List.reverseRecOn with
  | nil => rfl
  | append_singleton es e ih =>
      rw [steps_concat, constructed_step]
      exact ih

end StyleTree.SharedSheet
