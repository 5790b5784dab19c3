/-
# `Proofs.Sheet.Invariants` — what holds of the trees of every sheet

A property of settings, namespaces and trees is an `Invariant` if trees that
were just read have it and no edit breaks it.  It then holds of the trees of
a sheet after any run of events (`Invariant.of_reachable`): edits reshape
the trees, a replacement brings in those of its text, and no other event
touches them.
-/
import StyleTree.Proofs.Sheet.Events
import StyleTree.Proofs.Sheet.Forest

namespace StyleTree

open StyleTree.Tree (bareAll)

namespace Sheet

variable {P : HostSettings → Namespaces → List (Tree (RuleId × Rule)) → Prop}
variable {s : Sheet}

/-- No event breaks the property, and trees that were just read have it. -/
structure Invariant (P : HostSettings → Namespaces → List (Tree (RuleId × Rule)) → Prop) : Prop where
  empty : ∀ c, P c .empty []
  ofText : ∀ {c text us},
    bareAll us = (Draft.ofText c.options (!c.constructed) text).1.map Draft.tree →
      P c (Draft.ofText c.options (!c.constructed) text).2 us
  switched : ∀ {c ns ts} disabled, P c ns ts → P { c with disabled } ns ts
  reshape : ∀ {s : Sheet} {ts us e ns}, s.Planted ts → P s.settings s.namespaces ts →
    Reshape s ts e ns us → P s.settings ns us

/-- The nodes of the sheet are those of some trees of which the property holds. -/
def Satisfies (P : HostSettings → Namespaces → List (Tree (RuleId × Rule)) → Prop) (s : Sheet) : Prop :=
  ∃ ts, s.Planted ts ∧ P s.settings s.namespaces ts

namespace Invariant

theorem satisfies_empty (h : Invariant P) (c : HostSettings) : (Sheet.empty c).Satisfies P :=
  ⟨[], ⟨Arena.forest_empty, rfl⟩, h.empty c⟩

theorem satisfies_read (h : Invariant P) (c : HostSettings) (text : String) :
    (Sheet.read c text).Satisfies P := by
  obtain ⟨us, hus, hbare⟩ := planted_read c text
  exact ⟨us, hus, h.ofText hbare⟩

theorem satisfies_commit (h : Invariant P) (hs : s.IsForest) (text : String) :
    (s.commit text).Satisfies P := by
  obtain ⟨ts, hts⟩ := hs
  obtain ⟨us, hus, hbare, -⟩ := hts.commit text
  exact ⟨us, hus, h.ofText hbare⟩

theorem satisfies_perform (h : Invariant P) (hs : s.Satisfies P) (e : Edit) :
    (s.run (perform e)).2.Satisfies P := by
  obtain ⟨ts, hts, hP⟩ := hs
  rcases hts.perform_cases e with ⟨f, hrun⟩ | ⟨o, t, us, hrun, hus, hre⟩
  · rw [hrun]
    exact ⟨ts, hts, hP⟩
  · have hsettings := perform_settings s e
    rw [hrun] at hsettings
    rw [hrun, Satisfies, hsettings]
    exact ⟨us, hus, h.reshape hts hP hre⟩

end Invariant

end Sheet

namespace SharedSheet

variable {P : HostSettings → Namespaces → List (Tree (RuleId × Rule)) → Prop}
variable {σ τ : SharedSheet} {e : Event}

theorem Turn.satisfies (h : σ.Turn e τ) (hP : Sheet.Invariant P) (hσ : σ.sheet.Satisfies P) :
    τ.sheet.Satisfies P := by
  have hf : σ.sheet.IsForest := hσ.imp fun ts h => h.1
  cases h with
  | @edited e => exact hP.satisfies_perform hσ e
  | @switched d =>
      obtain ⟨ts, hts, h⟩ := hσ
      exact ⟨ts, hts.of_eq rfl rfl, hP.switched d h⟩
  | accepted _ =>
      obtain ⟨ts, hts, h⟩ := hσ
      exact ⟨ts, hts.of_eq rfl rfl, h⟩
  | commits _ => exact hP.satisfies_commit hf _
  | dropped _ => exact hP.satisfies_commit hf _
  | _ => exact hσ

end SharedSheet

/-- An invariant holds after any run of events. -/
theorem Sheet.Invariant.of_reachable
    {P : HostSettings → Namespaces → List (Tree (RuleId × Rule)) → Prop} {σ : SharedSheet}
    (h : Invariant P) (hσ : σ.Reachable) : σ.sheet.Satisfies P := by
  obtain ⟨σ₀, es, h₀, rfl⟩ := hσ
  induction es using List.reverseRecOn with
  | nil =>
      cases h₀ with
      | empty c => exact h.satisfies_empty c
      | read c text => exact h.satisfies_read c text
  | append_singleton es e ih =>
      rw [SharedSheet.steps_concat]
      exact (SharedSheet.turn_step _ e).satisfies h ih

end StyleTree
