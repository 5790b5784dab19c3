/-
# `Proofs.Sheet.Renewal` — a replacement forgets what was there

The rules of a replacement are planted beside the old ones, in an arena
whose slots have a history, and the old ones are taken out behind them.
Nothing of this can be seen: the trees are those that the drafts of the
text grow into (`Draft.tree`), as they are in a sheet that was just read
from it, and so are the namespaces.  What is left of the old rules is that
their ids are not used again.
-/
import StyleTree.Proofs.Sheet.Protocol
import StyleTree.Proofs.Sheet.Text

namespace StyleTree

open StyleTree.Tree (root idsOf bareAll)

namespace Sheet

variable {s : Sheet}

/-- In the place of the sheet `s` there is a sheet `t` which, but for the ids of its rules, is the sheet
read from a text under the same settings. -/
structure Renewed (s : Sheet) (text : String) (t : Sheet) : Prop where
  forest : bareAll t.forest = bareAll (read s.settings text).forest
  namespaces : t.namespaces = (read s.settings text).namespaces
  settings : t.settings = s.settings
  idle : t.pending = false
  /-- The trees hang in the top level, and nothing else is in the arena. -/
  roots : t.forest.map root = t.rules
  ids : (idsOf t.forest).Perm t.arena.ids
  gone : ∀ id, s.arena.contains id = true → t.arena.contains id = false

/-- The trees of a sheet that was just read. -/
theorem forest_read (c : HostSettings) (text : String) :
    bareAll (read c text).forest =
      (Draft.ofText c.options (!c.constructed) text).1.map Draft.tree := by
  obtain ⟨us, hus, hbare⟩ := planted_read c text
  rw [hus.forest_eq]
  exact hbare

/-- Whatever the sheet was. -/
theorem renewed_commit (h : s.IsForest) (text : String) : s.Renewed text (s.commit text) := by
  obtain ⟨ts, hs⟩ := h
  obtain ⟨us, hus, hbare, -⟩ := hs.commit text
  have heq : (s.commit text).forest = us := hus.forest_eq
  constructor
  · rw [heq, forest_read]
    exact hbare
  · rfl
  · rfl
  · rfl
  · rw [heq]
    exact hus.roots
  · rw [heq]
    exact hus.forest.perm
  · intro id hid
    rw [← Bool.not_eq_true, Arena.contains_iff]
    exact commit_gone text ⟨ts, hs⟩ (Arena.contains_iff.mp hid)

end Sheet

namespace SharedSheet

variable {σ : SharedSheet}

/-- A replacement that is made at once. -/
theorem replace_of_accepts (h : σ.Accepts) (text : String) :
    σ.edit (.replace text) = (.ok .done, ⟨σ.sheet.commit text, σ.requests⟩) := by
  have hc : σ.sheet.settings.constructed = true ∧ σ.sheet.pending = false := h
  have hrun : σ.sheet.run (Sheet.replace text) = (.ok (), σ.sheet.commit text) := by
    rw [Sheet.replace, Sheet.run_bind, Sheet.run_lock, if_pos hc]
    rfl
  rw [edit, Sheet.perform, Sheet.run_map, hrun]
  rfl

/-- Whatever was done to a sheet that may be given other rules, a replacement leaves what a sheet just
read from its text has.  It is made at once, or it is requested: then it is made when the request is due,
and what was done to the sheet since the request is forgotten as well. -/
theorem replacement_forgets (h : σ.Reachable) (ha : σ.Accepts) (text : String) :
    ((σ.edit (.replace text)).1 = .ok .done ∧
        σ.sheet.Renewed text (σ.edit (.replace text)).2.sheet) ∧
      ∀ es e, Due σ.requests.length es e →
        ((σ.request text).steps es).sheet.Renewed text (((σ.request text).steps es).step e).sheet := by
  have hf := isForest_of_reachable h
  constructor
  · rw [replace_of_accepts ha]
    exact ⟨rfl, Sheet.renewed_commit hf text⟩
  · intro es e hd
    have hreq : (σ.request text).request? σ.requests.length = some (.scheduled text) := by
      rw [request, request_of_accepts ha, request?_append, if_pos rfl]
    have hf' : ((σ.request text).steps es).sheet.IsForest :=
      (keeps_steps es _).isForest ((turn_request σ text).keeps.isForest hf)
    rw [(commitsOnce hreq).due es e hd]
    exact Sheet.renewed_commit hf' text

/-- While a request waits a keyframe is appended to the old rules; then the request is dropped. -/
theorem replacement_forgets_keyframes :
    let σ := ofSheet (Sheet.read .scripted "@keyframes a{}")
    let τ := (σ.request "b{}").step (.edit (.appendKeyframe ⟨1, 1⟩ "0%{}"))
    σ.sheet.Renewed "c{}" (σ.edit (.replace "c{}")).2.sheet ∧
      τ.sheet.Renewed "b{}" (τ.step (.drop 0)).sheet := by
  intro σ τ
  have hσ : σ.Reachable := ⟨σ, [], .read _ _, rfl⟩
  have ha : σ.Accepts := ⟨rfl, rfl⟩
  have hd : Due 0 [.edit (.appendKeyframe ⟨1, 1⟩ "0%{}")] (.drop 0) :=
    .drop (fun hm => by cases hm; contradiction) (Nat.zero_le 1)
  exact ⟨(replacement_forgets hσ ha "c{}").1.2, (replacement_forgets hσ ha "b{}").2 _ _ hd⟩

end SharedSheet

end StyleTree
