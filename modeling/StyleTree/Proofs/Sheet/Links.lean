/-
# `Proofs.Sheet.Links` — the links of a sheet after any run of events

A sheet records where its rules are three times: in the top level, in the
children of rules and in their parents.  `Linked` says that the three
agree and that nothing else is in the arena.  A sheet that is a forest is
linked (`IsForest.linked`); initial sheets are forests, and every event of
a shared sheet keeps them so (`keeps_step`), hence so does every run.

The same runs never bring back an id: one that was handed out and is in
no list is in use neither now nor later.  `Removes σ e id` lists the ways
in which an event takes a rule out, each with the ids that go with it.
-/
import StyleTree.Proofs.Sheet.Forest
import StyleTree.Proofs.Sheet.Events

namespace StyleTree

/-- A sheet made by a script, under the basic grammar. -/
def HostSettings.scripted : HostSettings := ⟨true, true, false, none, none, none, ⟨.basic, false⟩⟩

namespace Sheet

variable {s : Sheet}

/-- The top level and the children of all rules. -/
def listed (s : Sheet) : List RuleId := s.rules ++ s.arena.ids.flatMap s.arena.children

/-- The lists of a sheet, the parents of its rules and its arena agree. -/
structure Linked (s : Sheet) : Prop where
  /-- What is listed is in use, and what is in use is listed. -/
  mem_listed_iff : ∀ id, id ∈ s.listed ↔ s.arena.contains id = true
  /-- Nothing is listed twice, in one list or in two. -/
  nodup_listed : s.listed.Nodup
  mem_children_iff : ∀ p c, c ∈ s.arena.children p ↔ s.arena.parent? c = some p
  parent?_of_top : ∀ id ∈ s.rules, s.arena.parent? id = none
  /-- The parents of a rule lead to the top level. -/
  under_top : ∀ id, s.arena.contains id = true → ∃ r ∈ s.rules, s.arena.Under r id
  size_eq : s.arena.size = s.listed.length

theorem IsForest.linked (h : s.IsForest) : s.Linked := by
  obtain ⟨ts, hf, hroots⟩ := h
  have hperm : s.listed.Perm s.arena.ids := by
    rw [listed, ← hroots]
    exact hf.listed_perm
  constructor
  · intro id
    rw [hperm.mem_iff, Arena.contains_iff]
  · exact hperm.nodup_iff.mpr hf.versioned.nodup_ids
  · intro p c
    exact hf.mem_children_iff
  · intro id hid
    exact Arena.parent_of_mem_roots hf.holds (hroots ▸ hid)
  · intro id hid
    rw [← hroots]
    exact hf.exists_under (Arena.contains_iff.mp hid)
  · rw [Arena.size_eq, hperm.length_eq]

theorem isForest_empty (c : HostSettings) : (empty c).IsForest :=
  ⟨[], Arena.forest_empty, rfl⟩

theorem isForest_read (c : HostSettings) (text : String) : (read c text).IsForest := by
  obtain ⟨us, hus, -⟩ := planted_read c text
  exact ⟨us, hus⟩

end Sheet

namespace SharedSheet

open Sheet (Keeps)

variable {σ : SharedSheet}

/-! ## Events -/

theorem Turn.keeps {τ : SharedSheet} {e : Event} (h : σ.Turn e τ) : Keeps σ.sheet τ.sheet := by
  cases h with
  | @edited e => exact Sheet.keeps_perform σ.sheet e
  | switched => exact Sheet.keeps_of_eq rfl rfl
  | accepted _ => exact Sheet.keeps_of_eq rfl rfl
  | commits _ => exact Sheet.keeps_commit σ.sheet _
  | dropped _ => exact Sheet.keeps_commit σ.sheet _
  | _ => exact Keeps.refl σ.sheet

theorem keeps_step (σ : SharedSheet) (e : Event) : Keeps σ.sheet (σ.step e).sheet :=
  (turn_step σ e).keeps

theorem keeps_steps (es : List Event) : ∀ σ : SharedSheet, Keeps σ.sheet (σ.steps es).sheet := by
  induction es with
  | nil =>
      intro σ
      exact Keeps.refl σ.sheet
  | cons e es ih =>
      intro σ
      exact (keeps_step σ e).trans (ih (σ.step e))

theorem isForest_of_reachable (h : σ.Reachable) : σ.sheet.IsForest := by
  obtain ⟨σ₀, es, h₀, rfl⟩ := h
  refine (keeps_steps es σ₀).isForest ?_
  cases h₀ with
  | empty c => exact Sheet.isForest_empty c
  | read c text => exact Sheet.isForest_read c text

/-! ## Rules that leave -/

/-- The event makes a replacement. -/
inductive Commits (σ : SharedSheet) : Event → Prop
  | replace {text : String} {o : Outcome} :
      (σ.edit (.replace text)).1 = .ok o → Commits σ (.edit (.replace text))
  | poll {i : Nat} {text : String} : σ.request? i = some (.yielded text) → Commits σ (.poll i)
  | drop {i : Nat} {text : String} :
      σ.request? i = some (.scheduled text) ∨ σ.request? i = some (.yielded text) →
        Commits σ (.drop i)

/-- The event takes the rule `id` out of the sheet. -/
inductive Removes (σ : SharedSheet) : Event → RuleId → Prop
  | delete {l : RuleList} {i : Nat} {o : Outcome} {ids : List RuleId} {context : RuleContext}
      {r id : RuleId} : (σ.edit (.delete l i)).1 = .ok o → σ.sheet.list l = .ok (ids, context) →
      ids[i]? = some r → σ.sheet.arena.Under r id → Removes σ (.edit (.delete l i)) id
  | deleteKeyframe {p : RuleId} {key : String} {o : Outcome} {r id : RuleId} :
      (σ.edit (.deleteKeyframe p key)).1 = .ok o → σ.sheet.findKeyframe? p key = some r →
      σ.sheet.arena.Under r id → Removes σ (.edit (.deleteKeyframe p key)) id
  | replaced {e : Event} {id : RuleId} : Commits σ e → σ.sheet.arena.contains id = true →
      Removes σ e id

theorem run_of_edit_ok {e : Edit} {o : Outcome} (h : (σ.edit e).1 = .ok o) :
    σ.sheet.run (Sheet.perform e) = (.ok o, (σ.step (.edit e)).sheet) :=
  Prod.ext h rfl

theorem Commits.commit {e : Event} (h : σ.Commits e) :
    ∃ text, (σ.step e).sheet = σ.sheet.commit text := by
  cases h with
  | @replace text o h =>
      obtain ⟨u, hu, -⟩ := Sheet.map_eq_ok.mp (run_of_edit_ok h)
      obtain ⟨-, -, hcommit⟩ := Sheet.replace_ok hu
      exact ⟨text, hcommit⟩
  | @poll i text h =>
      refine ⟨text, ?_⟩
      simp only [step, SharedSheet.poll, h]
      rfl
  | @drop i text h =>
      refine ⟨text, ?_⟩
      rcases h with h | h <;> simp only [step, SharedSheet.drop, h] <;> rfl

theorem Removes.not_mem {e : Event} {id : RuleId} (h : σ.Removes e id) (hf : σ.sheet.IsForest) :
    id ∉ (σ.step e).sheet.arena.ids := by
  cases h with
  | @delete l i o ids context r _ ho hl hi hu =>
      obtain ⟨d, hd, -⟩ := Sheet.map_eq_ok.mp (run_of_edit_ok ho)
      exact Sheet.delete_gone hd hf hl hi hu
  | @deleteKeyframe p key o r _ ho hfind hu =>
      obtain ⟨d, hd, -⟩ := Sheet.map_eq_ok.mp (run_of_edit_ok ho)
      exact Sheet.deleteKeyframe_gone hd hf hfind hu
  | replaced hc hid =>
      obtain ⟨text, ht⟩ := hc.commit
      rw [ht]
      exact Sheet.commit_gone text hf (Arena.contains_iff.mp hid)

/-- An id that was handed out and is not in use will never be. -/
theorem gone_stays_gone (hf : σ.sheet.IsForest) {id : RuleId} (hu : σ.sheet.arena.Used id)
    (hid : id ∉ σ.sheet.arena.ids) (es : List Event) :
    (σ.steps es).sheet.arena.contains id = false := by
  obtain ⟨ts, hts, -⟩ := hf
  obtain ⟨-, hkeep⟩ := (keeps_steps es σ).evolves hts.versioned
  rw [← Bool.not_eq_true, Arena.contains_iff]
  intro hm
  exact hid ((hkeep id hu).2 hm)

/-- What an event takes out was in use. -/
theorem Removes.mem_ids {e : Event} {id : RuleId} (h : σ.Removes e id) (hf : σ.sheet.IsForest) :
    id ∈ σ.sheet.arena.ids := by
  cases h with
  | @delete l i o ids context r _ ho hl hi hu =>
      refine hu.mem_ids ?_
      have hr := List.mem_of_getElem? hi
      cases l with
      | top =>
          cases hl
          rw [← Arena.contains_iff, ← hf.linked.mem_listed_iff]
          exact List.mem_append_left _ hr
      | under p =>
          obtain ⟨_, -, -, rfl, -⟩ := Sheet.list_under_eq_ok.mp hl
          obtain ⟨ts, hts, -⟩ := hf
          exact hts.mem_ids_of_child hr
  | deleteKeyframe ho hfind hu => exact hu.mem_ids (Sheet.mem_ids_of_findKeyframe? hfind).2
  | replaced hc hid => exact Arena.contains_iff.mp hid

/-- After any run of events the lists, the parents and the arena agree.  A rule that was deleted,
moved, merged or replaced is in use neither now nor later, and the same goes for every id that was
handed out and is not listed. -/
theorem linked_after_any_run (h : σ.Reachable) :
    σ.sheet.Linked ∧
      (∀ e id, σ.Removes e id → ∀ es, ((σ.step e).steps es).sheet.arena.contains id = false) ∧
      (∀ id, σ.sheet.arena.Used id → id ∉ σ.sheet.listed →
        ∀ es, (σ.steps es).sheet.arena.contains id = false) ∧
      ∀ (a : Arena Rule) ts p c, a.Forest ts → a.Merges p c →
        (a.settle false p c).contains c = false := by
  have hf := isForest_of_reachable h
  refine ⟨hf.linked, fun e id hr es => ?_, fun id hu hl es => ?_, fun a ts p c ha hm => ?_⟩
  · have hkeep := keeps_step σ e
    refine gone_stays_gone (hkeep.isForest hf) ?_ (hr.not_mem hf) es
    have hused := Arena.used_of_mem (hr.mem_ids hf)
    obtain ⟨ts, hts, -⟩ := hf
    exact ((hkeep.evolves hts.versioned).2 id hused).1
  · refine gone_stays_gone hf hu (fun hm => hl ?_) es
    exact (hf.linked.mem_listed_iff id).mpr (Arena.contains_iff.mpr hm)
  · rw [← Bool.not_eq_true, Arena.contains_iff]
    exact Arena.not_mem_ids_of_merges ha hm

/-- Two rules are read, one is deleted and its slot is used again. -/
theorem linked_after_reuse :
    ((ofSheet (Sheet.read .scripted "a{} @media print{b{}}")).steps
      [.edit (.delete .top 0), .edit (.insert .top "c{}" 1)]).sheet.Linked :=
  (linked_after_any_run ⟨_, _, .read _ _, rfl⟩).1

end SharedSheet

end StyleTree
