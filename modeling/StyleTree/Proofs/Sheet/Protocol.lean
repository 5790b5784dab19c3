/-
# `Proofs.Sheet.Protocol` — each request makes its replacement once

A request that was accepted holds the lock of its sheet until it is due:
at its second poll, or at its drop if that comes first.  Then it makes its
replacement and releases the lock; no other call on it does anything.

    calls on the request     it is        sheet
    none                     scheduled    locked
    polled once              yielded      locked
    polled again             committed    replaced at the second poll
    dropped                  gone         replaced at the drop, if not before

Two invariants of a run carry this: `Orderly`, that the lock and the
requests agree, and `Stage`, that a request stands where the calls on it
have put it.  Requests that are refused are never due, and on a sheet that
no script has made all are refused.
-/
import StyleTree.Proofs.Sheet.Events
import StyleTree.Proofs.Sheet.Links

namespace StyleTree.SharedSheet

variable {σ τ : SharedSheet} {e : Event} {es : List Event} {i j : Nat} {text : String}
variable {r : Replacement}

/-! ## The lock and the requests -/

/-- Either nobody waits and the sheet is free, or one request waits and holds the lock. -/
inductive Orderly (σ : SharedSheet) : Prop
  | free : σ.sheet.pending = false → (∀ j, ¬ σ.Waiting j) → Orderly σ
  | held {i : Nat} : σ.sheet.pending = true → σ.sheet.settings.constructed = true →
      (∀ j, σ.Waiting j ↔ j = i) → Orderly σ

theorem Orderly.of_eq (h : σ.Orderly) (hp : τ.sheet.pending = σ.sheet.pending)
    (hc : τ.sheet.settings.constructed = σ.sheet.settings.constructed)
    (hw : ∀ j, τ.Waiting j ↔ σ.Waiting j) : τ.Orderly := by
  cases h with
  | free hfree hnone => exact .free (hp.trans hfree) fun j h => hnone j ((hw j).mp h)
  | held hheld hcon hone => exact .held (hp.trans hheld) (hc.trans hcon) fun j => (hw j).trans (hone j)

theorem waiting_congr (h : τ.request? j = σ.request? j) : τ.Waiting j ↔ σ.Waiting j := by
  rw [Waiting, Waiting, h]

/-- The request that makes its replacement was the only one that waited. -/
theorem Orderly.commit (h : σ.Orderly) (hi : σ.Waiting i) (hr : σ.request? i = some r)
    {q : Option Replacement} (hs : ∀ text, q ≠ some (.scheduled text))
    (hy : ∀ text, q ≠ some (.yielded text)) (text : String) :
    Orderly ⟨σ.sheet.commit text, σ.requests.set i q⟩ := by
  refine .free rfl fun j hj => ?_
  have hset := request?_set hr (σ.sheet.commit text) q j
  by_cases hji : j = i
  · rw [if_pos hji] at hset
    exact not_waiting_of_eq hset hs hy hj
  · rw [if_neg hji] at hset
    have hj := (waiting_congr hset).mp hj
    cases h with
    | free _ hnone => exact hnone j hj
    | held _ _ hone => exact hji (((hone j).mp hj).trans ((hone i).mp hi).symm)

theorem Turn.orderly (h : σ.Turn e τ) (hσ : σ.Orderly) : τ.Orderly := by
  cases h with
  | @edited e =>
      exact hσ.of_eq (Sheet.perform_pending σ.sheet e)
        (congrArg HostSettings.constructed (Sheet.perform_settings σ.sheet e)) fun j => Iff.rfl
  | switched => exact hσ.of_eq rfl rfl fun j => Iff.rfl
  | @accepted text ha =>
      refine .held rfl ha.1 (i := σ.requests.length) fun j => ?_
      have happ := request?_append σ { σ.sheet with pending := true } (.scheduled text) j
      by_cases hj : j = σ.requests.length
      · rw [if_pos hj] at happ
        exact iff_of_true ⟨text, Or.inl happ⟩ hj
      · rw [if_neg hj] at happ
        refine iff_of_false (fun hw => ?_) hj
        cases hσ with
        | free _ hnone => exact hnone j ((waiting_congr happ).mp hw)
        | held hheld _ _ =>
            rw [ha.2] at hheld
            cases hheld
  | refused _ =>
      refine hσ.of_eq rfl rfl fun j => ?_
      have happ := request?_append σ σ.sheet (.refused .locked) j
      by_cases hj : j = σ.requests.length
      · rw [if_pos hj] at happ
        have hnone : σ.request? j = none := by
          rw [request?, List.getElem?_eq_none (Nat.le_of_eq hj.symm)]
          rfl
        exact iff_of_false (not_waiting_of_eq happ (by simp) (by simp))
          (not_waiting_of_eq hnone (by simp) (by simp))
      · rw [if_neg hj] at happ
        exact waiting_congr happ
  | @yields i text hr =>
      refine hσ.of_eq rfl rfl fun j => ?_
      have hset := request?_set hr σ.sheet (some (.yielded text)) j
      by_cases hj : j = i
      · rw [if_pos hj] at hset
        exact iff_of_true ⟨text, Or.inr hset⟩ ⟨text, Or.inl (hj ▸ hr)⟩
      · rw [if_neg hj] at hset
        exact waiting_congr hset
  | commits hr => exact hσ.commit ⟨_, Or.inr hr⟩ hr (by simp) (by simp) _
  | settled _ => exact hσ
  | dropped hr =>
      rcases id hr with h | h
      · exact hσ.commit ⟨_, hr⟩ h (by simp) (by simp) _
      · exact hσ.commit ⟨_, hr⟩ h (by simp) (by simp) _
  | @released i r hw hr =>
      refine hσ.of_eq rfl rfl fun j => ?_
      have hset := request?_set hr σ.sheet none j
      by_cases hj : j = i
      · rw [if_pos hj] at hset
        exact iff_of_false (not_waiting_of_eq hset (by simp) (by simp)) (hj ▸ hw)
      · rw [if_neg hj] at hset
        exact waiting_congr hset
  | absent _ => exact hσ

theorem orderly_steps (h : σ.Orderly) (es : List Event) : (σ.steps es).Orderly := by
  induction es using List.reverseRecOn with
  | nil => exact h
  | append_singleton es e ih =>
      rw [steps_concat]
      exact (turn_step _ e).orderly ih

theorem orderly_of_reachable (h : σ.Reachable) : σ.Orderly := by
  obtain ⟨σ₀, es, h₀, rfl⟩ := h
  refine orderly_steps ?_ es
  cases h₀ with
  | empty c => exact .free rfl fun j => not_waiting_of_eq (request?_ofSheet _ j) (by simp) (by simp)
  | read c text =>
      exact .free rfl fun j => not_waiting_of_eq (request?_ofSheet _ j) (by simp) (by simp)

/-! ## Where a request stands -/

namespace Event

/-- The event polls request `i`. -/
def polls (i : Nat) : Event → Bool
  | .poll j => j = i
  | _ => false

/-- The event is a poll or the drop of request `i`. -/
inductive Calls (i : Nat) : Event → Prop
  | poll : Calls i (.poll i)
  | drop : Calls i (.drop i)

end Event

/-- How often events poll request `i`. -/
def polls (i : Nat) (es : List Event) : Nat := es.countP (Event.polls i)

/-- Behind the events that came before it, the event is the second poll of request `i`, or its drop if
that comes first. -/
inductive Due (i : Nat) (es : List Event) : Event → Prop
  | poll : .drop i ∉ es → polls i es = 1 → Due i es (.poll i)
  | drop : .drop i ∉ es → polls i es ≤ 1 → Due i es (.drop i)

theorem polls_concat (i : Nat) (es : List Event) (e : Event) :
    polls i (es ++ [e]) = polls i es + if e.polls i then 1 else 0 := by
  rw [polls, List.countP_append, List.countP_singleton]
  rfl

theorem polls_concat_of_not_calls (h : ¬ e.Calls i) : polls i (es ++ [e]) = polls i es := by
  rw [polls_concat, if_neg, Nat.add_zero]
  intro hp
  cases e with
  | poll j =>
      obtain rfl : j = i := of_decide_eq_true hp
      exact h .poll
  | _ => cases hp

theorem polls_concat_poll (i : Nat) (es : List Event) :
    polls i (es ++ [.poll i]) = polls i es + 1 := by
  have hp : Event.polls i (.poll i) = true := decide_eq_true rfl
  rw [polls_concat, if_pos hp]

theorem drop_mem_concat : .drop i ∈ es ++ [e] ↔ .drop i ∈ es ∨ e = .drop i := by
  rw [List.mem_append, List.mem_singleton, eq_comm (a := e)]

/-- Where a request of a text stands which was accepted, behind the events since then. -/
inductive Stage (i : Nat) (text : String) (es : List Event) : Option Replacement → Prop
  | scheduled : .drop i ∉ es → polls i es = 0 → Stage i text es (some (.scheduled text))
  | yielded : .drop i ∉ es → polls i es = 1 → Stage i text es (some (.yielded text))
  | committed : .drop i ∉ es → 2 ≤ polls i es → Stage i text es (some .committed)
  | gone : .drop i ∈ es → Stage i text es none

/-- What does not call a request leaves it where it stands. -/
theorem Turn.request?_eq (h : σ.Turn e τ) (hi : i < σ.requests.length) (hc : ¬ e.Calls i) :
    τ.request? i = σ.request? i := by
  have hpoll : ∀ {j}, ¬ Event.Calls i (.poll j) → i ≠ j := fun hc hj => hc (hj ▸ .poll)
  have hdrop : ∀ {j}, ¬ Event.Calls i (.drop j) → i ≠ j := fun hc hj => hc (hj ▸ .drop)
  cases h with
  | edited => rfl
  | switched => rfl
  | accepted _ => rw [request?_append, if_neg (Nat.ne_of_lt hi)]
  | refused _ => rw [request?_append, if_neg (Nat.ne_of_lt hi)]
  | yields hr => rw [request?_set hr, if_neg (hpoll hc)]
  | commits hr => rw [request?_set hr, if_neg (hpoll hc)]
  | settled _ => rfl
  | dropped hr =>
      rcases hr with hr | hr
      · rw [request?_set hr, if_neg (hdrop hc)]
      · rw [request?_set hr, if_neg (hdrop hc)]
  | released _ hr => rw [request?_set hr, if_neg (hdrop hc)]
  | absent _ => rfl

theorem Turn.request?_drop (h : σ.Turn (.drop i) τ) : τ.request? i = none := by
  cases h with
  | dropped hr =>
      rcases hr with hr | hr
      · rw [request?_set hr, if_pos rfl]
      · rw [request?_set hr, if_pos rfl]
  | released _ hr => rw [request?_set hr, if_pos rfl]
  | absent hr => exact hr

theorem Turn.length_le (h : σ.Turn e τ) : σ.requests.length ≤ τ.requests.length := by
  cases h with
  | accepted _ =>
      rw [List.length_append]
      exact Nat.le_add_right _ _
  | refused _ =>
      rw [List.length_append]
      exact Nat.le_add_right _ _
  | yields _ => exact Nat.le_of_eq List.length_set.symm
  | commits _ => exact Nat.le_of_eq List.length_set.symm
  | dropped _ => exact Nat.le_of_eq List.length_set.symm
  | released _ _ => exact Nat.le_of_eq List.length_set.symm
  | _ => exact Nat.le_refl _

theorem length_le_steps (σ : SharedSheet) (es : List Event) :
    σ.requests.length ≤ (σ.steps es).requests.length := by
  induction es using List.reverseRecOn with
  | nil => exact Nat.le_refl _
  | append_singleton es e ih =>
      rw [steps_concat]
      exact Nat.le_trans ih (turn_step _ e).length_le

theorem Stage.other {q : Option Replacement} (h : Stage i text es q) (hc : ¬ e.Calls i) :
    Stage i text (es ++ [e]) q := by
  have hne : e ≠ .drop i := fun he => hc (he ▸ .drop)
  have hdrop : .drop i ∉ es → .drop i ∉ es ++ [e] := fun hd hm =>
    (drop_mem_concat.mp hm).elim hd hne
  have hpolls : polls i (es ++ [e]) = polls i es := polls_concat_of_not_calls hc
  cases h with
  | scheduled hd hp => exact .scheduled (hdrop hd) (hpolls.trans hp)
  | yielded hd hp => exact .yielded (hdrop hd) (hpolls.trans hp)
  | committed hd hp => exact .committed (hdrop hd) (hpolls ▸ hp)
  | gone hd => exact .gone (drop_mem_concat.mpr (Or.inl hd))

theorem Stage.polled (h : Stage i text es (σ.request? i)) (ht : σ.Turn (.poll i) τ) :
    Stage i text (es ++ [.poll i]) (τ.request? i) := by
  have hdrop : .drop i ∉ es → .drop i ∉ es ++ [.poll i] := fun hd hm =>
    (drop_mem_concat.mp hm).elim hd fun he => by cases he
  have hpolls := polls_concat_poll i es
  cases ht with
  | yields hr =>
      rw [hr] at h
      rw [request?_set hr, if_pos rfl]
      cases h with
      | scheduled hd hp => exact .yielded (hdrop hd) (by rw [hpolls, hp])
  | commits hr =>
      rw [hr] at h
      rw [request?_set hr, if_pos rfl]
      cases h with
      | yielded hd hp => exact .committed (hdrop hd) (by omega)
  | settled hw =>
      generalize hq : σ.request? i = q at h ⊢
      cases h with
      | scheduled _ _ => exact absurd ⟨text, Or.inl hq⟩ hw
      | yielded _ _ => exact absurd ⟨text, Or.inr hq⟩ hw
      | committed hd hp => exact .committed (hdrop hd) (by omega)
      | gone hd => exact .gone (drop_mem_concat.mpr (Or.inl hd))

/-- An event moves the request on if it calls it, and leaves it where it stands if not. -/
theorem Turn.stage (h : σ.Turn e τ) (hi : i < σ.requests.length)
    (hs : Stage i text es (σ.request? i)) : Stage i text (es ++ [e]) (τ.request? i) := by
  by_cases hc : e.Calls i
  · cases hc with
    | poll => exact hs.polled h
    | drop =>
        rw [h.request?_drop]
        exact .gone (drop_mem_concat.mpr (Or.inr rfl))
  · rw [h.request?_eq hi hc]
    exact hs.other hc

theorem stage_steps (h : σ.request? i = some (.scheduled text)) (es : List Event) :
    Stage i text es ((σ.steps es).request? i) := by
  induction es using List.reverseRecOn with
  | nil =>
      rw [steps, List.foldl_nil, h]
      exact .scheduled List.not_mem_nil rfl
  | append_singleton es e ih =>
      rw [steps_concat]
      exact (turn_step _ e).stage (Nat.lt_of_lt_of_le (lt_of_request? h) (length_le_steps σ es)) ih

/-! ## Requests that were accepted -/

/-- The request has been polled twice, or dropped. -/
def Spent (i : Nat) (es : List Event) : Prop := .drop i ∈ es ∨ 2 ≤ polls i es

/-- The request `i` is due at the event with a number. -/
def DueAt (i : Nat) (es : List Event) (n : Nat) : Prop := ∃ e, es[n]? = some e ∧ Due i (es.take n) e

/-- The request makes the replacement of the text at one call, when it is due, and holds the lock until
then. -/
structure CommitsOnce (σ : SharedSheet) (i : Nat) (text : String) : Prop where
  due : ∀ es e, Due i es e → ((σ.steps es).step e).sheet = (σ.steps es).sheet.commit text
  otherwise : ∀ es e, e.Calls i → ¬ Due i es e → ((σ.steps es).step e).sheet = (σ.steps es).sheet
  waiting_iff : ∀ es, (σ.steps es).Waiting i ↔ .drop i ∉ es ∧ polls i es ≤ 1
  once : ∀ es, .drop i ∈ es → ∃! n, DueAt i es n

theorem not_spent_of_due (h : Due i es e) : ¬ Spent i es := by
  rintro (hm | hp)
  · cases h with
    | poll hd _ => exact hd hm
    | drop hd _ => exact hd hm
  · cases h with
    | poll _ h => omega
    | drop _ h => omega

/-- What spends a request is the call at which it was due. -/
theorem spent_concat : Spent i (es ++ [e]) ↔ Spent i es ∨ Due i es e := by
  unfold Spent
  rw [drop_mem_concat]
  constructor
  · intro h
    by_cases hs : .drop i ∈ es ∨ 2 ≤ polls i es
    · exact Or.inl hs
    · rw [not_or] at hs
      refine Or.inr ?_
      by_cases hc : e.Calls i
      · cases hc with
        | drop => exact .drop hs.1 (by omega)
        | poll =>
            rw [polls_concat_poll] at h
            rcases h with (hm | he) | hp
            · exact absurd hm hs.1
            · cases he
            · exact .poll hs.1 (by omega)
      · rw [polls_concat_of_not_calls hc] at h
        rcases h with (hm | he) | hp
        · exact absurd hm hs.1
        · exact absurd (he ▸ .drop) hc
        · exact absurd hp hs.2
  · rintro ((hm | hp) | hd)
    · exact Or.inl (Or.inl hm)
    · refine Or.inr ?_
      rw [polls_concat]
      exact Nat.le_trans hp (Nat.le_add_right _ _)
    · cases hd with
      | drop _ _ => exact Or.inl (Or.inr rfl)
      | poll _ hp =>
          rw [polls_concat_poll, hp]
          exact Or.inr (Nat.le_refl 2)

theorem spent_append {fs : List Event} (h : Spent i es) : Spent i (es ++ fs) := by
  induction fs using List.reverseRecOn with
  | nil =>
      rw [List.append_nil]
      exact h
  | append_singleton fs e ih =>
      rw [← List.append_assoc]
      exact spent_concat.mpr (Or.inl ih)

theorem exists_dueAt (h : Spent i es) : ∃ n, DueAt i es n := by
  induction es using List.reverseRecOn with
  | nil =>
      rcases h with hm | hp
      · cases hm
      · cases hp
  | append_singleton es e ih =>
      rcases spent_concat.mp h with hs | hd
      · obtain ⟨n, e', he, hdue⟩ := ih hs
        have hn := (List.getElem?_eq_some_iff.mp he).1
        refine ⟨n, e', ?_, ?_⟩
        · rw [List.getElem?_append_left hn]
          exact he
        · rw [List.take_append_of_le_length (Nat.le_of_lt hn)]
          exact hdue
      · refine ⟨es.length, e, List.getElem?_concat_length, ?_⟩
        rw [List.take_left]
        exact hd

/-- Behind the event at which it is due, the request is spent. -/
theorem DueAt.spent {m n : Nat} (h : DueAt i es m) (hmn : m < n) : Spent i (es.take n) := by
  obtain ⟨e, he, hd⟩ := h
  have hnext : Spent i (es.take (m + 1)) := by
    rw [List.take_add_one, he]
    exact spent_concat.mpr (Or.inr hd)
  have htake : es.take n = es.take (m + 1) ++ (es.drop (m + 1)).take (n - (m + 1)) := by
    rw [← List.take_add, Nat.add_sub_cancel' hmn]
  rw [htake]
  exact spent_append hnext

/-- A request that is spent was due at one event. -/
theorem existsUnique_dueAt (h : Spent i es) : ∃! n, DueAt i es n := by
  obtain ⟨n, hn⟩ := exists_dueAt h
  have hlt : ∀ {m k}, DueAt i es m → DueAt i es k → ¬ m < k := by
    rintro m k hm ⟨e, -, hd⟩ hmk
    exact not_spent_of_due hd (hm.spent hmk)
  refine ⟨n, hn, fun m hm => ?_⟩
  exact Nat.le_antisymm (Nat.le_of_not_lt (hlt hn hm)) (Nat.le_of_not_lt (hlt hm hn))

theorem Stage.waiting_iff (h : Stage i text es (σ.request? i)) :
    σ.Waiting i ↔ .drop i ∉ es ∧ polls i es ≤ 1 := by
  generalize hq : σ.request? i = q at h
  cases h with
  | scheduled hd hp => exact iff_of_true ⟨text, Or.inl hq⟩ ⟨hd, by omega⟩
  | yielded hd hp => exact iff_of_true ⟨text, Or.inr hq⟩ ⟨hd, by omega⟩
  | committed hd hp =>
      exact iff_of_false (not_waiting_of_eq hq (by simp) (by simp)) fun h => by omega
  | gone hd => exact iff_of_false (not_waiting_of_eq hq (by simp) (by simp)) fun h => h.1 hd

/-- A call on a request that does not wait has no effect on the sheet. -/
theorem Turn.sheet_eq (h : σ.Turn e τ) (hc : e.Calls i) (hw : ¬ σ.Waiting i) : τ.sheet = σ.sheet := by
  cases hc with
  | poll =>
      cases h with
      | yields _ => rfl
      | commits hr => exact absurd ⟨_, Or.inr hr⟩ hw
      | settled _ => rfl
  | drop =>
      cases h with
      | dropped hr => exact absurd ⟨_, hr⟩ hw
      | released _ _ => rfl
      | absent _ => rfl

theorem Stage.due (h : Stage i text es (σ.request? i)) (ht : σ.Turn e τ) (hd : Due i es e) :
    τ.sheet = σ.sheet.commit text := by
  have hw : σ.Waiting i := by
    rw [h.waiting_iff]
    cases hd with
    | poll hd hp => exact ⟨hd, Nat.le_of_eq hp⟩
    | drop hd hp => exact ⟨hd, hp⟩
  cases hd with
  | poll hd hp =>
      cases ht with
      | yields hr =>
          rw [hr] at h
          cases h with
          | scheduled _ h0 => omega
      | commits hr =>
          rw [hr] at h
          cases h with
          | yielded _ _ => rfl
      | settled hnot => exact absurd hw hnot
  | drop hd hp =>
      cases ht with
      | dropped hr =>
          rcases hr with hr | hr
          · rw [hr] at h
            cases h with
            | scheduled _ _ => rfl
          · rw [hr] at h
            cases h with
            | yielded _ _ => rfl
      | released hnot _ => exact absurd hw hnot
      | absent hr => exact absurd hw (not_waiting_of_eq hr (by simp) (by simp))

theorem Stage.otherwise (h : Stage i text es (σ.request? i)) (ht : σ.Turn e τ) (hc : e.Calls i)
    (hd : ¬ Due i es e) : τ.sheet = σ.sheet := by
  by_cases hw : σ.Waiting i
  · obtain ⟨hdrop, hpolls⟩ := h.waiting_iff.mp hw
    cases hc with
    | drop => exact absurd (.drop hdrop hpolls) hd
    | poll =>
        cases ht with
        | yields _ => rfl
        | commits hr =>
            rw [hr] at h
            cases h with
            | yielded _ hp => exact absurd (.poll hdrop hp) hd
        | settled _ => rfl
  · exact ht.sheet_eq hc hw

theorem commitsOnce (h : σ.request? i = some (.scheduled text)) : σ.CommitsOnce i text := by
  constructor
  · intro es e hd
    exact (stage_steps h es).due (turn_step _ e) hd
  · intro es e hc hd
    exact (stage_steps h es).otherwise (turn_step _ e) hc hd
  · intro es
    exact (stage_steps h es).waiting_iff
  · intro es hm
    exact existsUnique_dueAt (Or.inl hm)

/-! ## Requests that were refused -/

/-- The request never waits, and no call on it does anything to the sheet. -/
structure NeverCommits (σ : SharedSheet) (i : Nat) : Prop where
  not_waiting : ∀ es, ¬ (σ.steps es).Waiting i
  sheet_eq : ∀ es e, e.Calls i → ((σ.steps es).step e).sheet = (σ.steps es).sheet

theorem Turn.not_waiting (h : σ.Turn e τ) (hi : i < σ.requests.length) (hw : ¬ σ.Waiting i) :
    ¬ τ.Waiting i := by
  by_cases hc : e.Calls i
  · cases hc with
    | drop => exact not_waiting_of_eq h.request?_drop (by simp) (by simp)
    | poll =>
        cases h with
        | yields hr => exact absurd ⟨_, Or.inl hr⟩ hw
        | commits hr => exact absurd ⟨_, Or.inr hr⟩ hw
        | settled hw => exact hw
  · rw [waiting_congr (h.request?_eq hi hc)]
    exact hw

theorem neverCommits (hi : i < σ.requests.length) (hw : ¬ σ.Waiting i) : σ.NeverCommits i := by
  have hnot : ∀ es, ¬ (σ.steps es).Waiting i := by
    intro es
    induction es using List.reverseRecOn with
    | nil => exact hw
    | append_singleton es e ih =>
        rw [steps_concat]
        exact (turn_step _ e).not_waiting (Nat.lt_of_lt_of_le hi (length_le_steps σ es)) ih
  exact ⟨hnot, fun es e hc => (turn_step _ e).sheet_eq hc (hnot es)⟩

/-! ## The protocol -/

theorem Orderly.pending_iff (h : σ.Orderly) : σ.sheet.pending = true ↔ ∃! i, σ.Waiting i := by
  cases h with
  | free hfree hnone =>
      rw [hfree]
      refine iff_of_false Bool.false_ne_true ?_
      rintro ⟨i, hi, -⟩
      exact hnone i hi
  | @held i hheld _ hone =>
      exact iff_of_true hheld ⟨i, (hone i).mpr rfl, fun j hj => (hone j).mp hj⟩

theorem Orderly.idle_iff (h : σ.Orderly) : σ.sheet.pending = false ↔ ∀ i, ¬ σ.Waiting i := by
  cases h with
  | free hfree hnone => exact iff_of_true hfree hnone
  | @held i hheld _ hone =>
      rw [hheld]
      exact iff_of_false (fun h => by cases h) fun hnone => hnone i ((hone i).mpr rfl)

theorem Orderly.idle_of_foreign (h : σ.Orderly) (hc : σ.sheet.settings.constructed = false) :
    σ.sheet.pending = false := by
  cases h with
  | free hfree _ => exact hfree
  | held _ hcon _ =>
      rw [hc] at hcon
      cases hcon

theorem replace_of_not_accepts (h : ¬ σ.Accepts) (text : String) :
    (σ.edit (.replace text)).1 = .error .locked := by
  have hc : ¬ (σ.sheet.settings.constructed = true ∧ σ.sheet.pending = false) := h
  have hrun : σ.sheet.run (Sheet.replace text) = (.error .locked, σ.sheet) := by
    rw [Sheet.replace, Sheet.run_bind, Sheet.run_lock, if_neg hc]
  rw [edit, Sheet.perform, Sheet.run_map, hrun]
  rfl

/-- Between its lock and its requests a sheet keeps this protocol.  The sheet is locked exactly if one
request waits, and free exactly if none does.  Where a replacement may be requested, the request makes
the replacement of its own text once, at its second poll or at its drop, whichever comes first; where
not, it is refused and never does anything.  On a sheet that no script has made every replacement is
refused, and the sheet is never locked. -/
theorem replacement_protocol (h : σ.Reachable) :
    (σ.sheet.pending = true ↔ ∃! i, σ.Waiting i) ∧
      (σ.sheet.pending = false ↔ ∀ i, ¬ σ.Waiting i) ∧
      (∀ text, σ.Accepts → (Replacement.request σ.sheet text).1 = .scheduled text ∧
        (σ.request text).CommitsOnce σ.requests.length text) ∧
      (∀ text, ¬ σ.Accepts → (Replacement.request σ.sheet text).1 = .refused .locked ∧
        (σ.request text).sheet = σ.sheet ∧ (σ.request text).NeverCommits σ.requests.length) ∧
      (σ.sheet.settings.constructed = false → ∀ es text,
        (σ.steps es).sheet.pending = false ∧
          (Replacement.request (σ.steps es).sheet text).1 = .refused .locked ∧
          ((σ.steps es).edit (.replace text)).1 = .error .locked) := by
  have hσ := orderly_of_reachable h
  refine ⟨hσ.pending_iff, hσ.idle_iff, fun text ha => ?_, fun text hn => ?_, fun hc es text => ?_⟩
  · have hreq := request_of_accepts ha text
    refine ⟨congrArg Prod.fst hreq, commitsOnce ?_⟩
    rw [request, hreq, request?_append, if_pos rfl]
  · have hreq := request_of_not_accepts hn text
    have hlast : (σ.request text).request? σ.requests.length = some (.refused .locked) := by
      rw [request, hreq, request?_append, if_pos rfl]
    refine ⟨congrArg Prod.fst hreq, by rw [request, hreq], neverCommits (lt_of_request? hlast) ?_⟩
    exact not_waiting_of_eq hlast (by simp) (by simp)
  · have hfalse : (σ.steps es).sheet.settings.constructed = false := by
      rw [constructed_steps, hc]
    have hnot : ¬ (σ.steps es).Accepts := by
      rintro ⟨htrue, -⟩
      rw [hfalse] at htrue
      cases htrue
    refine ⟨(orderly_steps hσ es).idle_of_foreign hfalse, ?_, replace_of_not_accepts hnot text⟩
    rw [request_of_not_accepts hnot]

/-- A script's sheet accepts a request, and refuses the next one while the first one waits. -/
theorem replacement_protocol_scripted :
    let σ := ofSheet (Sheet.read .scripted "a{}")
    (σ.request "b{}").CommitsOnce 0 "b{}" ∧
      ((σ.request "b{}").request "c{}").NeverCommits 1 ∧
      ((σ.request "b{}").sheet.pending = true ↔ ∃! i, (σ.request "b{}").Waiting i) := by
  intro σ
  have hσ : σ.Reachable := ⟨σ, [], .read _ _, rfl⟩
  have hreq : (σ.request "b{}").Reachable := ⟨σ, [.request "b{}"], .read _ _, rfl⟩
  have ha : σ.Accepts := ⟨rfl, rfl⟩
  have hn : ¬ (σ.request "b{}").Accepts := by
    rintro ⟨-, hp⟩
    cases hp
  have hone := (replacement_protocol hσ).2.2.1 "b{}" ha
  have htwo := (replacement_protocol hreq).2.2.2.1 "c{}" hn
  exact ⟨hone.2, htwo.2.2, (replacement_protocol hreq).1⟩

end StyleTree.SharedSheet
