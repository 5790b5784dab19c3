/-
# `Proofs.Sheet.Keyframes` — keyframes are found by their key texts

The lookup reads the key and compares its text with those of the children
(`findKeyframe?_eq_some_iff`).  Given the key text of a child, it finds the
last child with that text, and deleting takes out just that one — unless the
key has an offset `-0%`.  Such an offset is stored with its sign, but is
read as `0%` when it is looked for (`keyframes_found_by_text`), so a child
with that key is not found by its own text.
-/
import StyleTree.Proofs.Name.Key
import StyleTree.Proofs.Sheet.Heads
import StyleTree.Proofs.Sheet.Splices

namespace StyleTree

open KeyframeKey (normalText?)
open StyleTree.Tree (pruneAll)

/-- From behind, the last one that satisfies `p` is found. -/
theorem find?_reverse_eq_some_iff {α : Type} {p : α → Bool} {xs : List α} {x : α} : xs.reverse.find? p = some x ↔
    ∃ i, xs[i]? = some x ∧ p x = true ∧ ∀ (j : Nat) (y : α), i < j → xs[j]? = some y → p y = false := by
  rw [List.find?_eq_some_iff_append]
  constructor
  · rintro ⟨hx, as, bs, hsplit, has⟩
    have hxs : xs = bs.reverse ++ x :: as.reverse := by
      rw [← List.reverse_reverse xs, hsplit, List.reverse_append, List.reverse_cons, List.append_assoc]
      rfl
    subst hxs
    refine ⟨bs.reverse.length, ?_, hx, fun j y hj hy => ?_⟩
    · rw [List.getElem?_append_right (Nat.le_refl _), Nat.sub_self]
      rfl
    obtain ⟨n, rfl⟩ := Nat.exists_eq_add_of_lt hj
    rw [List.getElem?_append_right (by omega)] at hy
    have hindex : bs.reverse.length + n + 1 - bs.reverse.length = n + 1 := by omega
    rw [hindex, List.getElem?_cons_succ] at hy
    have hmem := List.mem_reverse.mp (List.mem_of_getElem? hy)
    exact (Bool.not_eq_true' _).mp (has y hmem)
  · rintro ⟨i, hi, hx, hlast⟩
    obtain ⟨hlt, hget⟩ := List.getElem?_eq_some_iff.mp hi
    refine ⟨hx, (xs.drop (i + 1)).reverse, (xs.take i).reverse, ?_, fun a ha => ?_⟩
    · have hxs : xs = xs.take i ++ x :: xs.drop (i + 1) := by
        rw [← hget, List.cons_getElem_drop_succ, List.take_append_drop]
      conv_lhs => rw [hxs, List.reverse_append, List.reverse_cons, List.append_assoc]
      rfl
    · obtain ⟨n, hn⟩ := List.getElem?_of_mem (List.mem_reverse.mp ha)
      rw [List.getElem?_drop] at hn
      rw [hlast _ a (by omega) hn]
      rfl

namespace Sheet

variable {s t : Sheet} {ts : List (Tree (RuleId × Rule))} {id c : RuleId} {r : Rule} {key text : String}
  {k : KeyframeKey} {i : Nat}

/-! ## The last child with a key text -/

/-- The rule is the last of its siblings with a key text, and this is its place. -/
structure IsLastKey (s : Sheet) (id : RuleId) (text : String) (i : Nat) (c : RuleId) : Prop where
  listed : (s.arena.children id)[i]? = some c
  key : s.keyText? c = some text
  last : ∀ j d, i < j → (s.arena.children id)[j]? = some d → s.keyText? d ≠ some text

theorem findKeyframe?_eq (hr : s.rule? id = some r) (hk : r.kind = .keyframes)
    (hkey : KeyframeKey.ofText? key = some k) :
    s.findKeyframe? id key = (s.arena.children id).reverse.find? (fun c => s.keyText? c = some k.text) := by
  unfold findKeyframe?
  rw [ruleOfKind_eq_ok.mpr ⟨hr, hk⟩, hkey]

theorem findKeyframe?_eq_some_iff (hr : s.rule? id = some r) (hk : r.kind = .keyframes)
    (hkey : KeyframeKey.ofText? key = some k) :
    s.findKeyframe? id key = some c ↔ ∃ i, s.IsLastKey id k.text i c := by
  rw [findKeyframe?_eq hr hk hkey, find?_reverse_eq_some_iff]
  refine exists_congr fun i => ⟨fun ⟨hlisted, htext, hlast⟩ => ⟨hlisted, of_decide_eq_true htext, fun j d hj hd => ?_⟩,
    fun h => ⟨h.listed, decide_eq_true h.key, fun j d hj hd => decide_eq_false (h.last j d hj hd)⟩⟩
  exact of_decide_eq_false (hlast j d hj hd)

/-! ## Deleting -/

/-- Deleting by a key takes out what is found by it, with all below it, and nothing else. -/
theorem deleteKeyframe_splices (hs : s.Planted ts) (hclean : s.settings.originClean = true)
    (hr : s.rule? id = some r) (hk : r.kind = .keyframes) (hfind : s.findKeyframe? id key = some c)
    (hi : (s.arena.children id)[i]? = some c) :
    ∃ d t, s.run (deleteKeyframe id key) = (.ok (some d), t) ∧ t.Spliced (.under id) i c s ∧
      ∃ w, s.tree? c = some w ∧ d.tree? = some w := by
  have hchild : c ∈ s.arena.children id := List.mem_of_getElem? hi
  have hid := hs.forest.mem_ids_of_child hchild
  obtain ⟨d, hd⟩ := Option.isSome_iff_exists.mp (detach_isSome hid)
  obtain ⟨hcut, -⟩ := hs.detach_child hchild
  refine ⟨d, (s.detach c).2, ?_, spliced_of_pruned hs hcut hi rfl, detach_tree? hs.forest hid (Prod.ext hd rfl)⟩
  have hclean : s.access = .ok () := access_eq_ok.mpr hclean
  unfold deleteKeyframe
  simp only [run_look_bind, hclean, ruleOfKind_eq_ok.mpr ⟨hr, hk⟩, hfind, run_write, hd]

/-- A key finds the last child with a text, and deleting by the key takes out just that child. -/
def FindsLast (s : Sheet) (id : RuleId) (key text : String) : Prop :=
  ∃ i c, s.IsLastKey id text i c ∧ s.findKeyframe? id key = some c ∧ (s.settings.originClean = true →
    ∃ d t, s.run (deleteKeyframe id key) = (.ok (some d), t) ∧ t.Spliced (.under id) i c s ∧
      ∃ w, s.tree? c = some w ∧ d.tree? = some w)

theorem Planted.findsLast (hs : s.Planted ts) (hr : s.rule? id = some r) (hk : r.kind = .keyframes)
    (hkey : KeyframeKey.ofText? key = some k) (hc : c ∈ s.arena.children id) (htext : s.keyText? c = some k.text) :
    s.FindsLast id key k.text := by
  cases hfind : s.findKeyframe? id key with
  | none =>
      rw [findKeyframe?_eq hr hk hkey, List.find?_eq_none] at hfind
      exact absurd (decide_eq_true htext) (hfind c (List.mem_reverse.mpr hc))
  | some d =>
      obtain ⟨i, hlast⟩ := (findKeyframe?_eq_some_iff hr hk hkey).mp hfind
      exact ⟨i, d, hlast, hfind, fun hclean => deleteKeyframe_splices hs hclean hr hk hfind hlast.listed⟩

/-! ## Children of keyframes -/

/-- Each child of keyframes has a key, which was read. -/
theorem exists_key {σ : SharedSheet} (h : σ.Reachable) (hr : σ.sheet.rule? id = some r) (hk : r.kind = .keyframes)
    (hc : c ∈ σ.sheet.arena.children id) :
    ∃ k vs, KeyframeKey.ofValues? vs = some k ∧ σ.sheet.keyText? c = some k.text := by
  have hcontext := SharedSheet.rules_stand_in_context h
  obtain ⟨r₁, r', hr₁, hr', -⟩ := hcontext.child id c hc
  have hallows := hcontext.allows_child hc hr hr'
  rw [Rule.blockContext, hk] at hallows
  have hproduced := Rule.ruleInvariant_isProduced.of_reachable h hr'
  obtain ⟨head, _, _⟩ := r'
  cases head with
  | keyframe k =>
      obtain ⟨vs, hvs⟩ := hproduced
      refine ⟨k, vs, hvs, ?_⟩
      unfold keyText?
      rw [hr']
  | _ => cases hallows

end Sheet

namespace SharedSheet

/-- Of keyframes in a sheet, whatever was done to it: each child has a key text, and given that text, the last child
with it is found and deleted exactly if the key has no sign.  With a sign, the last child with the text without
signs is, and nothing if there is none.  A key text that is read and written again is accepted, is without signs
then, and stays so. -/
theorem keyframes_found_by_text {σ : SharedSheet} (h : σ.Reachable) {id : RuleId} {r : Rule}
    (hr : σ.sheet.rule? id = some r) (hk : r.kind = .keyframes) :
    (∀ c ∈ σ.sheet.arena.children id, ∃ k : KeyframeKey, σ.sheet.keyText? c = some k.text ∧
      (σ.sheet.FindsLast id k.text k.text ↔ k.IsUnsigned) ∧
      (σ.sheet.FindsLast id k.text k.unsigned.text ∨ σ.sheet.findKeyframe? id k.text = none ∧
        ∀ d ∈ σ.sheet.arena.children id, σ.sheet.keyText? d ≠ some k.unsigned.text)) ∧
    ∀ text k, KeyframeKey.ofText? text = some k →
      normalText? text = some k.text ∧ normalText? k.text = some k.unsigned.text ∧
        normalText? k.unsigned.text = some k.unsigned.text ∧ (normalText? k.text = some k.text ↔ k.IsUnsigned) := by
  refine ⟨fun c hc => ?_, fun text k hread => ?_⟩
  · obtain ⟨k, vs, hvs, htext⟩ := Sheet.exists_key h hr hk hc
    obtain ⟨ts, hs, -⟩ := Sheet.invariant_fits.of_reachable h
    have hkey := KeyframeKey.ofText?_text hvs
    refine ⟨k, htext, ⟨fun hfinds => ?_, fun hunsigned => ?_⟩, ?_⟩
    · -- what is found has the text without signs
      obtain ⟨i, d, hlast, hfind, -⟩ := hfinds
      obtain ⟨j, hlast'⟩ := (Sheet.findKeyframe?_eq_some_iff hr hk hkey).mp hfind
      exact KeyframeKey.text_unsigned_iff.mp (Option.some.inj (hlast'.key.symm.trans hlast.key))
    · have hsame := KeyframeKey.unsigned_of_isUnsigned hunsigned
      rw [hsame] at hkey
      exact hs.findsLast hr hk hkey hc htext
    · by_cases hsome : ∃ d ∈ σ.sheet.arena.children id, σ.sheet.keyText? d = some k.unsigned.text
      · obtain ⟨d, hd, hdtext⟩ := hsome
        exact .inl (hs.findsLast hr hk hkey hd hdtext)
      · push Not at hsome
        refine .inr ⟨?_, hsome⟩
        rw [Sheet.findKeyframe?_eq hr hk hkey, List.find?_eq_none]
        exact fun d hd hkeyed => hsome d (List.mem_reverse.mp hd) (of_decide_eq_true hkeyed)
  · obtain ⟨hnormal, hagain⟩ := KeyframeKey.normalText?_normal hread
    refine ⟨congrArg (Option.map _) hread, hnormal, hagain, ?_⟩
    rw [hnormal, Option.some.injEq]
    exact KeyframeKey.text_unsigned_iff

/-- Keyframes of which one has a zero with a sign, and two have the same key. -/
theorem keyframes_found_by_text_signed :
    let σ := ofSheet (Sheet.read .scripted "@keyframes a{-0.0%{}0%{}50%{}50.00001%{}}")
    (∃ k : KeyframeKey, σ.sheet.keyText? ⟨2, 1⟩ = some k.text ∧ k.text = "-0%" ∧
      ¬ σ.sheet.FindsLast ⟨1, 1⟩ k.text k.text) ∧
    σ.sheet.FindsLast ⟨1, 1⟩ "50%" "50%" ∧
    normalText? "-0.0%, TO" = some "-0%, 100%" ∧ normalText? "-0%, 100%" = some "0%, 100%" := by
  intro σ
  have hσ : σ.Reachable := ⟨σ, [], .read _ _, rfl⟩
  obtain ⟨hkind, hsigned, hplain, hsignedText, hplainText⟩ :
      (σ.sheet.rule? ⟨1, 1⟩).map Rule.kind = some .keyframes ∧ ⟨2, 1⟩ ∈ σ.sheet.arena.children ⟨1, 1⟩ ∧
        ⟨4, 1⟩ ∈ σ.sheet.arena.children ⟨1, 1⟩ ∧ σ.sheet.keyText? ⟨2, 1⟩ = some "-0%" ∧
        σ.sheet.keyText? ⟨4, 1⟩ = some "50%" := by
    decide +kernel
  obtain ⟨r, hr, hkind⟩ := Option.map_eq_some_iff.mp hkind
  refine ⟨?_, ?_, ?_⟩
  · obtain ⟨k, htext, hfinds, -⟩ := (keyframes_found_by_text hσ hr hkind).1 _ hsigned
    have hsame : k.text = "-0%" := Option.some.inj (htext.symm.trans hsignedText)
    exact ⟨k, htext, hsame, fun h => (KeyframeKey.mem_text k).mp (by rw [hsame]; decide) (hfinds.mp h)⟩
  · obtain ⟨k, htext, hfinds, -⟩ := (keyframes_found_by_text hσ hr hkind).1 _ hplain
    have hsame : k.text = "50%" := Option.some.inj (htext.symm.trans hplainText)
    rw [hsame] at hfinds
    refine hfinds.mpr (Classical.not_not.mp fun h => ?_)
    have hmem := (KeyframeKey.mem_text k).mpr h
    rw [hsame] at hmem
    exact absurd hmem (by decide)
  · have hread : (KeyframeKey.ofText? "-0.0%, TO").map KeyframeKey.text = some "-0%, 100%" ∧
        normalText? "-0%, 100%" = some "0%, 100%" := by
      decide +kernel
    obtain ⟨k, hk, htext⟩ := Option.map_eq_some_iff.mp hread.1
    have hnormal := ((keyframes_found_by_text hσ hr hkind).2 _ k hk).1
    rw [htext] at hnormal
    exact ⟨hnormal, hread.2⟩

/-- A keyframe with the key `-0.0%` is not found by its own key text, which is another one when it is read and written
again. -/
theorem not_keyframes_found_by_text :
    (¬ ∀ σ : SharedSheet, σ.Reachable → ∀ id r, σ.sheet.rule? id = some r → r.kind = .keyframes →
      ∀ c ∈ σ.sheet.arena.children id, ∀ text, σ.sheet.keyText? c = some text → σ.sheet.FindsLast id text text) ∧
    ¬ ∀ text normal, normalText? text = some normal → normalText? normal = some normal := by
  constructor
  · intro h
    obtain ⟨hkind, hchild, htext, hfind⟩ :
        let s := Sheet.read .scripted "@keyframes a{-0.0%{}}"
        (s.rule? ⟨1, 1⟩).map Rule.kind = some .keyframes ∧ ⟨2, 1⟩ ∈ s.arena.children ⟨1, 1⟩ ∧
          s.keyText? ⟨2, 1⟩ = some "-0%" ∧ s.findKeyframe? ⟨1, 1⟩ "-0%" = none := by
      decide +kernel
    obtain ⟨r, hr, hk⟩ := Option.map_eq_some_iff.mp hkind
    obtain ⟨i, c, -, hfound, -⟩ := h (ofSheet (Sheet.read .scripted "@keyframes a{-0.0%{}}")) ⟨_, [], .read _ _, rfl⟩
      ⟨1, 1⟩ r hr hk ⟨2, 1⟩ hchild "-0%" htext
    cases hfind.symm.trans hfound
  · intro h
    have hread : normalText? "-0.0%" = some "-0%" ∧ normalText? "-0%" = some "0%" := by decide +kernel
    have hsame := hread.2.symm.trans (h _ _ hread.1)
    exact absurd hsame (by decide)

end SharedSheet

end StyleTree
