/-
# `Proofs.Name.Key` — a key is read back from its text

The text of a key is the list of its offsets, and each of them is read back
but for its sign.  So the text is always read, as the same key without the
signs (`ofText?_text`), and its text is the text of the key if there is no
sign in it (`text_unsigned_iff`).  Reading and writing a second time changes
nothing any more.
-/
import StyleTree.Proofs.Name.Offset
import StyleTree.Proofs.Name.Text

namespace StyleTree

open ComponentValue Scan Number

/-! ## Texts of offsets -/

/-- A character that is not in the separator is in the joined text if it is in one of the parts. -/
theorem Text.mem_joined {c : Char} {sep : String} (hsep : c ∉ sep.toList) (ss : List String) :
    c ∈ (Text.joined sep ss).toList ↔ ∃ s ∈ ss, c ∈ s.toList := by
  induction ss with
  | nil => exact iff_of_false List.not_mem_nil fun ⟨_, hs, _⟩ => List.not_mem_nil hs
  | cons s ss ih =>
      rw [List.exists_mem_cons_iff]
      cases ss with
      | nil => exact (or_iff_left fun ⟨_, ht, _⟩ => List.not_mem_nil ht).symm
      | cons t ss =>
          rw [← ih, Text.joined, String.toList_append, String.toList_append, List.mem_append, List.mem_append,
            or_iff_left hsep]
          rintro ⟨⟩

namespace KeyframeKey

variable {k : KeyframeKey} {x : Single} {s : Spelling} {text : String} {vs : List ComponentValue}

theorem readsAs_offset (hs : IsSpelling s x) : ReadsAs (offsetText x) [.token (.percentage (numeralOf s))] := by
  intro rest _
  rw [hs.text, List.append_assoc]
  exact s.scan_percentage rest

theorem isPrelude_offset (hs : IsSpelling s x) : IsPrelude (offsetText x) [.token (.percentage (numeralOf s))] :=
  isPrelude_tokens [.percentage (numeralOf s)] (readsAs_offset hs) (List.cons_ne_nil _ _)
    (List.forall_mem_singleton.mpr ⟨by rintro ⟨⟩, by rintro ⟨⟩, by rintro ⟨⟩⟩)

/-- The sign of an offset is in its text. -/
theorem mem_offsetText (x : Single) : '-' ∈ (offsetText x).toList ↔ x.negative = true := by
  obtain ⟨whole, fraction, htext, -⟩ := exists_positional x.magnitude.decimal
  have hdigits : '-' ∉ positional x.magnitude.decimal := by
    rw [htext, List.mem_append, not_or]
    refine ⟨whole.not_mem rfl, ?_⟩
    cases fraction with
    | none => exact List.not_mem_nil
    | some ds => exact List.not_mem_cons_of_ne_of_not_mem (by decide) (ds.not_mem rfl)
  have hpercent : '-' ∉ ['%'] := by decide
  rw [offsetText, String.toList_ofList, List.mem_append, List.mem_append, or_iff_left hpercent, or_iff_left hdigits]
  cases x.negative with
  | true => exact iff_of_true List.mem_cons_self rfl
  | false => exact iff_of_false List.not_mem_nil Bool.false_ne_true

/-! ## Keys without signs -/

/-- The key without the signs of its offsets. -/
def unsigned (k : KeyframeKey) : KeyframeKey := ⟨k.offsets.map Single.unsigned⟩

/-- No offset has a sign. -/
def IsUnsigned (k : KeyframeKey) : Prop := ∀ x ∈ k.offsets, x.negative = false

instance (k : KeyframeKey) : Decidable k.IsUnsigned := List.decidableBAll ..

theorem isUnsigned_unsigned (k : KeyframeKey) : k.unsigned.IsUnsigned := by
  intro x hx
  obtain ⟨y, -, rfl⟩ := List.mem_map.mp hx
  rfl

theorem unsigned_of_isUnsigned (h : k.IsUnsigned) : k.unsigned = k := by
  have hsame : k.offsets.map Single.unsigned = k.offsets := by
    refine (List.map_congr_left fun x hx => ?_).trans (List.map_id' _)
    rw [Single.unsigned, ← h x hx]
  rw [unsigned, hsame]

theorem mem_text (k : KeyframeKey) : '-' ∈ k.text.toList ↔ ¬ k.IsUnsigned := by
  have hsep : '-' ∉ (", " : String).toList := by decide
  unfold IsUnsigned
  push Not
  rw [KeyframeKey.text, Text.mem_joined hsep]
  constructor
  · rintro ⟨t, ht, hmem⟩
    obtain ⟨x, hx, rfl⟩ := List.mem_map.mp ht
    exact ⟨x, hx, Bool.ne_false_iff.mpr ((mem_offsetText x).mp hmem)⟩
  · rintro ⟨x, hx, hnegative⟩
    exact ⟨_, List.mem_map_of_mem hx, (mem_offsetText x).mpr (Bool.ne_false_iff.mp hnegative)⟩

/-- The texts with and without signs are the same if there are no signs. -/
theorem text_unsigned_iff : k.unsigned.text = k.text ↔ k.IsUnsigned := by
  constructor
  · intro h
    by_contra hsigned
    have hmem := (mem_text k).mpr hsigned
    rw [← h] at hmem
    exact (mem_text _).mp hmem (isUnsigned_unsigned k)
  · intro h
    rw [unsigned_of_isUnsigned h]

/-! ## Read back -/

/-- The text of a key that was read is read as the key without its signs. -/
theorem ofText?_text (h : ofValues? vs = some k) : ofText? k.text = some k.unsigned := by
  obtain ⟨xs, hread, rfl⟩ := Option.map_eq_some_iff.mp h
  obtain ⟨hne, hall⟩ := of_mapM_commaParts hread
  choose parts hparts using exists_isSpelling
  have hprelude : IsPrelude (KeyframeKey.text ⟨xs⟩)
      ([.token .comma, .token .blank].intercalate (xs.map fun x => [.token (.percentage (numeralOf (parts x)))])) :=
    isPrelude_joined (fun x _ => isPrelude_offset (hparts x)) hne (.inr ⟨rfl, rfl⟩)
  have hmembers : ∀ x ∈ xs, ofPart? [.token (.percentage (numeralOf (parts x)))] = some x.unsigned ∧
      trim [ComponentValue.token (.percentage (numeralOf (parts x)))] = [.token (.percentage (numeralOf (parts x)))] ∧
      ∀ v ∈ [ComponentValue.token (.percentage (numeralOf (parts x)))], v.isComma = false := by
    intro x hx
    obtain ⟨ws, -, hws⟩ := hall x hx
    exact ⟨ofPart?_numeralOf (isOffset_of_ofPart? hws) (hparts x), rfl, List.forall_mem_singleton.mpr rfl⟩
  rw [ofText?, hprelude.ofText_eq, ofValues?, mapM_commaParts_map hne hmembers]
  rfl

/-- A text of a key, read and written again. -/
def normalText? (text : String) : Option String := (ofText? text).map KeyframeKey.text

/-- What is read and written again is read, and is itself then unless it has a sign. -/
theorem normalText?_normal (h : ofText? text = some k) :
    normalText? k.text = some k.unsigned.text ∧ normalText? k.unsigned.text = some k.unsigned.text := by
  have hread := ofText?_text h
  have hagain := ofText?_text hread
  rw [unsigned_of_isUnsigned (isUnsigned_unsigned k)] at hagain
  rw [normalText?, normalText?, hread, hagain]
  exact ⟨rfl, rfl⟩

end KeyframeKey

end StyleTree
