/-
# `Proofs.Declaration.Names` — the names of declarations

A declaration is kept under its canonical name, and the names of a context
are put in one order (`orders_precedes`).  What a declaration that is valid
has passed is said once, in `validate?_eq_some`.

A name is written as it is.  It is read as it was written if it is an
identifier without escapes (`isPlainName`), and those of the table are.
-/
import StyleTree.Declaration.Block
import StyleTree.Proofs.SortedMap
import StyleTree.Proofs.Token.First

namespace StyleTree

open ComponentValue

variable {g : ValueGrammar} {c : DeclarationContext}

/-! ## The canonical order -/

theorem Table.eq_of_rank? {i : Nat} {a b : String} (ha : rank? c a = some i) (hb : rank? c b = some i) :
    a = b := by
  obtain ⟨_, ha, -⟩ := List.findIdx?_eq_some_iff_getElem.mp ha
  obtain ⟨_, hb, -⟩ := List.findIdx?_eq_some_iff_getElem.mp hb
  exact (beq_iff_eq.mp ha).symm.trans (beq_iff_eq.mp hb)

/-- Names are put in one order, with those of the table in front. -/
theorem DeclarationContext.orders_precedes (c : DeclarationContext) : SortedMap.Orders c.precedes where
  irrefl a := by
    unfold precedes
    cases Table.rank? c a with
    | none => exact decide_eq_false (String.lt_irrefl a)
    | some i => exact decide_eq_false (Nat.lt_irrefl i)
  trans {a₁ a₂ a₃} h₁ h₂ := by
    unfold precedes at *
    generalize Table.rank? c a₁ = r₁ at *
    generalize Table.rank? c a₂ = r₂ at *
    generalize Table.rank? c a₃ = r₃ at *
    cases r₁ <;> cases r₂ <;> cases r₃ <;>
      simp only [decide_eq_true_eq, Bool.false_eq_true] at h₁ h₂ ⊢
    · exact String.lt_trans h₁ h₂
    · exact Nat.lt_trans h₁ h₂
  total {a₁ a₂} hne h := by
    unfold precedes at *
    cases h₁ : Table.rank? c a₁ <;> cases h₂ : Table.rank? c a₂ <;>
      simp only [h₁, h₂, decide_eq_false_iff_not, decide_eq_true_eq, Bool.true_eq_false] at h ⊢
    · by_cases hlt : a₂ < a₁
      · exact hlt
      · exact absurd (String.le_antisymm (String.not_lt.mp hlt) (String.not_lt.mp h)) hne
    · next i j =>
        rcases Nat.lt_or_eq_of_le (Nat.le_of_not_lt h) with hlt | rfl
        · exact hlt
        · exact absurd (Table.eq_of_rank? h₁ h₂) hne

/-! ## Canonical names -/

theorem toLower_eq_minus {c : Char} : c.toLower = '-' ↔ c = '-' := by
  rcases Nat.lt_or_ge c.toNat 128 with h | h
  · exact Scan.ascii_forall (P := fun c => c.toLower = '-' ↔ c = '-') (by decide +kernel) h
  · rw [toLower_of_le h]

/-- Two dashes are two dashes in any case. -/
theorem isCustomProperty_foldCase (name : String) :
    isCustomProperty (Text.foldCase name) = isCustomProperty name := by
  unfold isCustomProperty Text.beginsWith Text.foldCase
  rw [String.toList_ofList, Bool.eq_iff_iff, List.isPrefixOf_iff_prefix, List.isPrefixOf_iff_prefix]
  show ['-', '-'] <+: _ ↔ ['-', '-'] <+: _
  match name.toList with
  | [] => exact Iff.rfl
  | [a] => simp [List.cons_prefix_cons]
  | a :: b :: cs => simp [List.cons_prefix_cons, @eq_comm Char '-', toLower_eq_minus]

/-- A canonical name is its own canonical name. -/
theorem canonicalName_canonicalName (name : String) :
    canonicalName (canonicalName name) = canonicalName name := by
  unfold canonicalName
  by_cases h : isCustomProperty name = true
  · rw [if_pos h, if_pos h]
  · rw [if_neg h, isCustomProperty_foldCase, if_neg h, Text.foldCase_foldCase]

namespace ValueGrammar

variable {name : String} {vs : List ComponentValue} {important : Bool} {e : String × DeclaredValue}

/-- What a declaration that is valid has passed. -/
theorem validate?_eq_some : validate? g c name vs important = some e ↔
    e.1 = canonicalName name ∧ e.2.important = important ∧ knows c e.1 = true ∧
      (important = true → c.admitsImportance = true) ∧ g e.1 c vs = some e.2.text := by
  obtain ⟨n, t, i⟩ := e
  unfold validate?
  simp only
  constructor
  · intro h
    split at h
    · next hc =>
        obtain ⟨t', ht, he⟩ := Option.map_eq_some_iff.mp h
        cases he
        rw [Bool.and_eq_true] at hc
        refine ⟨rfl, rfl, hc.1, ?_, ht⟩
        rintro rfl
        exact hc.2
    · cases h
  · rintro ⟨rfl, rfl, hknown, himportant, ht⟩
    rw [hknown, ht, if_pos, Option.map_some]
    cases i with
    | false => rfl
    | true => exact himportant rfl

theorem canonicalName_of_validate? (h : validate? g c name vs important = some e) : canonicalName e.1 = e.1 := by
  rw [(validate?_eq_some.mp h).1, canonicalName_canonicalName]

end ValueGrammar

/-! ## Names as they are written -/

/-- The name is an identifier without escapes. -/
def isPlainName (name : String) : Bool :=
  Scan.startsIdentifier name.toList && name.toList.all Text.isPlainInName

theorem Table.isPlainName_properties : properties.all (isPlainName ·.name) = true := by
  decide +kernel

theorem Table.isPlainName_descriptors (c : DeclarationContext) :
    (descriptors c).all (isPlainName ·.1) = true := by
  cases c <;> decide +kernel

/-- The names of the table are plain. -/
theorem Table.isPlainName_of_isRecognized {name : String} (h : isRecognized c name = true) :
    isPlainName name = true := by
  obtain ⟨k, hk⟩ := Option.isSome_iff_exists.mp h
  obtain ⟨l₁, l₂, hl, -⟩ := List.lookup_eq_some_iff.mp hk
  have hmem : (name, k) ∈ entries c := hl ▸ List.mem_append_right _ List.mem_cons_self
  unfold entries at hmem
  split at hmem
  · obtain ⟨p, hp, he⟩ := List.mem_map.mp hmem
    cases he
    exact List.all_eq_true.mp isPlainName_properties p (List.mem_filter.mp hp).1
  · exact List.all_eq_true.mp (isPlainName_descriptors c) _ hmem

/-- A plain name in front of a colon is read as it is. -/
theorem next_of_isPlainName {name : String} (h : isPlainName name = true) (rest : List Char) :
    ∃ d ds, name.toList ++ ':' :: rest = d :: ds ∧
      Scan.next d ds = (some (.token (.ident name)), ':' :: rest) := by
  rw [isPlainName, Bool.and_eq_true, List.all_eq_true] at h
  obtain ⟨hstarts, hplain⟩ := h
  have hname : Scan.name (name.toList ++ ':' :: rest) = (name.toList, ':' :: rest) :=
    Scan.name_of_plain hplain ⟨rfl, by decide⟩
  obtain ⟨d, ds, hcs⟩ := List.exists_cons_of_ne_nil (l := name.toList) (by
    intro hnil
    rw [hnil] at hstarts
    cases hstarts)
  rw [hcs] at hstarts hplain hname
  have hstarts := Scan.startsIdentifier_append_of_plain hstarts (hplain d List.mem_cons_self) (':' :: rest)
  rw [List.cons_append] at hname hstarts
  refine ⟨d, ds ++ ':' :: rest, by rw [hcs, List.cons_append], ?_⟩
  rw [Scan.next_ident hstarts hname (by rintro ds ⟨⟩) (fun _ => by rintro ds ⟨⟩), ← hcs, String.ofList_toList]

end StyleTree
