/-
# `Proofs.Declaration.Maps` — a block of declarations is a map

A block is looked up and changed by halves: the place of a name is searched
for in the canonical order, and what is done is done at that place
(`lookUp`, `store`, `remove`).  This is sound because the comparison that
guides the search is a total order in which only equal names are equal
(`tells_compare`), and because every call leaves the entries sorted by it
(`IsCanonical`).

So a block is the map from canonical names to the values that its history
leaves standing: of the calls that concern a name the last one counts, be
it a value that was inserted, a declaration that was valid, or a removal.
Nothing else of the history is left in the block, not even the order of its
calls (`block_of_history`).
-/
import Mathlib.Data.List.Induction
import StyleTree.Proofs.Declaration.Names

namespace StyleTree

open SortedMap (Sorted Stands Tells)

/-! ## The comparison of names -/

/-- How two names compare in the canonical order of a context: those of the table come first, by their places,
then all others by code point. -/
def DeclarationContext.compare (c : DeclarationContext) (a b : String) : Ordering :=
  match Table.rank? c a, Table.rank? c b with
  | some i, some j => Ord.compare i j
  | some _, none => .lt
  | none, some _ => .gt
  | none, none => Ord.compare a b

/-- Names compare as they precede one another, and are equal only to themselves. -/
theorem DeclarationContext.tells_compare (c : DeclarationContext) (key : String) :
    Tells c.precedes key (c.compare · key) where
  lt {a} h := by
    unfold compare at h
    unfold precedes
    cases ha : Table.rank? c a <;> cases hk : Table.rank? c key <;> simp only [ha, hk] at h ⊢
    · exact decide_eq_true (compareOfLessAndEq_eq_lt.mp h)
    · cases h
    · exact decide_eq_true (Nat.compare_eq_lt.mp h)
  gt {a} h := by
    unfold compare at h
    unfold precedes
    cases ha : Table.rank? c a <;> cases hk : Table.rank? c key <;> simp only [ha, hk] at h ⊢
    · have hswap : Ord.compare key a = .lt := Std.OrientedCmp.gt_iff_lt.mp h
      exact decide_eq_true (compareOfLessAndEq_eq_lt.mp hswap)
    · cases h
    · exact decide_eq_true (Nat.compare_eq_gt.mp h)
  eq {a} h := by
    unfold compare at h
    cases ha : Table.rank? c a <;> cases hk : Table.rank? c key <;> simp only [ha, hk] at h
    · exact Std.LawfulEqCmp.eq_of_compare h
    · cases h
    · cases h
    · rw [Nat.compare_eq_eq.mp h] at ha
      exact Table.eq_of_rank? ha hk

namespace DeclarationBlock

variable {g : ValueGrammar} {c : DeclarationContext} {b : DeclarationBlock}

/-! ## Calls by halves -/

/-- Where a name stands in the block, or would have to be inserted. -/
def place (b : DeclarationBlock) (name : String) : Nat ⊕ Nat :=
  SortedMap.search (b.context.compare · (canonicalName name)) b.entries 0 b.entries.length (Nat.le_refl _)

/-- The value at the place of a name. -/
def lookUp (b : DeclarationBlock) (name : String) : Option DeclaredValue :=
  (b.place name).elim (fun i => b.entries[i]?.map (·.2)) fun _ => none

/-- The block with a value at the place of a name. -/
def store (b : DeclarationBlock) (name : String) (v : DeclaredValue) : DeclarationBlock :=
  { b with
    entries := (b.place name).elim (fun i => b.entries.set i (canonicalName name, v)) fun i =>
      b.entries.insertIdx i (canonicalName name, v) }

/-- The value at the place of a name, and the block without it. -/
def remove (b : DeclarationBlock) (name : String) : Option DeclaredValue × DeclarationBlock :=
  (b.place name).elim
    (fun i => (b.entries[i]?.map (·.2), { b with entries := b.entries.eraseIdx i })) fun _ => (none, b)

/-- The entries are sorted, and under canonical names. -/
structure IsCanonical (b : DeclarationBlock) : Prop where
  sorted : Sorted b.context.precedes b.entries
  canonical : ∀ e ∈ b.entries, canonicalName e.1 = e.1

theorem IsCanonical.stands_place (h : b.IsCanonical) (name : String) :
    Stands b.context.precedes (canonicalName name) b.entries (b.place name) :=
  SortedMap.stands_search b.context.orders_precedes h.sorted (b.context.tells_compare _) 0 _ _ (Nat.zero_le _)
    (fun _ _ hi => absurd hi (Nat.not_lt_zero _)) fun _ hi hlen => absurd hi (Nat.not_lt.mpr hlen)

theorem IsCanonical.lookUp_eq (h : b.IsCanonical) (name : String) : b.lookUp name = b.get? name :=
  ((h.stands_place name).find?_eq b.context.orders_precedes).symm

theorem IsCanonical.store_eq (h : b.IsCanonical) (name : String) (v : DeclaredValue) :
    b.store name v = b.insert name v := by
  rw [store, insert, (h.stands_place name).insert_eq b.context.orders_precedes]

theorem IsCanonical.remove_eq (h : b.IsCanonical) (name : String) :
    b.remove name = (b.get? name, b.erase name) := by
  rw [get?, erase, (h.stands_place name).find?_eq b.context.orders_precedes,
    (h.stands_place name).erase_eq b.context.orders_precedes h.sorted, remove]
  cases b.place name <;> rfl

/-! ## Runs of calls -/

/-- A call that is made of a block. -/
inductive Call where
  | insert (name : String) (v : DeclaredValue)
  | apply (d : WrittenDeclaration)
  | remove (name : String)

/-- The block behind a call. -/
def after (g : ValueGrammar) (b : DeclarationBlock) : Call → DeclarationBlock
  | .insert name v => b.insert name v
  | .apply d => (b.declare? g d).getD b
  | .remove name => b.erase name

/-- The block behind a run of calls. -/
def afterAll (g : ValueGrammar) (b : DeclarationBlock) (cs : List Call) : DeclarationBlock := cs.foldl (after g) b

/-- What a call leaves under a key: a value or none, if it concerns the key at all. -/
def Call.leaves? (g : ValueGrammar) (c : DeclarationContext) (key : String) : Call → Option (Option DeclaredValue)
  | .insert name v => if canonicalName name = key then some (some v) else none
  | .apply d =>
    (g.validate? c d.name d.value d.important).bind fun e => if e.1 = key then some (some e.2) else none
  | .remove name => if canonicalName name = key then some none else none

/-- The value that the last call which concerns a key has left there. -/
def standing (g : ValueGrammar) (c : DeclarationContext) (cs : List Call) (key : String) : Option DeclaredValue :=
  (cs.reverse.findSome? (Call.leaves? g c key)).join

theorem afterAll_concat (g : ValueGrammar) (b : DeclarationBlock) (cs : List Call) (call : Call) :
    b.afterAll g (cs ++ [call]) = (b.afterAll g cs).after g call :=
  List.foldl_append

theorem context_after (g : ValueGrammar) (b : DeclarationBlock) (call : Call) :
    (b.after g call).context = b.context := by
  cases call with
  | insert name v => rfl
  | remove name => rfl
  | apply d =>
      rw [after, declare?]
      cases g.validate? b.context d.name d.value d.important <;> rfl

theorem IsCanonical.insert (h : b.IsCanonical) (name : String) (v : DeclaredValue) :
    (b.insert name v).IsCanonical := by
  refine ⟨SortedMap.sorted_insert b.context.orders_precedes h.sorted _ v, fun e he => ?_⟩
  rcases SortedMap.mem_insert he with rfl | he
  · exact canonicalName_canonicalName name
  · exact h.canonical e he

/-- Every call keeps the entries sorted and their names canonical. -/
theorem IsCanonical.after (h : b.IsCanonical) (g : ValueGrammar) (call : Call) :
    (b.after g call).IsCanonical := by
  cases call with
  | insert name v => exact h.insert name v
  | remove name =>
      exact ⟨SortedMap.sorted_erase h.sorted _, fun e he => h.canonical e (List.mem_filter.mp he).1⟩
  | apply d =>
      rw [DeclarationBlock.after, declare?]
      cases g.validate? b.context d.name d.value d.important with
      | none => exact h
      | some e => exact h.insert e.1 e.2

theorem isCanonical_afterAll (g : ValueGrammar) (c : DeclarationContext) (cs : List Call) :
    ((empty c).afterAll g cs).IsCanonical ∧ ((empty c).afterAll g cs).context = c := by
  induction cs using List.reverseRecOn with
  | nil => exact ⟨⟨List.Pairwise.nil, List.forall_mem_nil _⟩, rfl⟩
  | append_singleton cs call ih =>
      rw [afterAll_concat]
      exact ⟨ih.1.after g call, (context_after g _ call).trans ih.2⟩

/-- A call changes what it leaves something under, and nothing else. -/
theorem find?_after (g : ValueGrammar) (b : DeclarationBlock) (call : Call) (key : String) :
    SortedMap.find? key (b.after g call).entries =
      (call.leaves? g b.context key).getD (SortedMap.find? key b.entries) := by
  have hinsert : ∀ (name : String) (v : DeclaredValue),
      SortedMap.find? key (SortedMap.insert b.context.precedes name v b.entries) =
        (if name = key then some (some v) else none).getD (SortedMap.find? key b.entries) := by
    intro name v
    by_cases hname : name = key
    · rw [if_pos hname, hname, SortedMap.find?_insert, Option.getD_some]
    · rw [if_neg hname, SortedMap.find?_insert_of_ne _ (Ne.symm hname), Option.getD_none]
  cases call with
  | insert name v => exact hinsert _ v
  | remove name =>
      rw [after, erase, Call.leaves?]
      by_cases hname : canonicalName name = key
      · rw [if_pos hname, hname, SortedMap.find?_erase, Option.getD_some]
      · rw [if_neg hname, SortedMap.find?_erase_of_ne (Ne.symm hname), Option.getD_none]
  | apply d =>
      rw [after, declare?, Call.leaves?]
      cases he : g.validate? b.context d.name d.value d.important with
      | none => rfl
      | some e =>
          have hname : canonicalName e.1 = e.1 := ValueGrammar.canonicalName_of_validate? he
          rw [Option.map_some, Option.getD_some, Option.bind_some, DeclarationBlock.insert, hname]
          exact hinsert e.1 e.2

/-- Behind a run of calls a key has what is left standing under it. -/
theorem find?_afterAll (g : ValueGrammar) (c : DeclarationContext) (cs : List Call) (key : String) :
    SortedMap.find? key ((empty c).afterAll g cs).entries = standing g c cs key := by
  induction cs using List.reverseRecOn with
  | nil => rfl
  | append_singleton cs call ih =>
      rw [afterAll_concat, find?_after, (isCanonical_afterAll g c cs).2, ih, standing,
        standing, List.reverse_concat, List.findSome?_cons]
      cases call.leaves? g c key <;> rfl

/-- Canonical blocks are the same if every name has the same value in them. -/
theorem IsCanonical.ext {b' : DeclarationBlock} (h : b.IsCanonical) (h' : b'.IsCanonical)
    (hc : b'.context = b.context) (hget : ∀ name, b'.get? name = b.get? name) : b' = b := by
  have hnone : ∀ {d : DeclarationBlock}, d.IsCanonical → ∀ key, canonicalName key ≠ key →
      SortedMap.find? key d.entries = none := by
    intro d hd key hkey
    cases hfind : SortedMap.find? key d.entries with
    | none => rfl
    | some v =>
        have hmem := (hd.sorted.mem_iff d.context.orders_precedes (e := (key, v))).mpr hfind
        exact absurd (hd.canonical _ hmem) hkey
  have hfind : ∀ key, SortedMap.find? key b'.entries = SortedMap.find? key b.entries := by
    intro key
    by_cases hkey : canonicalName key = key
    · have hget := hget key
      rwa [get?, get?, hkey] at hget
    · rw [hnone h' key hkey, hnone h key hkey]
  have hentries : b'.entries = b.entries :=
    Sorted.ext b.context.orders_precedes (hc ▸ h'.sorted) h.sorted hfind
  obtain ⟨context, entries⟩ := b
  obtain ⟨context', entries'⟩ := b'
  cases hc
  cases hentries
  rfl

/-- Whatever is called of an empty block, with any names: a name has the value that the last call which
concerns it has left, by a search by halves as well; a removal gives that value; the entries are strictly
sorted; and a run of calls that leaves the same values leaves the same block and the same text. -/
theorem block_of_history (g : ValueGrammar) (c : DeclarationContext) (cs : List Call) :
    let b := (empty c).afterAll g cs
    (∀ name, b.get? name = standing g c cs (canonicalName name) ∧ b.lookUp name = b.get? name) ∧
      (∀ name, b.remove name = (standing g c cs (canonicalName name), b.erase name)) ∧
      (∀ name v, b.store name v = b.insert name v) ∧
      Sorted c.precedes b.entries ∧
      ∀ ds, (∀ name, ((empty c).afterAll g ds).get? name = b.get? name) →
        (empty c).afterAll g ds = b ∧ ((empty c).afterAll g ds).text = b.text := by
  intro b
  obtain ⟨hb, hcontext⟩ := isCanonical_afterAll g c cs
  have hget : ∀ name, b.get? name = standing g c cs (canonicalName name) := fun name =>
    find?_afterAll g c cs (canonicalName name)
  refine ⟨fun name => ⟨hget name, hb.lookUp_eq name⟩, fun name => ?_, hb.store_eq, ?_, fun ds hds => ?_⟩
  · rw [hb.remove_eq, hget]
  · exact hcontext ▸ hb.sorted
  · obtain ⟨hd, hcontext'⟩ := isCanonical_afterAll g c ds
    have heq : (empty c).afterAll g ds = b := hb.ext hd (hcontext'.trans hcontext.symm) hds
    exact ⟨heq, by rw [heq]⟩

example : ((empty .style).afterAll .basic [.insert "TOP" ⟨"1px", false⟩, .insert "--b" ⟨"2", false⟩,
    .remove "--B", .insert "Color" ⟨"red", true⟩]).text = "color: red !important; top: 1px; --b: 2;" := by
  decide +kernel

end DeclarationBlock

end StyleTree
