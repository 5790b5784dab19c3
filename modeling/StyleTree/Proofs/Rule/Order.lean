/-
# `Proofs.Rule.Order` — which lists of kinds keep the order

`Zone.advance` reads the kinds at the top level from the front and keeps in
mind how far they have come.  Layer statements mean different things to
it by where they stand: among the imports nothing, behind a namespace the
end of the namespaces.  What it accepts can be said without a state: the
list falls into imports and layer statements, then namespaces, then
neither imports nor namespaces (`InOrder`).

`Rest s` is what may follow a zone, so that one step of `advance` takes one
kind off the front (`rest_cons`).  That a list stays in order when some of
its kinds are taken out is then seen from its three parts.

The rules of a text are read with such a zone in hand, so their kinds are
accepted from the zone on in which reading begins (`behind_sheet`).
-/
import StyleTree.Proofs.Rule.Growth
import StyleTree.Proofs.Rule.Reading
import Mathlib.Data.List.Basic

namespace StyleTree.Zone

variable {s z : Zone} {k : RuleKind} {ks ls : List RuleKind}

/-! ## The order in parts -/

/-- Neither imports nor namespaces. -/
def Body (ks : List RuleKind) : Prop := ∀ k ∈ ks, k ≠ .importRule ∧ k ≠ .namespaceRule

/-- Namespaces, then neither imports nor namespaces. -/
def Declared (ks : List RuleKind) : Prop :=
  ∃ n b, ks = n ++ b ∧ (∀ k ∈ n, k = .namespaceRule) ∧ Body b

/-- Imports and layer statements, then namespaces, then neither imports nor namespaces. -/
def InOrder (ks : List RuleKind) : Prop :=
  ∃ p n b, ks = p ++ n ++ b ∧ (∀ k ∈ p, k = .importRule ∨ k = .layerStatement) ∧
    (∀ k ∈ n, k = .namespaceRule) ∧ Body b

theorem inOrder_iff :
    InOrder ks ↔ ∃ p r, ks = p ++ r ∧ (∀ k ∈ p, k = .importRule ∨ k = .layerStatement) ∧ Declared r := by
  constructor
  · rintro ⟨p, n, b, rfl, hp, hn, hb⟩
    exact ⟨p, n ++ b, List.append_assoc p n b, hp, n, b, rfl, hn, hb⟩
  · rintro ⟨p, _, rfl, hp, n, b, rfl, hn, hb⟩
    exact ⟨p, n, b, (List.append_assoc p n b).symm, hp, hn, hb⟩

/-- Kinds may be taken out. -/
theorem InOrder.sublist (h : InOrder ks) (hs : ls.Sublist ks) : InOrder ls := by
  obtain ⟨p, n, b, rfl, hp, hn, hb⟩ := h
  obtain ⟨pn', b', rfl, hpn', hb'⟩ := List.sublist_append_iff.mp hs
  obtain ⟨p', n', rfl, hp', hn'⟩ := List.sublist_append_iff.mp hpn'
  exact ⟨p', n', b', rfl, fun k hk => hp k (hp'.subset hk), fun k hk => hn k (hn'.subset hk),
    fun k hk => hb k (hb'.subset hk)⟩

/-! ## What may follow a zone -/

/-- The kinds that may follow a zone. -/
def Rest : Zone → List RuleKind → Prop
  | start, ks => InOrder ks
  | imports, ks => InOrder ks
  | namespaces, ks => Declared ks
  | body, ks => Body ks

theorem body_cons : Body (k :: ks) ↔ (k ≠ .importRule ∧ k ≠ .namespaceRule) ∧ Body ks :=
  List.forall_mem_cons

theorem declared_cons :
    Declared (k :: ks) ↔ k = .namespaceRule ∧ Declared ks ∨ Body (k :: ks) := by
  constructor
  · rintro ⟨n, b, h, hn, hb⟩
    cases n with
    | nil => exact Or.inr ((List.nil_append b ▸ h) ▸ hb)
    | cons k' n =>
        obtain ⟨rfl, rfl⟩ := List.cons_eq_cons.mp h
        rw [List.forall_mem_cons] at hn
        exact Or.inl ⟨hn.1, n, b, rfl, hn.2, hb⟩
  · rintro (⟨rfl, n, b, rfl, hn, hb⟩ | hb)
    · exact ⟨.namespaceRule :: n, b, rfl, List.forall_mem_cons.mpr ⟨rfl, hn⟩, hb⟩
    · exact ⟨[], k :: ks, rfl, by simp, hb⟩

theorem inOrder_cons :
    InOrder (k :: ks) ↔ (k = .importRule ∨ k = .layerStatement) ∧ InOrder ks ∨ Declared (k :: ks) := by
  simp only [inOrder_iff]
  constructor
  · rintro ⟨p, r, h, hp, hr⟩
    cases p with
    | nil => exact Or.inr ((List.nil_append r ▸ h) ▸ hr)
    | cons k' p =>
        obtain ⟨rfl, rfl⟩ := List.cons_eq_cons.mp h
        rw [List.forall_mem_cons] at hp
        exact Or.inl ⟨hp.1, p, r, rfl, hp.2, hr⟩
  · rintro (⟨hk, p, r, rfl, hp, hr⟩ | hr)
    · exact ⟨k :: p, r, rfl, List.forall_mem_cons.mpr ⟨hk, hp⟩, hr⟩
    · exact ⟨[], k :: ks, rfl, by simp, hr⟩

/-- Without namespaces and imports there is nothing to keep in order. -/
theorem Body.declared (h : Body ks) : Declared ks := ⟨[], ks, rfl, by simp, h⟩

theorem Body.inOrder (h : Body ks) : InOrder ks := inOrder_iff.mpr ⟨[], ks, rfl, by simp, h.declared⟩

/-- Among the imports a layer statement changes nothing. -/
theorem inOrder_cons_layer : InOrder (.layerStatement :: ks) ↔ InOrder ks := by
  rw [inOrder_cons]
  constructor
  · rintro (h | h)
    · exact h.2
    · rw [declared_cons, body_cons] at h
      rcases h with ⟨hk, -⟩ | h
      · cases hk
      · exact h.2.inOrder
  · intro h
    exact Or.inl ⟨Or.inr rfl, h⟩

/-- A kind that is in no zone of its own begins the body. -/
theorem advance_other (s : Zone) (hi : k ≠ .importRule) (hn : k ≠ .namespaceRule)
    (hl : k ≠ .layerStatement) : s.advance k = some body := by
  cases k <;> first | rfl | contradiction

theorem rest_cons (s : Zone) : Rest s (k :: ks) ↔ ∃ z, s.advance k = some z ∧ Rest z ks := by
  by_cases hi : k = .importRule
  · subst hi
    cases s <;> simp [Rest, advance, beforeNamespaces, inOrder_cons, declared_cons, body_cons]
  by_cases hn : k = .namespaceRule
  · subst hn
    cases s <;> simp [Rest, advance, beforeBody, inOrder_cons, declared_cons, body_cons]
  by_cases hl : k = .layerStatement
  · subst hl
    cases s <;>
      simp [Rest, advance, beforeNamespaces, inOrder_cons_layer, declared_cons, body_cons]
  · rw [advance_other s hi hn hl]
    cases s <;> simp [Rest, inOrder_cons, declared_cons, body_cons, hi, hn, hl]

/-! ## Reading a list -/

/-- The zone behind a list of kinds; none if one of them comes too late. -/
def behind (s : Option Zone) (ks : List RuleKind) : Option Zone :=
  ks.foldl (fun s k => s.bind (·.advance k)) s

theorem behind_append (s : Option Zone) (ks ls : List RuleKind) :
    behind s (ks ++ ls) = behind (behind s ks) ls :=
  List.foldl_append

theorem behind_cons (s : Zone) (k : RuleKind) (ks : List RuleKind) :
    behind (some s) (k :: ks) = behind (s.advance k) ks := rfl

theorem behind_none (ks : List RuleKind) : behind none ks = none := by
  induction ks with
  | nil => rfl
  | cons k ks ih => exact ih

/-- From any zone, exactly what may follow it is read to the end. -/
theorem behind_isSome_iff (s : Zone) : (behind (some s) ks).isSome = true ↔ Rest s ks := by
  induction ks generalizing s with
  | nil =>
      have hbody : Body [] := fun k hk => by cases hk
      refine iff_of_true rfl ?_
      cases s with
      | start | imports => exact hbody.inOrder
      | namespaces => exact hbody.declared
      | body => exact hbody
  | cons k ks ih =>
      rw [behind_cons, rest_cons]
      cases s.advance k with
      | none => simp [behind_none]
      | some z => simp [ih]

/-- The state machine accepts exactly the lists that fall into the three parts. -/
theorem accepts_iff_inOrder (ks : List RuleKind) : accepts ks = true ↔ InOrder ks :=
  behind_isSome_iff start

/-- A kind is accepted behind a list exactly if the zone there admits it. -/
theorem accepts_concat_iff (h : behind (some start) ks = some z) :
    accepts (ks ++ [k]) = true ↔ ∃ z', z.advance k = some z' := by
  have hacc : accepts (ks ++ [k]) = (behind (some start) (ks ++ [k])).isSome := rfl
  rw [hacc, behind_append, h, Option.isSome_iff_exists]
  rfl

/-! ## Where the body begins -/

theorem behind_body (h : behind (some body) ks = some z) : z = body := by
  induction ks with
  | nil =>
      cases h
      rfl
  | cons k ks ih =>
      rw [behind_cons] at h
      cases ha : advance body k with
      | none =>
          rw [ha, behind_none] at h
          cases h
      | some z' =>
          obtain rfl : z' = body := by
            unfold advance at ha
            split at ha <;> simp_all [beforeNamespaces, beforeBody]
          rw [ha] at h
          exact ih h

/-- As long as the body has not begun there are only kinds that may stand before a namespace rule. -/
theorem isPrologue_of_behind (h : behind (some s) ks = some z) (hz : z.beforeBody = true) :
    ∀ k ∈ ks, Sheet.isPrologue k = true := by
  induction ks generalizing s with
  | nil =>
      intro k hk
      cases hk
  | cons k ks ih =>
      rw [behind_cons] at h
      cases ha : s.advance k with
      | none =>
          rw [ha, behind_none] at h
          cases h
      | some z' =>
          rw [ha] at h
          refine List.forall_mem_cons.mpr ⟨?_, ih h⟩
          by_contra hk
          have hbody : s.advance k = some body := by
            refine advance_other s ?_ ?_ ?_ <;> rintro rfl <;> exact hk rfl
          rw [ha, Option.some.injEq] at hbody
          rw [hbody] at h
          rw [behind_body h] at hz
          cases hz

/-! ## The rules of a text -/

theorem behind_sheet (o : ReadOptions) (imports : Bool) (items : List Item) : ∀ z ns,
    (behind (some z) ((Draft.sheet o imports z ns items).1.map fun d => d.value.kind)).isSome = true := by
  induction items with
  | nil =>
      intro z ns
      rfl
  | cons item items ih =>
      intro z ns
      cases item with
      | declaration d => exact ih z ns
      | rule st =>
          cases hr : st.readTop? imports z ns with
          | none =>
              rw [Draft.sheet_of_none hr]
              exact ih z ns
          | some found =>
              obtain ⟨head, z'⟩ := found
              obtain ⟨-, -, hz⟩ := Statement.readTop?_eq_some.mp hr
              rw [Draft.sheet_of_some hr, List.map_cons, Draft.kind_ofStatement, behind_cons, hz]
              exact ih z' (head.declare ns)

/-- Without imports no rule of a text is one. -/
theorem no_import_sheet {o : ReadOptions} {ns : Namespaces} {items : List Item} {d : Draft}
    (hd : d ∈ (Draft.sheet o false z ns items).1) : d.value.kind ≠ .importRule := by
  obtain ⟨st, head, z', ns', z'', -, hr, rfl⟩ := Draft.mem_sheet hd
  rw [Draft.kind_ofStatement]
  exact fun hk => (Statement.readTop?_eq_some.mp hr).2.1 ⟨hk, rfl⟩

end StyleTree.Zone
