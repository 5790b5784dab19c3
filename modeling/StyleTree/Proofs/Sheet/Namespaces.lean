/-
# `Proofs.Sheet.Namespaces` — the table and the rules that declare it

A sheet keeps a table of its namespaces beside the rules that declare them.
The two are in step if the table is what the rules at the top level make,
read from the front.  They need not be:

    a sheet is read, or replaced      the table is read along, in step
    a namespace rule is deleted       the table is made anew, in step
    a namespace rule is inserted      it is registered behind all others,
                                      wherever it stands

so a rule put in front of others is in its place in the list, and in the
last place in the table.  `inStep_perform_iff` has the exact condition
under which this shows, and `namespaces_agree_iff` the same for runs.
Whatever happens, table and rules have the same prefixes (`Tracks`).
-/
import StyleTree.Proofs.Namespaces
import StyleTree.Proofs.Rule.Contexts
import StyleTree.Proofs.Sheet.Invariants
import StyleTree.Proofs.Sheet.Lock

namespace StyleTree

open StyleTree.Tree (root idsOf adjustAll graftAll pruneAll bareAll)
open Namespaces (Declaration)

/-! ## What rules declare -/

def RuleHead.declaration? : RuleHead → Option Declaration
  | .namespaceRule n u => some (n, u)
  | _ => none

theorem RuleHead.declaration?_eq_none {head : RuleHead} (h : head.kind ≠ .namespaceRule) :
    head.declaration? = none := by
  cases head <;> first | rfl | exact absurd rfl h

theorem RuleHead.declare_of_none {head : RuleHead} (h : head.declaration? = none)
    (ns : Namespaces) : head.declare ns = ns := by
  cases head <;> first | rfl | cases h

theorem RuleHead.declare_of_some {head : RuleHead} {d : Declaration} (h : head.declaration? = some d)
    (ns : Namespaces) : head.declare ns = ns.register d.1 d.2 := by
  cases head <;> cases h
  rfl

/-- What is in the block of a rule has no part in what it declares. -/
theorem Draft.declaration?_ofStatement (o : ReadOptions) (ns : Namespaces) (c : RuleContext)
    (head : RuleHead) (st : Statement) :
    (ofStatement o ns c head st).value.head.declaration? = head.declaration? := by
  rcases Draft.head_ofStatement o ns c head st with hd | ⟨m, m', hm, hd⟩
  · rw [hd]
  · rw [hd, hm]
    rfl

/-- What the roots of trees declare, in order. -/
def Tree.declarations (ts : List (Tree (RuleId × Rule))) : List Declaration :=
  ts.filterMap fun t => t.value.2.head.declaration?

theorem Tree.declarations_cons (t : Tree (RuleId × Rule)) (ts : List (Tree (RuleId × Rule))) :
    declarations (t :: ts) = t.value.2.head.declaration?.toList ++ declarations ts := by
  rw [declarations, List.filterMap_cons]
  cases t.value.2.head.declaration? <;> rfl

theorem Tree.declarations_append (ts us : List (Tree (RuleId × Rule))) :
    declarations (ts ++ us) = declarations ts ++ declarations us :=
  List.filterMap_append

namespace Sheet

open StyleTree.Tree (declarations)

variable {s t : Sheet} {ts us : List (Tree (RuleId × Rule))} {e : Edit} {id : RuleId} {ns : Namespaces}

/-- What the rules with these ids declare, in order. -/
def declarationsOf (s : Sheet) (ids : List RuleId) : List Declaration :=
  ids.filterMap fun id => (s.rule? id).bind fun r => r.head.declaration?

/-- The table is that of the rules. -/
def InStep (s : Sheet) : Prop := s.namespaces = s.declaredNamespaces

theorem foldl_declare (rs : List Rule) (ns : Namespaces) :
    rs.foldl (fun ns r => r.head.declare ns) ns =
      ns.registerAll (rs.filterMap fun r => r.head.declaration?) := by
  induction rs generalizing ns with
  | nil => rfl
  | cons r rs ih =>
      rw [List.foldl_cons, ih, List.filterMap_cons]
      cases hd : r.head.declaration? with
      | none => rw [RuleHead.declare_of_none hd]
      | some d => rw [RuleHead.declare_of_some hd, Namespaces.registerAll_cons]

theorem declaredBy_eq (ts : List (Tree (RuleId × Rule))) :
    declaredBy (tops ts) = Namespaces.ofList (declarations ts) := by
  rw [declaredBy, foldl_declare, tops, List.filterMap_map]
  rfl

theorem Planted.declaredNamespaces_eq_ofList (h : s.Planted ts) :
    s.declaredNamespaces = Namespaces.ofList (declarations ts) := by
  rw [h.declaredNamespaces_eq, declaredBy_eq]

theorem Planted.inStep_iff (h : s.Planted ts) :
    s.InStep ↔ s.namespaces = Namespaces.ofList (declarations ts) := by
  rw [InStep, h.declaredNamespaces_eq_ofList]

theorem Planted.declarationsOf_eq (h : s.Planted ts) (hus : us ⊆ ts) :
    s.declarationsOf (us.map root) = declarations us := by
  rw [declarationsOf, List.filterMap_map, declarations]
  refine List.filterMap_congr fun t ht => ?_
  rw [Function.comp_apply, h.rule?_root (hus ht), Option.bind_some]

/-! ## What becomes of the declarations -/

theorem Grown.declaration?_eq {c : RuleContext} {head : RuleHead} {st : Statement}
    {w : Tree (RuleId × Rule)} (h : s.Grown c head st w) :
    w.value.2.head.declaration? = head.declaration? := by
  rw [← Tree.value_bare, h.bare, Draft.value_tree]
  exact Draft.declaration?_ofStatement _ _ c head st

/-- No edit changes what a rule declares. -/
theorem Revision.declaration?_eq {r r' : Rule} (h : s.Revision e id r r') :
    r'.head.declaration? = r.head.declaration? := by
  have hkind := h.kind_eq.1
  by_cases hk : r.kind = .namespaceRule
  · cases h with
    | blank _ _ => rfl
    | declared _ _ => rfl
    | removed _ => rfl
    | selectors hsel =>
        rw [selectorsOf, hk] at hsel
        cases hsel
    | key h _ => cases hk.symm.trans h
    | keyframesName h _ => cases hk.symm.trans h
    | counterStyleName h _ => cases hk.symm.trans h
    | feature _ h _ => cases hk.symm.trans (congrArg RuleHead.kind h)
    | noFeature _ h => cases hk.symm.trans (congrArg RuleHead.kind h)
  · rw [RuleHead.declaration?_eq_none hk, RuleHead.declaration?_eq_none]
    intro h'
    exact hk (hkind.symm.trans h')

theorem declarations_adjustAll (h : s.Planted ts) {r : Rule} {f : Rule → Rule}
    (hr : s.rule? id = some r) (hf : (f r).head.declaration? = r.head.declaration?) :
    declarations (adjustAll id f ts) = declarations ts := by
  rw [Tree.adjustAll_eq_map, declarations, List.filterMap_map, declarations]
  refine List.filterMap_congr fun t ht => ?_
  rw [Function.comp_apply, Tree.value_adjust]
  split
  · next hid =>
      have hroot := h.rule?_root ht
      rw [hid, hr, Option.some.injEq] at hroot
      rw [← hroot, hf]
  · rfl

theorem declarations_graftAll (id : RuleId) (n : Nat) (w : Tree (RuleId × Rule))
    (ts : List (Tree (RuleId × Rule))) : declarations (graftAll id n w ts) = declarations ts := by
  rw [Tree.graftAll_eq_map, declarations, List.filterMap_map, declarations]
  refine List.filterMap_congr fun t _ => ?_
  rw [Function.comp_apply, Tree.value_graft]

/-- Cutting off a rule that declares nothing, wherever it stands. -/
theorem declarations_pruneAll (h : ∀ t ∈ ts, t.root = id → t.value.2.head.declaration? = none) :
    declarations (pruneAll id ts) = declarations ts := by
  rw [Tree.pruneAll_eq_map, declarations, List.filterMap_map, List.filterMap_filter, declarations]
  refine List.filterMap_congr fun t ht => ?_
  by_cases hid : t.root = id
  · rw [if_neg (by simpa using hid), h t ht hid]
  · rw [if_pos (by simpa using hid), Function.comp_apply, Tree.value_prune]

theorem insertIdx_eq_take_append {α : Type} {x : α} : ∀ {l : List α} {i : Nat}, i ≤ l.length →
    l.insertIdx i x = l.take i ++ x :: l.drop i
  | l, 0, _ => rfl
  | [], i + 1, h => by cases h
  | y :: l, i + 1, h => by
      have ih := insertIdx_eq_take_append (x := x) (Nat.le_of_succ_le_succ h)
      rw [List.insertIdx_succ_cons, ih, List.take_succ_cons, List.drop_succ_cons, List.cons_append]

theorem declarations_insertIdx {w : Tree (RuleId × Rule)} {i : Nat} (hi : i ≤ ts.length) :
    declarations (ts.insertIdx i w) =
      declarations (ts.take i) ++ (w.value.2.head.declaration?.toList ++ declarations (ts.drop i)) := by
  rw [insertIdx_eq_take_append hi, Tree.declarations_append, Tree.declarations_cons]

/-- The table that is read along with rules is that of the rules. -/
theorem namespaces_sheet (o : ReadOptions) (imports : Bool) (items : List Item) :
    ∀ zone ns, (Draft.sheet o imports zone ns items).2 =
      ns.registerAll
        ((Draft.sheet o imports zone ns items).1.filterMap fun d => d.value.head.declaration?) := by
  induction items with
  | nil =>
      intro zone ns
      rfl
  | cons item items ih =>
      intro zone ns
      cases item with
      | declaration d => exact ih zone ns
      | rule st =>
          cases hread : st.readTop? imports zone ns with
          | none =>
              rw [Draft.sheet_of_none hread]
              exact ih zone ns
          | some found =>
              obtain ⟨head, zone'⟩ := found
              rw [Draft.sheet_of_some hread]
              simp only [List.filterMap_cons]
              rw [ih, Draft.declaration?_ofStatement]
              cases hd : head.declaration? with
              | none => rw [RuleHead.declare_of_none hd]
              | some d => rw [RuleHead.declare_of_some hd, Namespaces.registerAll_cons]

theorem declarations_eq_bareAll (ts : List (Tree (RuleId × Rule))) :
    declarations ts = (bareAll ts).filterMap fun t => t.value.head.declaration? := by
  rw [Tree.bareAll_eq_map, List.filterMap_map, declarations]
  refine List.filterMap_congr fun t _ => ?_
  rw [Function.comp_apply, Tree.value_bare]

theorem declarations_of_bare {ds : List Draft} (h : bareAll us = ds.map Draft.tree) :
    declarations us = ds.filterMap fun d => d.value.head.declaration? := by
  rw [declarations_eq_bareAll, h, List.filterMap_map]
  refine List.filterMap_congr fun d _ => ?_
  rw [Function.comp_apply, Draft.value_tree]

/-- What a text declares is what its rules declare. -/
theorem namespaces_ofText {o : ReadOptions} {imports : Bool} {text : String}
    (h : bareAll us = (Draft.ofText o imports text).1.map Draft.tree) :
    (Draft.ofText o imports text).2 = Namespaces.ofList (declarations us) := by
  rw [declarations_of_bare h, Namespaces.ofList_eq]
  exact namespaces_sheet o imports _ .start .empty

/-! ## Sheets in step -/

theorem inStep_empty (c : HostSettings) : (empty c).InStep := rfl

theorem inStep_read (c : HostSettings) (text : String) : (read c text).InStep := by
  obtain ⟨us, hus, hbare⟩ := planted_read c text
  rw [hus.inStep_iff]
  exact namespaces_ofText hbare

theorem inStep_commit (hf : s.IsForest) (text : String) : (s.commit text).InStep := by
  obtain ⟨ts, hs⟩ := hf
  obtain ⟨us, hus, hbare, -⟩ := hs.commit text
  rw [hus.inStep_iff]
  exact namespaces_ofText hbare

/-! ## Edits on table and rules -/

/-- What an edit that succeeds makes of the table and of the rules at the top level. -/
inductive Redeclaration (s : Sheet) (ts : List (Tree (RuleId × Rule))) :
    Edit → Namespaces → List (Tree (RuleId × Rule)) → Prop
  | kept {e : Edit} {us : List (Tree (RuleId × Rule))} : (∀ text i, e ≠ .insert .top text i) →
      declarations us = declarations ts → Redeclaration s ts e s.namespaces us
  | settled {e : Edit} {us : List (Tree (RuleId × Rule))} : (∀ text i, e ≠ .insert .top text i) →
      Redeclaration s ts e (Namespaces.ofList (declarations us)) us
  | blank {text : String} {i : Nat} {w : Tree (RuleId × Rule)} : i ≤ ts.length →
      w.value.2.head.declaration? = none →
      Redeclaration s ts (.insert .top text i) s.namespaces (ts.insertIdx i w)
  | declared {text : String} {i : Nat} {w : Tree (RuleId × Rule)} {d : Declaration} : i ≤ ts.length →
      w.value.2.head.declaration? = some d →
      Redeclaration s ts (.insert .top text i) (s.namespaces.register d.1 d.2) (ts.insertIdx i w)

/-- No list below the top level admits a namespace rule. -/
theorem blockContext_ne_namespaceRule {r : Rule} {k : RuleKind}
    (h : r.blockContext.allows k = true) : k ≠ .namespaceRule := by
  intro hk
  exact RuleKind.blockContext_ne_stylesheet _ _ (RuleContext.eq_stylesheet_of_allows (Or.inr hk) h)

theorem Reshape.redeclaration (h : Reshape s ts e ns us) (hs : s.Planted ts) :
    Redeclaration s ts e ns us := by
  cases h with
  | ignored he =>
      refine .kept ?_ rfl
      rintro text i rfl
      exact he
  | revised hr hrev =>
      refine .kept ?_ (declarations_adjustAll hs hr hrev.declaration?_eq)
      rintro text i rfl
      cases hrev
  | @listed text i st head w hi hst hadmits hg =>
      have hw := hg.declaration?_eq
      cases hd : head.declaration? with
      | none =>
          rw [RuleHead.declare_of_none hd]
          exact .blank hi (hw.trans hd)
      | some d =>
          rw [RuleHead.declare_of_some hd]
          exact .declared hi (hw.trans hd)
  | grafted he _ _ hg _ =>
      have hread := (Statement.read_eq_ok.mp hg.read).2.1
      have hnone := RuleHead.declaration?_eq_none (blockContext_ne_namespaceRule hread)
      rw [RuleHead.declare_of_none hnone]
      exact .kept he (declarations_graftAll _ _ _ ts)
  | founded _ _ _ _ _ =>
      exact .kept (fun text i he => by cases he) (declarations_graftAll _ _ _ ts)
  | @cut _ id r he hr _ =>
      by_cases hk : r.kind = .namespaceRule
      · rw [if_pos hk, declaredBy_eq]
        exact .settled he
      · rw [if_neg hk]
        refine .kept he (declarations_pruneAll fun t ht hid => ?_)
        have hroot := hs.rule?_root ht
        rw [hid, hr, Option.some.injEq] at hroot
        rw [← hroot]
        exact RuleHead.declaration?_eq_none hk
  | replaced hbare =>
      rw [namespaces_ofText hbare]
      exact .settled fun text i he => by cases he

/-- The edit puts a rule at an index of the top level which declares a namespace. -/
structure Declares (s : Sheet) (e : Edit) (i : Nat) (d : Declaration) : Prop where
  insert : ∃ text, e = .insert .top text i
  ok : ∃ o, (s.run (perform e)).1 = .ok o
  rule : ∃ id r, (s.run (perform e)).2.rules[i]? = some id ∧
    (s.run (perform e)).2.rule? id = some r ∧ r.head.declaration? = some d

/-- The edit puts a namespace rule in front of others, and it does make a difference that in the table
it comes behind them. -/
def Misdeclares (s : Sheet) (e : Edit) : Prop :=
  ∃ i d, s.Declares e i d ∧
    ¬ (Namespaces.ofList (s.declarationsOf (s.rules.take i))).Commutes d
      (s.declarationsOf (s.rules.drop i))

/-- The rule at an index of the top level is the root of the tree there. -/
theorem Planted.declares_iff {text : String} {i j : Nat} {w : Tree (RuleId × Rule)} {d : Declaration}
    {o : Outcome} (hrun : s.run (perform (.insert .top text i)) = (.ok o, t))
    (ht : t.Planted (ts.insertIdx i w)) (hi : i ≤ ts.length) :
    s.Declares (.insert .top text i) j d ↔ j = i ∧ w.value.2.head.declaration? = some d := by
  have hget : t.rules[i]? = some w.root := by
    rw [← ht.roots, List.getElem?_map, List.getElem?_insertIdx_self, if_pos hi]
    rfl
  have hrule : t.rule? w.root = some w.value.2 :=
    ht.rule?_root ((List.mem_insertIdx hi).mpr (Or.inl rfl))
  constructor
  · rintro ⟨⟨text', he⟩, -, id, r, hid, hr, hd⟩
    cases he
    rw [hrun] at hid hr
    rw [hget, Option.some.injEq] at hid
    rw [← hid, hrule, Option.some.injEq] at hr
    exact ⟨rfl, hr ▸ hd⟩
  · rintro ⟨rfl, hd⟩
    refine ⟨⟨text, rfl⟩, ⟨o, by rw [hrun]⟩, w.root, w.value.2, ?_⟩
    rw [hrun]
    exact ⟨hget, hrule, hd⟩

theorem not_misdeclares (he : ∀ text i, e ≠ .insert .top text i) : ¬ s.Misdeclares e := by
  rintro ⟨i, d, ⟨⟨text, h⟩, -, -⟩, -⟩
  exact he text i h

theorem Planted.misdeclares_iff (hs : s.Planted ts) {text : String} {i : Nat}
    {w : Tree (RuleId × Rule)} {d : Declaration} {o : Outcome}
    (hrun : s.run (perform (.insert .top text i)) = (.ok o, t))
    (ht : t.Planted (ts.insertIdx i w)) (hi : i ≤ ts.length)
    (hd : w.value.2.head.declaration? = some d) :
    s.Misdeclares (.insert .top text i) ↔
      ¬ (Namespaces.ofList (declarations (ts.take i))).Commutes d (declarations (ts.drop i)) := by
  have htake : s.declarationsOf (s.rules.take i) = declarations (ts.take i) := by
    rw [← hs.roots, ← List.map_take]
    exact hs.declarationsOf_eq (List.take_subset i ts)
  have hdrop : s.declarationsOf (s.rules.drop i) = declarations (ts.drop i) := by
    rw [← hs.roots, ← List.map_drop]
    exact hs.declarationsOf_eq (List.drop_subset i ts)
  constructor
  · rintro ⟨j, d', hdec, hnot⟩
    obtain ⟨rfl, hd'⟩ := (Planted.declares_iff hrun ht hi).mp hdec
    rw [hd, Option.some.injEq] at hd'
    rwa [← hd', htake, hdrop] at hnot
  · intro hnot
    refine ⟨i, d, (Planted.declares_iff hrun ht hi).mpr ⟨rfl, hd⟩, ?_⟩
    rwa [htake, hdrop]

/-- An edit of a sheet that is in step leaves it so, exactly if it does not misdeclare. -/
theorem inStep_perform_iff (hf : s.IsForest) (hin : s.InStep) (e : Edit) :
    (s.run (perform e)).2.InStep ↔ ¬ s.Misdeclares e := by
  obtain ⟨ts, hs⟩ := hf
  rcases hs.perform_cases e with ⟨f, h⟩ | ⟨o, t, us, h, hus, hre⟩
  · refine iff_of_true (h ▸ hin) ?_
    rintro ⟨i, d, ⟨-, ⟨o, ho⟩, -⟩, -⟩
    rw [h] at ho
    cases ho
  · have hred := hre.redeclaration hs
    have hstep : (s.run (perform e)).2.InStep ↔
        t.namespaces = Namespaces.ofList (declarations us) := by
      rw [h]
      exact hus.inStep_iff
    rw [hs.inStep_iff] at hin
    rw [hstep]
    generalize t.namespaces = ns at hred ⊢
    cases hred with
    | kept he hd =>
        refine iff_of_true ?_ (not_misdeclares he)
        rw [hd, hin]
    | settled he => exact iff_of_true rfl (not_misdeclares he)
    | @blank text i w hi hw =>
        refine iff_of_true ?_ ?_
        · rw [declarations_insertIdx hi, hw, Option.toList_none, List.nil_append,
            ← Tree.declarations_append, List.take_append_drop, hin]
        · rintro ⟨j, d, hdec, -⟩
          have hd := ((Planted.declares_iff h hus hi).mp hdec).2
          rw [hw] at hd
          cases hd
    | @declared text i w d hi hd =>
        have hold : s.namespaces = (Namespaces.ofList (declarations (ts.take i))).registerAll
            (declarations (ts.drop i)) := by
          rw [hin, Namespaces.ofList_eq, Namespaces.ofList_eq, ← Namespaces.registerAll_append,
            ← Tree.declarations_append, List.take_append_drop]
        have hnew : Namespaces.ofList (declarations (ts.insertIdx i w)) =
            ((Namespaces.ofList (declarations (ts.take i))).register d.1 d.2).registerAll
              (declarations (ts.drop i)) := by
          rw [declarations_insertIdx hi, hd, Namespaces.ofList_eq, Namespaces.registerAll_append]
          rfl
        rw [hs.misdeclares_iff h hus hi hd, not_not, hold, hnew, eq_comm]
        exact Namespaces.register_comm_iff (Namespaces.nodup_ofList _)

/-! ## Table and rules always have the same names -/

/-- The table has the names that the rules declare, each once. -/
structure Tracks (ns : Namespaces) (ts : List (Tree (RuleId × Rule))) : Prop where
  nodup : ns.names.Nodup
  isSome_iff : ∀ name, (ns.uri? name).isSome = true ↔ name ∈ (declarations ts).map (·.1)

theorem tracks_ofList (ts : List (Tree (RuleId × Rule))) :
    Tracks (Namespaces.ofList (declarations ts)) ts :=
  ⟨Namespaces.nodup_ofList _, fun name => Namespaces.isSome_uri?_ofList name⟩

theorem Redeclaration.tracks (h : Redeclaration s ts e ns us) (ht : Tracks s.namespaces ts) :
    Tracks ns us := by
  obtain ⟨hnodup, hiff⟩ := ht
  cases h with
  | kept _ hd => exact ⟨hnodup, by rwa [hd]⟩
  | settled _ => exact tracks_ofList us
  | @blank text i w hi hw =>
      refine ⟨hnodup, ?_⟩
      rwa [declarations_insertIdx hi, hw, Option.toList_none, List.nil_append,
        ← Tree.declarations_append, List.take_append_drop]
  | @declared text i w d hi hd =>
      refine ⟨Namespaces.nodup_register d hnodup, fun name => ?_⟩
      have hold := hiff name
      rw [← List.take_append_drop i ts, Tree.declarations_append, List.map_append,
        List.mem_append] at hold
      rw [Namespaces.uri?_register, declarations_insertIdx hi, hd, List.map_append, List.mem_append]
      rw [Option.toList_some, List.singleton_append, List.map_cons, List.mem_cons]
      split
      · next heq => exact iff_of_true rfl (Or.inr (Or.inl heq.symm))
      · next hne =>
          rw [hold]
          exact or_congr_right ⟨Or.inr, fun h => h.resolve_left fun heq => hne heq.symm⟩

theorem invariant_tracks : Invariant fun _ => Tracks where
  empty _ := tracks_ofList []
  ofText hbare := by
    rw [namespaces_ofText hbare]
    exact tracks_ofList _
  switched _ h := h
  reshape hs h hre := (hre.redeclaration hs).tracks h

theorem Planted.sameNames (hs : s.Planted ts) (h : Tracks s.namespaces ts) :
    s.namespaces.SameNames s.declaredNamespaces := by
  rw [hs.declaredNamespaces_eq_ofList]
  refine Namespaces.sameNames_of_isSome h.nodup (Namespaces.nodup_ofList _) fun name => ?_
  rw [Bool.eq_iff_iff, h.isSome_iff name, Namespaces.isSome_uri?_ofList]

end Sheet

namespace SharedSheet

variable {σ τ : SharedSheet} {e : Event}

/-! ## Runs -/

theorem Turn.inStep_iff (h : σ.Turn e τ) (hf : σ.sheet.IsForest) (hin : σ.sheet.InStep) :
    τ.sheet.InStep ↔ ∀ ed, e = .edit ed → ¬ σ.sheet.Misdeclares ed := by
  cases h with
  | @edited ed =>
      simp only [Event.edit.injEq, forall_eq']
      exact Sheet.inStep_perform_iff hf hin ed
  | commits _ => exact iff_of_true (Sheet.inStep_commit hf _) fun ed he => by cases he
  | dropped _ => exact iff_of_true (Sheet.inStep_commit hf _) fun ed he => by cases he
  | _ => exact iff_of_true hin fun ed he => by cases he

theorem inStep_after_iff (hf : σ.sheet.IsForest) (hin : σ.sheet.InStep) (es : List Event) :
    (∀ n, (σ.after es n).sheet.InStep) ↔
      ∀ n e, es[n]? = some (.edit e) → ¬ (σ.after es n).sheet.Misdeclares e := by
  have hstep : ∀ n e, es[n]? = some e → (σ.after es n).sheet.InStep →
      ((σ.after es (n + 1)).sheet.InStep ↔
        ∀ ed, e = .edit ed → ¬ (σ.after es n).sheet.Misdeclares ed) := by
    intro n e he hn
    rw [after_succ he]
    exact (turn_step _ e).inStep_iff (isForest_after hf es n) hn
  constructor
  · intro hall n e he
    exact (hstep n _ he (hall n)).mp (hall (n + 1)) e rfl
  · intro hnot n
    induction n with
    | zero => exact hin
    | succ n ih =>
        cases he : es[n]? with
        | none =>
            rw [after_of_none he]
            exact ih
        | some e => exact (hstep n e he ih).mpr fun ed hed => hnot n ed (hed ▸ he)

/-- The event replaces the rules or deletes a namespace rule. -/
inductive Resettles (σ : SharedSheet) : Event → Prop
  | replaced {e : Event} : σ.Commits e → Resettles σ e
  | deleted {l : RuleList} {i : Nat} {o : Outcome} {ids : List RuleId} {context : RuleContext}
      {id : RuleId} {r : Rule} : (σ.edit (.delete l i)).1 = .ok o →
      σ.sheet.list l = .ok (ids, context) → ids[i]? = some id → σ.sheet.rule? id = some r →
      r.kind = .namespaceRule → Resettles σ (.edit (.delete l i))

/-- Whether table and rules were in step before or not. -/
theorem Resettles.inStep (h : σ.Resettles e) (hf : σ.sheet.IsForest) : (σ.step e).sheet.InStep := by
  cases h with
  | replaced hc =>
      obtain ⟨text, ht⟩ := hc.commit
      rw [ht]
      exact Sheet.inStep_commit hf text
  | @deleted l i o ids context id r ho hl hi hr hk =>
      have hchange := Sheet.change_of_ok (run_of_edit_ok ho)
      generalize (σ.step (.edit (.delete l i))).sheet = t at hchange ⊢
      cases hchange with
      | ignored he => exact he.elim
      | revised _ hrev => cases hrev
      | deleted hl' hi' hr' _ =>
          rw [hl, Except.ok.injEq, Prod.mk.injEq] at hl'
          rw [← hl'.1, hi, Option.some.injEq] at hi'
          rw [← hi', hr, Option.some.injEq] at hr'
          rw [Sheet.InStep, Sheet.settleNamespaces, if_pos (hr' ▸ hk)]
          rfl

/-- A run from a sheet that was just read or made keeps the table of namespaces in step with the rules
exactly if no edit of it misdeclares.  Where one does, the table still has the same prefixes as the
rules declare, and a replacement or the deletion of a namespace rule puts it in step again. -/
theorem namespaces_agree_iff (h : Initial σ) (es : List Event) :
    ((∀ n, (σ.after es n).sheet.InStep) ↔
        ∀ n e, es[n]? = some (.edit e) → ¬ (σ.after es n).sheet.Misdeclares e) ∧
      (∀ n, (σ.after es n).sheet.namespaces.SameNames (σ.after es n).sheet.declaredNamespaces) ∧
      ∀ n e, es[n]? = some e → (σ.after es n).Resettles e → (σ.after es (n + 1)).sheet.InStep := by
  have hinit : σ.sheet.IsForest ∧ σ.sheet.InStep := by
    cases h with
    | empty c => exact ⟨Sheet.isForest_empty c, Sheet.inStep_empty c⟩
    | read c text => exact ⟨Sheet.isForest_read c text, Sheet.inStep_read c text⟩
  obtain ⟨hf, hin⟩ := hinit
  refine ⟨inStep_after_iff hf hin es, fun n => ?_, fun n e he hr => ?_⟩
  · obtain ⟨ts, hs, ht⟩ := Sheet.invariant_tracks.of_reachable ⟨σ, es.take n, h, rfl⟩
    exact hs.sameNames ht
  · rw [after_succ he]
    exact hr.inStep (isForest_after hf es n)

/-- A sheet with one namespace, in front of which another declaration of it is put, and then deleted. -/
def redeclared : SharedSheet := ofSheet (Sheet.read .scripted "@namespace a url(x);")

def declaredInFront : List Event :=
  [.edit (.insert .top "@namespace a url(y);" 0), .edit (.delete .top 0)]

theorem namespaces_agree_iff_redeclared :
    (redeclared.after declaredInFront 1).sheet.namespaces.SameNames
        (redeclared.after declaredInFront 1).sheet.declaredNamespaces ∧
      (redeclared.after declaredInFront 2).sheet.InStep ∧
      ∃ n e, declaredInFront[n]? = some (.edit e) ∧ (redeclared.after declaredInFront n).sheet.Misdeclares e := by
  have h := namespaces_agree_iff (.read .scripted "@namespace a url(x);") declaredInFront
  refine ⟨h.2.1 1, by unfold Sheet.InStep; decide +kernel, ?_⟩
  by_contra hnone
  have hin : (redeclared.after declaredInFront 1).sheet.InStep :=
    h.1.mpr (fun n e he hm => hnone ⟨n, e, he, hm⟩) 1
  have hout : (redeclared.after declaredInFront 1).sheet.namespaces ≠
      (redeclared.after declaredInFront 1).sheet.declaredNamespaces := by decide +kernel
  exact hout hin

/-- The prefix stands for what the rule says that was inserted last, and not for what the last rule
says. -/
theorem namespaces_out_of_step :
    ¬ ∀ σ : SharedSheet, σ.Reachable → σ.sheet.namespaces = σ.sheet.declaredNamespaces := by
  intro h
  have hr : (redeclared.steps [.edit (.insert .top "@namespace a url(y);" 0)]).Reachable :=
    ⟨redeclared, _, .read _ _, rfl⟩
  have heq := h _ hr
  revert heq
  decide +kernel

end SharedSheet

end StyleTree
