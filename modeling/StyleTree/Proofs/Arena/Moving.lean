/-
# `Proofs.Arena.Moving` — what was moved is the tree it was

Moving a subtree erases its nodes here and adds a node with the same value
there for each of them.  `Proofs.Arena.Removal` says what is left here;
this file says what has come there: one more tree, which is the moved one
but for its ids (`moveSubtree_target`).

Of the target only its slots and versions are asked to be in order; how its
own nodes are linked is no matter, for none of them is touched (`Receives`).
While the children of a node are moved, each of them is a tree of its own
in the target.  Then the node takes them all at once (`Receives.adopt`).
-/
import StyleTree.Proofs.Arena.Removal
import StyleTree.Proofs.Rule.Growth

namespace StyleTree.Arena

open StyleTree.Tree (root idsOf bareAll)

variable {α : Type} {a b : Arena α}

/-! ## Two arenas with the same tree -/

mutual

/-- Where two arenas have the same tree they have the same nodes. -/
theorem Holds.get?_eq {q : Option RuleId} {k : RuleId} : ∀ {t : Tree (RuleId × α)}, Holds a q t →
    Holds b q t → k ∈ t.ids → b.get? k = a.get? k
  | .node e ts, ha, hb, hk => by
      rw [Tree.ids_node] at hk
      rcases List.mem_cons.mp hk with rfl | hk
      · rw [ha.get?, hb.get?]
      · exact HoldsAll.get?_eq ha.below hb.below hk

theorem HoldsAll.get?_eq {q : Option RuleId} {k : RuleId} : ∀ {ts : List (Tree (RuleId × α))},
    HoldsAll a q ts → HoldsAll b q ts → k ∈ idsOf ts → b.get? k = a.get? k
  | [], _, _, hk => absurd hk List.not_mem_nil
  | t :: ts, ha, hb, hk => by
      rw [HoldsAll] at ha hb
      rw [Tree.idsOf_cons] at hk
      rcases List.mem_append.mp hk with hk | hk
      · exact Holds.get?_eq ha.1 hb.1 hk
      · exact HoldsAll.get?_eq ha.2 hb.2 hk

end

/-! ## Taking over children -/

/-- The arena with another parent in some nodes. -/
def reparent (a : Arena α) (p : RuleId) (cs : List RuleId) : Arena α :=
  cs.foldl (fun t c => t.modify c ({ · with parent := some p })) a

theorem get?_reparent (p k : RuleId) : ∀ (cs : List RuleId) (a : Arena α),
    (a.reparent p cs).get? k =
      if k ∈ cs then (a.get? k).map ({ · with parent := some p }) else a.get? k
  | [], a => by rw [if_neg List.not_mem_nil]; rfl
  | c :: cs, a => by
      have hrest := get?_reparent p k cs (a.modify c ({ · with parent := some p }))
      rw [get?_modify] at hrest
      rw [reparent, List.foldl_cons]
      refine hrest.trans ?_
      by_cases hc : k = c
      · subst hc
        rw [if_pos rfl, if_pos List.mem_cons_self, Option.map_map]
        exact ite_self _
      · rw [if_neg hc]
        simp only [List.mem_cons, hc, false_or]

theorem ids_reparent (p : RuleId) : ∀ (cs : List RuleId) (a : Arena α), (a.reparent p cs).ids = a.ids
  | [], _ => rfl
  | c :: cs, a => (ids_reparent p cs _).trans (ids_modify a c _)

theorem evolves_reparent (a : Arena α) (p : RuleId) (cs : List RuleId) :
    Evolves a (a.reparent p cs) :=
  evolves_foldl _ (fun a c => evolves_modify a c _) cs a

/-- Trees whose roots got another parent, and nothing else. -/
theorem holdsAll_reparent {q : Option RuleId} {p : RuleId} {cs : List (Tree (RuleId × α))}
    (h : HoldsAll a q cs) (hn : (idsOf cs).Nodup)
    (hb : ∀ k ∈ idsOf cs, b.get? k = (a.reparent p (cs.map root)).get? k) : HoldsAll b (some p) cs := by
  refine holdsAll_iff.mpr fun c hc => ?_
  obtain ⟨e, us⟩ := c
  have hroot : e.1 ∈ cs.map root := List.mem_map.mpr ⟨_, hc, rfl⟩
  have ha := holdsAll_iff.mp h _ hc
  rw [Holds]
  refine ⟨?_, holdsAll_congr (fun k hk => ?_) ha.below⟩
  · rw [hb _ (Tree.root_mem_idsOf hroot), get?_reparent, if_pos hroot, ha.get?]
    rfl
  · have hkc : k ∈ idsOf cs :=
      Tree.mem_idsOf.mpr ⟨_, hc, by rw [Tree.ids_node]; exact List.mem_cons_of_mem _ hk⟩
    rw [hb k hkc, get?_reparent, if_neg (Tree.not_mem_roots hk hn hc)]

/-! ## What an arena receives -/

/-- Some trees, each with its root at the top, have come into an arena, and nothing else changed. -/
structure Receives (a : Arena α) (ts : List (Tree (RuleId × α))) (b : Arena α) : Prop where
  versioned : b.Versioned
  holds : HoldsAll b none ts
  perm : (idsOf ts ++ a.ids).Perm b.ids
  others : ∀ k ∈ a.ids, b.get? k = a.get? k

namespace Receives

variable {c : Arena α} {ts us : List (Tree (RuleId × α))}

theorem nodup (h : Receives a ts b) : (idsOf ts ++ a.ids).Nodup :=
  h.perm.nodup_iff.mpr h.versioned.nodup_ids

theorem refl (h : a.Versioned) : Receives a [] a :=
  ⟨h, trivial, List.Perm.refl _, fun _ _ => rfl⟩

theorem of_perm (h : Receives a ts b) (hp : ts.Perm us) : Receives a us b where
  versioned := h.versioned
  holds := holdsAll_iff.mpr fun t ht => holdsAll_iff.mp h.holds t (hp.mem_iff.mpr ht)
  perm := ((Tree.idsOf_perm hp).symm.append_right _).trans h.perm
  others := h.others

theorem mem_ids (h : Receives a ts b) {k : RuleId} : k ∈ b.ids ↔ k ∈ idsOf ts ∨ k ∈ a.ids :=
  h.perm.mem_iff.symm.trans List.mem_append

/-- What comes in later leaves alone what came in before. -/
theorem trans (h : Receives a ts b) (h' : Receives b us c) : Receives a (ts ++ us) c where
  versioned := h'.versioned
  holds := by
    have hts : HoldsAll c none ts :=
      holdsAll_congr (fun k hk => h'.others k (h.mem_ids.mpr (.inl hk))) h.holds
    refine holdsAll_iff.mpr fun t ht => ?_
    rcases List.mem_append.mp ht with ht | ht
    · exact holdsAll_iff.mp hts t ht
    · exact holdsAll_iff.mp h'.holds t ht
  perm := by
    rw [Tree.idsOf_append]
    refine (List.perm_append_comm.append_right _).trans ?_
    rw [List.append_assoc]
    exact (h.perm.append_left _).trans h'.perm
  others := fun k hk => (h'.others k (h.mem_ids.mpr (.inr hk))).trans (h.others k hk)

theorem insert (h : a.Versioned) (v : α) : Receives a [.node (a.fresh, v) []] (a.insert v).1 where
  versioned := versioned_insert h v
  holds := by
    rw [HoldsAll, Holds, get?_insert, if_pos rfl]
    exact ⟨⟨rfl, trivial⟩, trivial⟩
  perm := by
    rw [ids_insert, Tree.idsOf_cons, Tree.ids_node]
    exact List.Perm.refl _
  others := fun k hk => by
    rw [get?_insert, if_neg]
    rintro rfl
    exact fresh_not_mem h hk

/-- A node without children becomes the parent of other trees. -/
theorem adopt {e : RuleId × α} {cs : List (Tree (RuleId × α))} (h : Receives a (.node e [] :: cs) b) :
    Receives a [.node e cs]
      ((b.reparent e.1 (cs.map root)).modify e.1 ({ · with children := cs.map root })) := by
  have hn := h.nodup
  rw [Tree.idsOf_cons, Tree.ids_node, Tree.idsOf_nil, List.singleton_append, List.cons_append] at hn
  obtain ⟨hown, hrest⟩ := List.nodup_cons.mp hn
  rw [List.mem_append, not_or] at hown
  obtain ⟨hcs, -, hd⟩ := List.nodup_append'.mp hrest
  have hh := h.holds
  rw [HoldsAll] at hh
  refine ⟨(evolves_modify _ _ _ ((evolves_reparent b _ _) h.versioned).1).1, ?_, ?_, fun k hk => ?_⟩
  · rw [HoldsAll, Holds]
    refine ⟨⟨?_, ?_⟩, trivial⟩
    · rw [get?_modify, if_pos rfl, get?_reparent, if_neg fun hm => hown.1 (Tree.root_mem_idsOf hm),
        hh.1.get?]
      rfl
    · refine holdsAll_reparent hh.2 hcs fun k hk => ?_
      rw [get?_modify, if_neg fun hke : k = e.1 => hown.1 (hke ▸ hk)]
  · have hp := h.perm
    rw [Tree.idsOf_cons, Tree.ids_node, Tree.idsOf_nil] at hp
    rw [ids_modify, ids_reparent, Tree.idsOf_cons, Tree.ids_node, Tree.idsOf_nil, List.append_nil]
    exact hp
  · rw [get?_modify, if_neg fun hke : k = e.1 => hown.2 (hke ▸ hk), get?_reparent,
      if_neg fun hm => hd (Tree.root_mem_idsOf hm) hk]
    exact h.others k hk

/-- What comes into a forest makes it a larger forest. -/
theorem forest (h : Receives a ts b) (hf : Forest a us) : Forest b (ts ++ us) where
  versioned := h.versioned
  holds := by
    have hus : HoldsAll b none us :=
      holdsAll_congr (fun k hk => h.others k (hf.mem_ids.mpr hk)) hf.holds
    refine holdsAll_iff.mpr fun t ht => ?_
    rcases List.mem_append.mp ht with ht | ht
    · exact holdsAll_iff.mp h.holds t ht
    · exact holdsAll_iff.mp hus t ht
  perm := by
    rw [Tree.idsOf_append]
    exact (hf.perm.append_left _).trans h.perm

end Receives

/-! ## Moving a tree -/

/-- A tree that came to the target: it is the moved one but for its ids. -/
structure Arrived (w : Tree (RuleId × α)) (b : Arena α) (id : Option RuleId) (a : Arena α)
    (w' : Tree (RuleId × α)) : Prop where
  root : id = some w'.root
  bare : w'.bare = w.bare
  receives : Receives b [w'] a

mutual

theorem transfer_target : ∀ (depth : Nat) {q : Option RuleId} {t : Tree (RuleId × α)} (p : Pair α),
    Holds p.source q t → t.ids.Nodup → t.ids.length ≤ depth → p.target.Versioned →
      ∃ t', Arrived t p.target (transfer depth t.root p).1 (transfer depth t.root p).2.target t'
  | 0, _, .node e ts, _, _, _, hd, _ => by
      rw [Tree.ids_node] at hd
      exact absurd hd (by simp)
  | depth + 1, q, .node e ts, p, h, hn, hd, hv => by
      rw [Tree.ids_node] at hn hd
      rw [List.length_cons] at hd
      obtain ⟨hets, hts⟩ := List.nodup_cons.mp hn
      have hbelow : HoldsAll (p.source.erase e.1) (some e.1) ts :=
        holdsAll_congr (fun id hid => by
          rw [get?_erase, if_neg]
          rintro rfl
          exact hets hid) h.below
      have hown := Receives.insert hv e.2
      obtain ⟨ts', hmoved, hbare, hr⟩ := transfer_target_all depth []
        ⟨p.source.erase e.1, (p.target.insert e.2).1⟩ hbelow hts (by omega) hown.versioned
      refine ⟨.node (p.target.fresh, e.2) ts', ?_, ?_, ?_⟩
      · rw [Tree.root_node, transfer, h.get?]
        rfl
      · rw [Tree.bare_node, Tree.bare_node, hbare]
      · rw [Tree.root_node, transfer, h.get?]
        rw [List.nil_append] at hmoved
        have hcame : Receives p.target (.node (p.target.fresh, e.2) [] :: ts') _ := hown.trans hr
        have hadopt := hcame.adopt
        rw [← hmoved] at hadopt
        exact hadopt

/-- The children are moved one after the other, and each becomes a tree of its own. -/
theorem transfer_target_all : ∀ (depth : Nat) {q : Option RuleId} {ts : List (Tree (RuleId × α))}
    (moved : List RuleId) (p : Pair α), HoldsAll p.source q ts → (idsOf ts).Nodup →
      (idsOf ts).length ≤ depth → p.target.Versioned →
        ∃ ts', ((ts.map root).foldl (fun s c =>
            let m := transfer depth c s.2
            (s.1 ++ m.1.toList, m.2)) (moved, p)).1 = moved ++ ts'.map root ∧
          bareAll ts' = bareAll ts ∧
          Receives p.target ts' ((ts.map root).foldl (fun s c =>
            let m := transfer depth c s.2
            (s.1 ++ m.1.toList, m.2)) (moved, p)).2.target
  | _, _, [], _, _, _, _, _, hv => ⟨[], by simp, rfl, Receives.refl hv⟩
  | depth, q, t :: ts, moved, p, h, hn, hd, hv => by
      rw [HoldsAll] at h
      rw [Tree.idsOf_cons] at hn hd
      rw [List.length_append] at hd
      obtain ⟨ht, hts, hdis⟩ := List.nodup_append'.mp hn
      obtain ⟨t', hroot, hbare, hr⟩ := transfer_target depth p h.1 ht (by omega) hv
      have hsource := (transfer_source depth p h.1 ht (by omega)).2
      have hrest : HoldsAll (transfer depth t.root p).2.source q ts :=
        holdsAll_congr (fun id hid => by
          rw [hsource, get?_foldl_erase, if_neg]
          exact fun hm => hdis hm hid) h.2
      obtain ⟨ts', hmoved, hbares, hrs⟩ := transfer_target_all depth
        (moved ++ (transfer depth t.root p).1.toList) _ hrest hts (by omega) hr.versioned
      refine ⟨t' :: ts', ?_, ?_, ?_⟩
      · rw [List.map_cons, List.foldl_cons]
        refine hmoved.trans ?_
        rw [hroot, List.map_cons]
        simp
      · rw [Tree.bareAll_cons, Tree.bareAll_cons, hbare, hbares]
      · rw [List.map_cons, List.foldl_cons]
        exact hr.trans hrs

end

/-- A subtree that is moved is a tree of the target, with the values it had. -/
theorem moveSubtree_target {ts : List (Tree (RuleId × α))} {x : RuleId} (h : Forest a ts)
    (hx : x ∈ a.ids) (hb : b.Versioned) :
    ∃ w p w', w.root = x ∧ Holds a p w ∧ w.ids.length ≤ a.size ∧
      Arrived w b (a.moveSubtree x b).1 (a.moveSubtree x b).2.target w' := by
  obtain ⟨w, p, rfl, hh, hown, hn, hle, -⟩ := exists_subtree h hx
  obtain ⟨w', harrived⟩ := transfer_target a.size ⟨a.unlink w.root, b⟩ hown hn hle hb
  exact ⟨w, p, w', rfl, hh, hle, harrived⟩

end StyleTree.Arena
