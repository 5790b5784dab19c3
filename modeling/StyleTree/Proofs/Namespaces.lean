/-
# `Proofs.Namespaces` — what a table of namespaces remembers

A table is made by registering declarations one after the other.  Two
things can be asked of it: what a name stands for, which is what the last
declaration of the name says, and the order of its prefixes, which is that
of their first declarations.  There is nothing else in it (`eq_iff`).

So a declaration cannot in general be moved past others.  It can exactly
if none of them gives its name another URI in the end, and none puts
another prefix where its own would have come first (`Commutes`).
-/
import Mathlib.Data.List.Nodup
import Mathlib.Data.List.Perm.Basic
import StyleTree.Namespaces

namespace StyleTree.Namespaces

/-- A prefix, or none for the default namespace, and the URI it stands for. -/
abbrev Declaration := Option String × String

variable {t u : Namespaces} {d : Declaration} {ds : List Declaration} {n : String}
variable {ns : List String}

/-! ## Names and what they stand for -/

/-- What a name stands for; the default namespace has no name. -/
def uri? (t : Namespaces) : Option String → Option String
  | none => t.default?
  | some n => t.resolve? n

/-- The prefixes in their order. -/
def names (t : Namespaces) : List String := t.entries.map (·.1)

def registerAll (t : Namespaces) (ds : List Declaration) : Namespaces :=
  ds.foldl (fun t d => t.register d.1 d.2) t

@[simp] theorem registerAll_cons (t : Namespaces) (d : Declaration) (ds : List Declaration) :
    t.registerAll (d :: ds) = (t.register d.1 d.2).registerAll ds := rfl

theorem registerAll_append (t : Namespaces) (ds es : List Declaration) :
    t.registerAll (ds ++ es) = (t.registerAll ds).registerAll es :=
  List.foldl_append

theorem ofList_eq (ds : List Declaration) : ofList ds = empty.registerAll ds := rfl

/-- The URI of the last declaration of a name. -/
def lastUri? (name : Option String) : List Declaration → Option String
  | [] => none
  | d :: ds => (lastUri? name ds).or (if d.1 = name then some d.2 else none)

/-- A prefix takes its place behind those that are known. -/
def note (ns : List String) : Option String → List String
  | none => ns
  | some n => if n ∈ ns then ns else ns ++ [n]

def noteAll (ns : List String) (ds : List Declaration) : List String :=
  ds.foldl (fun ns d => note ns d.1) ns

@[simp] theorem noteAll_nil (ns : List String) : noteAll ns [] = ns := rfl

@[simp] theorem noteAll_cons (ns : List String) (d : Declaration) (ds : List Declaration) :
    noteAll ns (d :: ds) = noteAll (note ns d.1) ds := rfl

theorem find?_assign (n m u : String) (es : List (String × String)) :
    ((assign n u es).find? (·.1 = m)).map (·.2) =
      if n = m then some u else (es.find? (·.1 = m)).map (·.2) := by
  induction es with
  | nil =>
      by_cases h : n = m
      · simp [assign, h]
      · simp [assign, h]
  | cons e es ih =>
      rw [assign]
      by_cases he : e.1 = n
      · rw [if_pos he]
        by_cases h : n = m
        · simp [h]
        · simp [h, he]
      · rw [if_neg he]
        by_cases hm : e.1 = m
        · have hne : n ≠ m := fun h => he (hm.trans h.symm)
          simp [hm, hne]
        · rw [List.find?_cons_of_neg (by simpa using hm), ih,
            List.find?_cons_of_neg (by simpa using hm)]

theorem uri?_register (t : Namespaces) (d : Declaration) (name : Option String) :
    (t.register d.1 d.2).uri? name = if d.1 = name then some d.2 else t.uri? name := by
  obtain ⟨_ | n, u⟩ := d
  · cases name with
    | none => rfl
    | some m => rfl
  · cases name with
    | none => rfl
    | some m =>
        simp only [Option.some.injEq]
        exact find?_assign n m u t.entries

theorem map_fst_assign (n u : String) (es : List (String × String)) :
    (assign n u es).map (·.1) = note (es.map (·.1)) (some n) := by
  induction es with
  | nil => rfl
  | cons e es ih =>
      rw [assign]
      by_cases he : e.1 = n
      · simp [note, he]
      · rw [if_neg he, List.map_cons, ih]
        simp only [note, List.map_cons, List.mem_cons, Ne.symm he, false_or]
        split
        · rfl
        · rfl

theorem names_register (t : Namespaces) (d : Declaration) :
    (t.register d.1 d.2).names = note t.names d.1 := by
  obtain ⟨_ | n, u⟩ := d
  · rfl
  · exact map_fst_assign n u t.entries

theorem uri?_registerAll (name : Option String) :
    ∀ (ds : List Declaration) (t : Namespaces),
      (t.registerAll ds).uri? name = (lastUri? name ds).or (t.uri? name)
  | [], _ => rfl
  | d :: ds, t => by
      rw [registerAll_cons, uri?_registerAll name ds, uri?_register, lastUri?, Option.or_assoc]
      split
      · rfl
      · rfl

theorem names_registerAll :
    ∀ (ds : List Declaration) (t : Namespaces), (t.registerAll ds).names = noteAll t.names ds
  | [], _ => rfl
  | d :: ds, t => by rw [registerAll_cons, names_registerAll ds, names_register, noteAll_cons]

theorem nodup_note {name : Option String} (h : ns.Nodup) : (note ns name).Nodup := by
  cases name with
  | none => exact h
  | some m =>
      by_cases hm : m ∈ ns
      · rw [note, if_pos hm]
        exact h
      · rw [note, if_neg hm]
        exact List.nodup_append'.mpr ⟨h, List.nodup_singleton m, by simpa using hm⟩

theorem nodup_noteAll (ds : List Declaration) : ∀ {ns : List String}, ns.Nodup →
    (noteAll ns ds).Nodup := by
  induction ds with
  | nil =>
      intro ns h
      exact h
  | cons d ds ih =>
      intro ns h
      exact ih (nodup_note h)

theorem nodup_register (d : Declaration) (h : t.names.Nodup) : (t.register d.1 d.2).names.Nodup := by
  rw [names_register]
  exact nodup_note h

theorem nodup_ofList (ds : List Declaration) : (ofList ds).names.Nodup := by
  rw [ofList_eq, names_registerAll]
  exact nodup_noteAll ds List.nodup_nil

/-- A prefix is in the table exactly if it stands for something. -/
theorem mem_names : n ∈ t.names ↔ (t.resolve? n).isSome = true := by
  simp [names, resolve?]

/-- Tables with the same prefixes in the same order, each for the same, are the same. -/
theorem entries_eq : ∀ {es fs : List (String × String)}, es.map (·.1) = fs.map (·.1) →
    (es.map (·.1)).Nodup →
    (∀ n, (es.find? (·.1 = n)).map (·.2) = (fs.find? (·.1 = n)).map (·.2)) → es = fs
  | [], [], _, _, _ => rfl
  | [], _ :: _, h, _, _ => by cases h
  | _ :: _, [], h, _, _ => by cases h
  | (n, u) :: es, (m, v) :: fs, h, hn, hu => by
      rw [List.map_cons, List.map_cons, List.cons.injEq] at h
      obtain ⟨hnm, hes⟩ := h
      obtain rfl : n = m := hnm
      rw [List.map_cons] at hn
      obtain ⟨hnot, hrest⟩ := List.nodup_cons.mp hn
      have huv : u = v := by simpa using hu n
      have habsent : ∀ gs : List (String × String), gs.map (·.1) = es.map (·.1) →
          (gs.find? (·.1 = n)).map (·.2) = none := by
        intro gs hgs
        rw [Option.map_eq_none_iff, List.find?_eq_none]
        intro g hg heq
        refine hnot ?_
        rw [← hgs]
        exact List.mem_map.mpr ⟨g, hg, of_decide_eq_true heq⟩
      rw [huv, entries_eq hes hrest]
      intro k
      by_cases hk : n = k
      · rw [← hk, habsent es rfl, habsent fs hes.symm]
      · have := hu k
        rwa [List.find?_cons_of_neg (by simpa using hk), List.find?_cons_of_neg (by simpa using hk)]
          at this

theorem eq_iff (ht : t.names.Nodup) :
    t = u ↔ t.names = u.names ∧ ∀ name, t.uri? name = u.uri? name := by
  constructor
  · rintro rfl
    exact ⟨rfl, fun _ => rfl⟩
  · rintro ⟨hnames, huri⟩
    have hdefault : t.default? = u.default? := huri none
    have hentries : t.entries = u.entries := entries_eq hnames ht fun n => huri (some n)
    cases t
    cases u
    cases hdefault
    cases hentries
    rfl

/-! ## Declarations in another order -/

/-- The first prefix of the declarations that is not known yet. -/
def firstNew? (ns : List String) (ds : List Declaration) : Option String :=
  (ds.filterMap (·.1)).find? (· ∉ ns)

/-- Registered before other declarations, a namespace stands for what it stands for behind them, and in
the same place. -/
structure Commutes (t : Namespaces) (d : Declaration) (ds : List Declaration) : Prop where
  uri : ∀ u, lastUri? d.1 ds = some u → u = d.2
  place : ∀ n, d.1 = some n → n ∈ t.names ∨ ∀ m, firstNew? t.names ds = some m → m = n

theorem note_of_mem {name : Option String} (h : ∀ n, name = some n → n ∈ ns) : note ns name = ns := by
  cases name with
  | none => rfl
  | some n => rw [note, if_pos (h n rfl)]

theorem note_of_not_mem (h : n ∉ ns) : note ns (some n) = ns ++ [n] := by
  rw [note, if_neg h]

theorem firstNew?_cons_of_mem (h : ∀ n, d.1 = some n → n ∈ ns) :
    firstNew? ns (d :: ds) = firstNew? ns ds := by
  obtain ⟨_ | n, u⟩ := d
  · rfl
  · have hcons : ((some n, u) :: ds).filterMap (·.1) = n :: ds.filterMap (·.1) := rfl
    rw [firstNew?, hcons, List.find?_cons_of_neg (by simpa using h n rfl), firstNew?]

theorem firstNew?_cons_of_not_mem (hd : d.1 = some n) (h : n ∉ ns) :
    firstNew? ns (d :: ds) = some n := by
  rw [firstNew?, List.filterMap_cons_some hd, List.find?_cons_of_pos (by simpa using h)]

theorem note_eq_append (ns : List String) (name : Option String) : ∃ l, note ns name = ns ++ l := by
  obtain _ | n := name
  · exact ⟨[], (List.append_nil ns).symm⟩
  · by_cases hn : n ∈ ns
    · exact ⟨[], by rw [note, if_pos hn, List.append_nil]⟩
    · exact ⟨[n], note_of_not_mem hn⟩

/-- What is known keeps its place. -/
theorem noteAll_eq_append (ds : List Declaration) :
    ∀ ns : List String, ∃ l, noteAll ns ds = ns ++ l := by
  induction ds with
  | nil =>
      intro ns
      exact ⟨[], (List.append_nil ns).symm⟩
  | cons d ds ih =>
      intro ns
      obtain ⟨l, hl⟩ := note_eq_append ns d.1
      obtain ⟨l', hl'⟩ := ih (ns ++ l)
      exact ⟨l ++ l', by rw [noteAll_cons, hl, hl', List.append_assoc]⟩

/-- A new prefix has the same place before and behind other declarations. -/
theorem noteAll_append_iff (ds : List Declaration) : ∀ {ns : List String}, n ∉ ns →
    (noteAll (ns ++ [n]) ds = note (noteAll ns ds) (some n) ↔
      ∀ m, firstNew? ns ds = some m → m = n) := by
  induction ds with
  | nil =>
      intro ns hn
      refine iff_of_true ?_ fun m hm => by cases hm
      rw [noteAll_nil, noteAll_nil, note_of_not_mem hn]
  | cons d ds ih =>
      intro ns hn
      rw [noteAll_cons, noteAll_cons]
      by_cases hknown : ∀ m, d.1 = some m → m ∈ ns
      · -- nothing new comes in front
        have hmore : ∀ m, d.1 = some m → m ∈ ns ++ [n] :=
          fun m hm => List.mem_append_left _ (hknown m hm)
        rw [note_of_mem hknown, note_of_mem hmore, firstNew?_cons_of_mem hknown]
        exact ih hn
      · simp only [not_forall] at hknown
        obtain ⟨m, hd, hm⟩ := hknown
        rw [firstNew?_cons_of_not_mem hd hm, hd, note_of_not_mem hm]
        simp only [Option.some.injEq, forall_eq']
        by_cases hmn : m = n
        · subst hmn
          have hlast : m ∈ ns ++ [m] := List.mem_append_right _ (List.mem_singleton.mpr rfl)
          have hin : m ∈ noteAll (ns ++ [m]) ds := by
            obtain ⟨l, hl⟩ := noteAll_eq_append ds (ns ++ [m])
            rw [hl]
            exact List.mem_append_left _ hlast
          refine iff_of_true ?_ rfl
          rw [note, if_pos hlast, note, if_pos hin]
        · -- two new prefixes, each in front of the other
          refine iff_of_false (fun heq => hmn ?_) hmn
          obtain ⟨l₁, hl₁⟩ := note_eq_append (ns ++ [n]) (some m)
          obtain ⟨l₂, hl₂⟩ := noteAll_eq_append ds (ns ++ [n] ++ l₁)
          obtain ⟨r₁, hr₁⟩ := noteAll_eq_append ds (ns ++ [m])
          obtain ⟨r₂, hr₂⟩ := note_eq_append (ns ++ [m] ++ r₁) (some n)
          rw [hl₁, hl₂, hr₁, hr₂] at heq
          simp only [List.append_assoc, List.append_cancel_left_eq, List.cons_append,
            List.cons.injEq] at heq
          exact heq.1.symm

/-- A name stands for the same exactly if no later declaration makes it stand for something else. -/
theorem uri?_comm_iff :
    (∀ name, ((t.register d.1 d.2).registerAll ds).uri? name =
        ((t.registerAll ds).register d.1 d.2).uri? name) ↔
      ∀ u, lastUri? d.1 ds = some u → u = d.2 := by
  constructor
  · intro h u hu
    have hname := h d.1
    rw [uri?_registerAll, hu, Option.some_or, uri?_register, if_pos rfl] at hname
    exact Option.some.inj hname
  · intro h name
    rw [uri?_registerAll, uri?_register, uri?_register, uri?_registerAll]
    by_cases hname : d.1 = name
    · rw [if_pos hname, if_pos hname, ← hname]
      cases hlast : lastUri? d.1 ds with
      | none => rfl
      | some u => rw [h u hlast, Option.some_or]
    · rw [if_neg hname, if_neg hname]

/-- The prefixes are in the same order exactly if the new one comes first, unless it is known. -/
theorem names_comm_iff :
    ((t.register d.1 d.2).registerAll ds).names = ((t.registerAll ds).register d.1 d.2).names ↔
      ∀ n, d.1 = some n → n ∈ t.names ∨ ∀ m, firstNew? t.names ds = some m → m = n := by
  rw [names_registerAll, names_register, names_register, names_registerAll]
  cases hd : d.1 with
  | none => exact iff_of_true rfl fun n hn => by cases hn
  | some n =>
      simp only [Option.some.injEq, forall_eq']
      by_cases hn : n ∈ t.names
      · obtain ⟨l, hl⟩ := noteAll_eq_append ds t.names
        have hin : n ∈ noteAll t.names ds := by
          rw [hl]
          exact List.mem_append_left _ hn
        refine iff_of_true ?_ (Or.inl hn)
        rw [note, if_pos hn, note, if_pos hin]
      · rw [note_of_not_mem hn, noteAll_append_iff ds hn]
        exact ⟨Or.inr, fun h => h.resolve_left hn⟩

theorem register_comm_iff (ht : t.names.Nodup) :
    (t.register d.1 d.2).registerAll ds = (t.registerAll ds).register d.1 d.2 ↔ t.Commutes d ds := by
  have hnodup : ((t.register d.1 d.2).registerAll ds).names.Nodup := by
    rw [names_registerAll]
    exact nodup_noteAll ds (nodup_register d ht)
  rw [eq_iff hnodup, names_comm_iff, uri?_comm_iff]
  exact ⟨fun h => ⟨h.2, h.1⟩, fun h => ⟨h.place, h.uri⟩⟩

/-! ## Names in another order -/

theorem isSome_lastUri? {name : Option String} :
    (lastUri? name ds).isSome = true ↔ name ∈ ds.map (·.1) := by
  induction ds with
  | nil => simp [lastUri?]
  | cons d ds ih =>
      rw [lastUri?, Option.isSome_or, Bool.or_eq_true, ih, List.map_cons, List.mem_cons, or_comm]
      refine or_congr ?_ Iff.rfl
      split
      · next h => exact iff_of_true rfl h.symm
      · next h => exact iff_of_false (fun hs => by cases hs) fun h' => h h'.symm

/-- What has been declared stands for something. -/
theorem isSome_uri?_ofList (name : Option String) :
    ((ofList ds).uri? name).isSome = true ↔ name ∈ ds.map (·.1) := by
  have hempty : empty.uri? name = none := by
    cases name with
    | none => rfl
    | some n => rfl
  rw [ofList_eq, uri?_registerAll, hempty, Option.or_none]
  exact isSome_lastUri?

/-- The tables have the same prefixes, in any order, and a default namespace both or neither. -/
structure SameNames (t u : Namespaces) : Prop where
  names : t.names.Perm u.names
  default : t.default?.isSome = u.default?.isSome

theorem sameNames_of_isSome (ht : t.names.Nodup) (hu : u.names.Nodup)
    (h : ∀ name, (t.uri? name).isSome = (u.uri? name).isSome) : t.SameNames u := by
  refine ⟨(List.perm_ext_iff_of_nodup ht hu).mpr fun n => ?_, h none⟩
  rw [mem_names, mem_names]
  exact Bool.eq_iff_iff.mp (h (some n))

theorem SameNames.size_eq (h : t.SameNames u) : t.size = u.size := by
  have hlen := h.names.length_eq
  simp only [Namespaces.names, List.length_map] at hlen
  rw [size, size, hlen, h.default]

end StyleTree.Namespaces
