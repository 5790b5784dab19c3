/-
# `Proofs.Declaration.Combinators` — kinds that are put together

A repetition, a list and an alternative read from the front of a run as much
as they can, and `accept?` then asks whether all was read.  Here it is shown
that this accepts exactly the runs one would write down, if the kinds inside
take one value each (`IsSingle`):

    repeated k n    1 up to n values that `k` accepts, blanks aside
    commaList k     values that `k` accepts, one comma between two of them
    either k l      what `k` accepts, and else what `l` accepts

The induction on the kind is about how it reads runs that begin with a given
value (`Production.Reads`): never, by that value alone whatever follows, or
by more than that value up to the end of some run.  A kind that takes one
value each has no case of the last sort, so it looks at the first value only
(`IsSingle.production_eq`), and the loops are read off the run one value at a
time.
-/
import StyleTree.Proofs.ComponentValue.Layout
import StyleTree.Proofs.Rule.Productions
import StyleTree.Declaration.Table

namespace StyleTree

open ComponentValue

variable {vs us rest : List ComponentValue} {v : ComponentValue}

/-! ## Runs -/

namespace ComponentValue

theorem isBlank_of_dropWhile (h : vs.dropWhile isBlank = v :: rest) : v.isBlank = false := by
  have hnot := List.head?_dropWhile_not isBlank vs
  rw [h] at hnot
  exact hnot

theorem dropWhile_of_not_isBlank (h : v.isBlank = false) (rest : List ComponentValue) :
    (v :: rest).dropWhile isBlank = v :: rest :=
  List.dropWhile_cons_of_neg (by rw [h]; exact Bool.false_ne_true)

theorem commaParts_dropWhile (vs : List ComponentValue) : commaParts (vs.dropWhile isBlank) = commaParts vs := by
  induction vs with
  | nil => rfl
  | cons v vs ih =>
      rw [List.dropWhile_cons]
      split
      · next hblank =>
          rw [ih, isBlank_iff.mp hblank, commaParts_blank]
      · rfl

theorem withoutBlanks_of_dropWhile_nil (h : vs.dropWhile isBlank = []) : withoutBlanks vs = [] := by
  rw [← withoutBlanks_dropWhile, h]
  rfl

theorem exists_dropWhile {ws : List ComponentValue} (h : withoutBlanks vs = v :: ws) :
    ∃ rest, vs.dropWhile isBlank = v :: rest ∧ withoutBlanks rest = ws := by
  cases hvs : vs.dropWhile isBlank with
  | nil =>
      rw [withoutBlanks_of_dropWhile_nil hvs] at h
      cases h
  | cons u rest =>
      rw [withoutBlanks_of_dropWhile hvs] at h
      obtain ⟨rfl, hws⟩ := List.cons.inj h
      exact ⟨rest, rfl, hws⟩

theorem dropWhile_of_withoutBlanks (h : withoutBlanks vs = []) : vs.dropWhile isBlank = [] := by
  cases hvs : vs.dropWhile isBlank with
  | nil => rfl
  | cons v rest =>
      rw [withoutBlanks_of_dropWhile hvs] at h
      cases h

theorem trim_dropWhile (vs : List ComponentValue) : trim (vs.dropWhile isBlank) = trim vs := by
  rw [trim, trim, List.dropWhile_idempotent]

/-- A run that begins with a value keeps it. -/
theorem exists_trim_cons (h : v.isBlank = false) (rest : List ComponentValue) : ∃ ws, trim (v :: rest) = v :: ws := by
  rw [trim, dropWhile_of_not_isBlank h, List.reverse_cons, List.dropWhile_append]
  split
  · exact ⟨[], by rw [List.dropWhile_cons_of_neg (by rw [h]; exact Bool.false_ne_true)]; rfl⟩
  · exact ⟨_, by rw [List.reverse_append]; rfl⟩

/-- The parts of two runs with a comma between them. -/
theorem commaParts_append_comma (vs us : List ComponentValue) :
    commaParts (vs ++ .token .comma :: us) = commaParts vs ++ commaParts us := by
  have hsplit : splitOn isComma (vs ++ .token .comma :: us) = splitOn isComma vs ++ splitOn isComma us := by
    induction vs with
    | nil => rfl
    | cons v vs ih =>
        rw [List.cons_append, splitOn, splitOn, ih]
        split
        · rfl
        · cases hparts : splitOn isComma vs with
          | nil => exact absurd hparts (splitOn_ne_nil isComma vs)
          | cons part parts => rfl
  rw [commaParts, hsplit, List.map_append]
  rfl

end ComponentValue

/-! ## How a production reads -/

namespace Production

/-- How a production reads runs whose first value is `v`. -/
inductive Reads (p : Production String) (v : ComponentValue) : Prop
  | never (h : ∀ vs rest, vs.dropWhile isBlank = v :: rest → p vs = none)
  | alone (t : String) (hcomma : v.isComma = false)
      (h : ∀ vs rest, vs.dropWhile isBlank = v :: rest → p vs = some (t, rest))
  | beyond (us : List ComponentValue) (t : String) (hmore : withoutBlanks us ≠ []) (h : p (v :: us) = some (t, []))

/-- Nothing is read of blanks, and in which way a run is read depends on its first value. -/
structure IsSteady (p : Production String) : Prop where
  nothing : ∀ vs, vs.dropWhile isBlank = [] → p vs = none
  reads : ∀ v, v.isBlank = false → Reads p v

variable {p q : Production String}

theorem orElse_apply (p q : Production String) (vs : List ComponentValue) : (p <|> q) vs = (p vs <|> q vs) := rfl

theorem IsSteady.orElse (hp : IsSteady p) (hq : IsSteady q) : IsSteady (p <|> q) where
  nothing vs h := by rw [orElse_apply, hp.nothing vs h, hq.nothing vs h]; rfl
  reads v hv := by
    cases hp.reads v hv with
    | never h =>
        have hsame : ∀ vs rest, vs.dropWhile isBlank = v :: rest → (p <|> q) vs = q vs := fun vs rest hvs => by
          rw [orElse_apply, h vs rest hvs]; rfl
        cases hq.reads v hv with
        | never hq => exact .never fun vs rest hvs => (hsame vs rest hvs).trans (hq vs rest hvs)
        | alone t hcomma hq => exact .alone t hcomma fun vs rest hvs => (hsame vs rest hvs).trans (hq vs rest hvs)
        | beyond us t hmore hq =>
            exact .beyond us t hmore ((hsame _ us (dropWhile_of_not_isBlank hv us)).trans hq)
    | alone t hcomma h => exact .alone t hcomma fun vs rest hvs => by rw [orElse_apply, h vs rest hvs]; rfl
    | beyond us t hmore h => exact .beyond us t hmore (by rw [orElse_apply, h]; rfl)

section

variable {α : Type} {f : ComponentValue → Option α}

theorem taken_of_cons (h : vs.dropWhile isBlank = v :: rest) : taken f vs = (f v).map (·, rest) := by
  rw [taken, h]

theorem taken_of_nil (h : vs.dropWhile isBlank = []) : taken f vs = none := by
  rw [taken, h]

theorem taken_eq_some {α : Type} {f : ComponentValue → Option α} {a : α} (h : taken f vs = some (a, rest)) :
    ∃ v, withoutBlanks vs = v :: withoutBlanks rest ∧ f v = some a := by
  cases hvs : vs.dropWhile isBlank with
  | nil =>
      rw [taken_of_nil hvs] at h
      cases h
  | cons v left =>
      rw [taken_of_cons hvs] at h
      obtain ⟨b, hb, heq⟩ := Option.map_eq_some_iff.mp h
      cases heq
      exact ⟨v, withoutBlanks_of_dropWhile hvs, hb⟩

theorem whole_eq_some {α : Type} {p : Production α} {a : α} :
    p.whole vs = some a ↔ ∃ rest, p vs = some (a, rest) ∧ withoutBlanks rest = [] := by
  rw [whole]
  cases p vs with
  | none =>
      constructor
      · intro h
        cases h
      · rintro ⟨_, h, _⟩
        cases h
  | some r =>
      constructor
      · intro h
        split at h
        · next b left heq =>
            cases heq
            split at h
            · next hrest =>
                cases h
                exact ⟨left, rfl, List.isEmpty_iff.mp (all_isBlank left ▸ hrest)⟩
            · cases h
        · next heq => cases heq
      · rintro ⟨rest, heq, hrest⟩
        cases heq
        exact if_pos (by rw [all_isBlank, hrest]; rfl)

theorem bind_apply {β : Type} (p : Production α) (g : α → Production β) (vs : List ComponentValue) :
    (p >>= g) vs = (p vs).bind fun r => g r.1 r.2 := rfl

theorem taken_orElse (f g : ComponentValue → Option String) : (taken f <|> taken g) = taken fun v => f v <|> g v := by
  funext vs
  cases hvs : vs.dropWhile isBlank with
  | nil => rw [orElse_apply, taken_of_nil hvs, taken_of_nil hvs, taken_of_nil hvs]; rfl
  | cons v rest =>
      rw [orElse_apply, taken_of_cons hvs, taken_of_cons hvs, taken_of_cons hvs]
      cases f v <;> rfl

/-- A value and what is read behind it, if for each such value there is something to be read. -/
theorem isSteady_bind {g : α → Production String}
    (hg : ∀ a, ∃ us t, withoutBlanks us ≠ [] ∧ g a us = some (t, [])) : IsSteady (taken f >>= g) where
  nothing vs h := by rw [bind_apply, taken_of_nil h]; rfl
  reads v hv := by
    cases ha : f v with
    | none => exact .never fun vs rest hvs => by rw [bind_apply, taken_of_cons hvs, ha]; rfl
    | some a =>
        obtain ⟨us, t, hmore, ht⟩ := hg a
        refine .beyond us t hmore ?_
        rw [bind_apply, taken_of_cons (dropWhile_of_not_isBlank hv us), ha]
        exact ht

end

theorem isSteady_taken {f : ComponentValue → Option String} (hf : f (.token .comma) = none) : IsSteady (taken f) where
  nothing vs h := taken_of_nil h
  reads v hv := by
    cases ht : f v with
    | none => exact .never fun vs rest hvs => by rw [taken_of_cons hvs, ht]; rfl
    | some t =>
        refine .alone t ?_ fun vs rest hvs => by rw [taken_of_cons hvs, ht]; rfl
        rw [Bool.eq_false_iff]
        intro hcomma
        rw [isComma_iff.mp hcomma, hf] at ht
        cases ht

theorem restAs_apply (f : List ComponentValue → Option String) (vs : List ComponentValue) :
    ValueKind.restAs f vs = (f vs).map (·, []) := by
  rw [ValueKind.restAs, bind_apply, rest, Option.bind_some]
  cases f vs <;> rfl

/-- The trimmed run, if it is not empty and satisfies `g`. -/
def trimmedText? (g : List ComponentValue → Bool) (vs : List ComponentValue) : Option String :=
  if !(trim vs).isEmpty && g (trim vs) then some (textOf (trim vs)) else none

theorem restWhere_apply (g : List ComponentValue → Bool) (vs : List ComponentValue) :
    ValueKind.restWhere g vs = (trimmedText? g vs).map (·, []) := by
  rw [ValueKind.restWhere, bind_apply, rest, Option.bind_some, trimmedText?]
  split <;> rfl

/-- A reading of all that is left, if whatever it accepts it also accepts with more behind it. -/
theorem isSteady_of_rest {f : List ComponentValue → Option String} (hp : ∀ vs, p vs = (f vs).map (·, []))
    (hskip : ∀ vs, f (vs.dropWhile isBlank) = f vs) (hnil : f [] = none)
    (hmore : ∀ v rest t, v.isBlank = false → f (v :: rest) = some t →
      ∃ us t', withoutBlanks us ≠ [] ∧ f (v :: us) = some t') : IsSteady p where
  nothing vs h := by
    rw [hp, ← hskip, h, hnil]
    rfl
  reads v hv := by
    by_cases hnone : ∀ rest, f (v :: rest) = none
    · refine .never fun vs rest hvs => ?_
      rw [hp, ← hskip, hvs, hnone]
      rfl
    · obtain ⟨rest, hrest⟩ := not_forall.mp hnone
      obtain ⟨t, ht⟩ := Option.ne_none_iff_exists'.mp hrest
      obtain ⟨us, t', hus, ht'⟩ := hmore v rest t hv ht
      refine .beyond us t' hus ?_
      rw [hp, ht']
      rfl

/-- What may be left, if it may be left twice with `more` between. -/
theorem isSteady_restWhere {g : List ComponentValue → Bool} (more : List ComponentValue)
    (hg : ∀ ws, g ws = true → g (ws ++ more ++ ws) = true) : IsSteady (ValueKind.restWhere g) := by
  refine isSteady_of_rest (restWhere_apply g) (fun vs => ?_) rfl fun v rest t hv ht => ?_
  · rw [trimmedText?, trimmedText?, trim_dropWhile]
  · obtain ⟨ws, hws⟩ := exists_trim_cons hv rest
    rw [trimmedText?, hws] at ht
    split at ht
    · next hgood =>
        have htrim : trim (v :: ws ++ more ++ (v :: ws)) = v :: ws ++ more ++ (v :: ws) := by
          refine trim_of_ends (fun u hu => ?_) fun u hu => ?_
          · cases hu
            exact hv
          · rw [List.getLast?_append_of_ne_nil _ (List.cons_ne_nil v ws)] at hu
            exact isBlank_of_getLast?_trim (hws ▸ hu)
        refine ⟨ws ++ more ++ (v :: ws), textOf (v :: ws ++ more ++ (v :: ws)), fun hnil => ?_, ?_⟩
        · have hmem : v ∈ withoutBlanks (ws ++ more ++ (v :: ws)) :=
            List.mem_filter.mpr ⟨List.mem_append_right _ List.mem_cons_self, by rw [hv]; rfl⟩
          rw [hnil] at hmem
          cases hmem
        · have hcons : v :: (ws ++ more ++ (v :: ws)) = v :: ws ++ more ++ (v :: ws) := rfl
          rw [hcons, trimmedText?, htrim, hg _ (Bool.and_eq_true_iff.mp hgood).2]
          rfl
    · cases ht

/-- A list between commas can be followed by the same list. -/
theorem isSteady_of_commaParts {α : Type} {g : List ComponentValue → Option α} {join : List α → String}
    (hp : ∀ vs, p vs = (((commaParts vs).mapM g).map join).map (·, [])) (hnil : g [] = none) : IsSteady p := by
  refine isSteady_of_rest hp (fun vs => by rw [commaParts_dropWhile]) ?_ fun v rest t hv ht => ?_
  · show (([[]] : List (List ComponentValue)).mapM g).map join = none
    rw [List.mapM_cons, hnil]
    rfl
  · obtain ⟨as, has, -⟩ := Option.map_eq_some_iff.mp ht
    refine ⟨rest ++ .token .comma :: (v :: rest), join (as ++ as), fun hnil => ?_, ?_⟩
    · rw [withoutBlanks_append] at hnil
      cases (List.append_eq_nil_iff.mp hnil).2
    · rw [← List.cons_append, commaParts_append_comma, List.mapM_append, has]
      rfl

/-! ## Loops -/

theorem upTo_succ (p : Production String) (more : Nat) (vs : List ComponentValue) :
    ValueKind.upTo p (more + 1) vs =
      ((p vs).bind fun r => (ValueKind.upTo p more r.2).map fun s => (r.1 :: s.1, s.2)).or (some ([], vs)) := by
  show (((p vs).bind fun r => (ValueKind.upTo p more r.2).bind fun s => some (r.1 :: s.1, s.2)).orElse
    fun _ => some ([], vs)) = _
  cases p vs with
  | none => rfl
  | some r =>
      rw [Option.bind_some, Option.bind_some]
      cases ValueKind.upTo p more r.2 <;> rfl

theorem upTo_of_none (h : p vs = none) (more : Nat) : ValueKind.upTo p more vs = some ([], vs) := by
  cases more with
  | zero => rfl
  | succ more =>
      rw [upTo_succ, h]
      rfl

theorem behindCommas_of_not_comma (hv : ValueKind.comma vs = none) (p : Production String) (fuel : Nat) :
    ValueKind.behindCommas p fuel vs = some ([], vs) := by
  cases fuel with
  | zero => rfl
  | succ fuel => simp only [ValueKind.behindCommas, hv]

theorem behindCommas_of_comma (hv : ValueKind.comma vs = some ((), rest)) (p : Production String) (fuel : Nat) :
    ValueKind.behindCommas p (fuel + 1) vs =
      (p rest).bind fun r => (ValueKind.behindCommas p fuel r.2).map fun s => (r.1 :: s.1, s.2) := by
  simp only [ValueKind.behindCommas, hv]
  show ((p rest).bind fun r => (ValueKind.behindCommas p fuel r.2).bind fun s => some (r.1 :: s.1, s.2)) = _
  cases p rest with
  | none => rfl
  | some r =>
      rw [Option.bind_some, Option.bind_some]
      cases ValueKind.behindCommas p fuel r.2 <;> rfl

end Production

namespace ValueKind

open Production

variable {k l : ValueKind}

theorem production_repeated (k : ValueKind) (most : Nat) (vs : List ComponentValue) :
    (repeated k most).production vs = (k.production vs).bind fun r =>
      (upTo k.production (most - 1) r.2).map fun s => (Text.joined " " (r.1 :: s.1), s.2) := by
  rw [production, bind_apply]
  refine Option.bind_congr fun r _ => ?_
  rw [bind_apply]
  cases upTo k.production (most - 1) r.2 <;> rfl

theorem production_commaList (k : ValueKind) (vs : List ComponentValue) :
    (commaList k).production vs = (k.production vs).bind fun r =>
      (behindCommas k.production vs.length r.2).map fun s => (Text.joined ", " (r.1 :: s.1), s.2) := by
  rw [production, bind_apply]
  show ((k.production vs).bind fun r => (behindCommas k.production vs.length r.2).bind
    fun s => some (r.1 :: s.1, s.2)).bind _ = _
  rw [Option.bind_assoc]
  refine Option.bind_congr fun r _ => ?_
  cases behindCommas k.production vs.length r.2 <;> rfl

theorem isSteady_repeated (hk : IsSteady k.production) (most : Nat) : IsSteady (repeated k most).production where
  nothing vs h := by
    rw [production_repeated, hk.nothing vs h]
    rfl
  reads v hv := by
    cases hk.reads v hv with
    | never h => exact .never fun vs rest hvs => by rw [production_repeated, h vs rest hvs]; rfl
    | alone t hcomma h =>
        cases hmost : most - 1 with
        | zero =>
            refine .alone (Text.joined " " [t]) hcomma fun vs rest hvs => ?_
            rw [production_repeated, h vs rest hvs, hmost]
            rfl
        | succ more =>
            -- a second value like the first can be read
            have hone : k.production [v] = some (t, []) := h [v] [] (dropWhile_of_not_isBlank hv [])
            refine .beyond [v] (Text.joined " " [t, t]) ?_ ?_
            · rw [withoutBlanks, List.filter_cons_of_pos (by rw [hv]; rfl)]
              exact List.cons_ne_nil v _
            · rw [production_repeated, h _ [v] (dropWhile_of_not_isBlank hv _), hmost, Option.bind_some, upTo_succ, hone,
                Option.bind_some, upTo_of_none (hk.nothing [] rfl)]
              rfl
    | beyond us t hmore h =>
        refine .beyond us (Text.joined " " [t]) hmore ?_
        rw [production_repeated, h, Option.bind_some, upTo_of_none (hk.nothing [] rfl)]
        rfl

theorem comma_of_cons (h : vs.dropWhile isBlank = v :: rest) :
    comma vs = if v.isComma then some ((), rest) else none := by
  rw [comma, taken_of_cons h]
  split <;> rfl

theorem isSteady_commaList (hk : IsSteady k.production) : IsSteady (commaList k).production where
  nothing vs h := by
    rw [production_commaList, hk.nothing vs h]
    rfl
  reads v hv := by
    cases hk.reads v hv with
    | never h => exact .never fun vs rest hvs => by rw [production_commaList, h vs rest hvs]; rfl
    | alone t hcomma h =>
        refine .beyond [.token .comma, v] (Text.joined ", " [t, t]) (List.cons_ne_nil _ _) ?_
        have hone : k.production [v] = some (t, []) := h [v] [] (dropWhile_of_not_isBlank hv [])
        rw [production_commaList, h _ _ (dropWhile_of_not_isBlank hv _), Option.bind_some, List.length_cons,
          behindCommas_of_comma rfl, hone, Option.bind_some, behindCommas_of_not_comma rfl]
        rfl
    | beyond us t hmore h =>
        refine .beyond us (Text.joined ", " [t]) hmore ?_
        rw [production_commaList, h, Option.bind_some, behindCommas_of_not_comma rfl]
        rfl

/-- By the constructors: kinds of one value, kinds of all that is left, and kinds that are put together. -/
theorem isSteady_production (k : ValueKind) : IsSteady k.production := by
  have hwords : ∀ words, IsSteady (keywordAmong words) := fun words => isSteady_taken rfl
  induction k with
  | any => exact isSteady_restWhere [] fun _ _ => rfl
  | keyword words => exact hwords words
  | color => exact (hwords _).orElse (isSteady_taken rfl)
  | lengthPercentage words | nonnegative words | length words => exact (hwords words).orElse (isSteady_taken rfl)
  | number words | integer words => exact (hwords words).orElse (isSteady_taken rfl)
  | percentage | time | string | url | dashedIdent => exact isSteady_taken rfl
  | customIdent excluded => exact isSteady_taken rfl
  | families =>
      exact isSteady_of_commaParts (restAs_apply _) rfl
  | fontSources => exact isSteady_of_commaParts (restAs_apply _) rfl
  | unicodeRange =>
      refine isSteady_restWhere [.token .comma] fun ws hws => ?_
      rw [List.append_assoc, List.singleton_append, commaParts_append_comma, List.all_append, hws]
      rfl
  | content =>
      refine (hwords _).orElse (isSteady_restWhere [] fun ws hws => ?_)
      rw [List.append_nil, List.all_append, hws]
      rfl
  | counterSystem =>
      refine (hwords _).orElse (IsSteady.orElse ?_ ?_)
      · exact isSteady_bind fun _ => ⟨[.block (.function "calc") []], _, List.cons_ne_nil _ _, rfl⟩
      · exact isSteady_bind fun _ => ⟨[.token (.ident "x")], _, List.cons_ne_nil _ _, rfl⟩
  | either first second hfirst hsecond => exact hfirst.orElse hsecond
  | repeated one most ih => exact isSteady_repeated ih most
  | commaList one ih => exact isSteady_commaList ih

/-! ## Kinds of one value -/

/-- Whatever is read is one value, blanks aside. -/
def IsSingle (k : ValueKind) : Prop :=
  ∀ vs t rest, k.production vs = some (t, rest) → ∃ read, vs = read ++ rest ∧ (withoutBlanks read).length = 1

/-- The text of a value that is accepted alone. -/
def acceptOne? (k : ValueKind) (v : ComponentValue) : Option String := k.accept? [v]

theorem IsSingle.not_beyond (hk : k.IsSingle) (hv : v.isBlank = false) {t : String} (hmore : withoutBlanks us ≠ []) :
    k.production (v :: us) ≠ some (t, []) := by
  intro h
  obtain ⟨read, hread, hone⟩ := hk _ _ _ h
  rw [List.append_nil] at hread
  rw [← hread, withoutBlanks, List.filter_cons_of_pos (by rw [hv]; rfl)] at hone
  exact hmore (List.length_eq_zero_iff.mp (Nat.succ.inj hone))

/-- A kind of one value looks at the first value only. -/
theorem IsSingle.production_eq (hk : k.IsSingle) : k.production = taken k.acceptOne? := by
  funext vs
  have hsteady := isSteady_production k
  cases hvs : vs.dropWhile isBlank with
  | nil => rw [hsteady.nothing vs hvs, taken_of_nil hvs]
  | cons v rest =>
      have hv := isBlank_of_dropWhile hvs
      have hself := dropWhile_of_not_isBlank hv []
      rw [taken_of_cons hvs, acceptOne?, accept?, whole]
      cases hsteady.reads v hv with
      | never h => rw [h vs rest hvs, h [v] [] hself]; rfl
      | alone t _ h => rw [h vs rest hvs, h [v] [] hself]; rfl
      | beyond us t hmore h => exact absurd h (hk.not_beyond hv hmore)

theorem IsSingle.acceptOne?_comma (hk : k.IsSingle) : k.acceptOne? (.token .comma) = none := by
  rw [acceptOne?, accept?, whole]
  cases (isSteady_production k).reads (.token .comma) rfl with
  | never h => rw [h _ [] rfl]
  | alone t hcomma _ => cases hcomma
  | beyond us t hmore h => exact absurd h (hk.not_beyond rfl hmore)

theorem IsSingle.isComma_of_accept (hk : k.IsSingle) {t : String} (h : k.acceptOne? v = some t) : v.isComma = false := by
  rw [Bool.eq_false_iff]
  intro hcomma
  rw [isComma_iff.mp hcomma, hk.acceptOne?_comma] at h
  cases h

theorem isSingle_of_taken {f : ComponentValue → Option String} (h : k.production = taken f) : k.IsSingle := by
  intro vs t rest hread
  rw [h, taken] at hread
  split at hread
  · next v left hvs =>
      obtain ⟨t', -, heq⟩ := Option.map_eq_some_iff.mp hread
      cases heq
      refine ⟨vs.takeWhile isBlank ++ [v], ?_, ?_⟩
      · rw [List.append_assoc, List.singleton_append, ← hvs, List.takeWhile_append_dropWhile]
      · have hblank : withoutBlanks (vs.takeWhile isBlank) = [] :=
          List.filter_eq_nil_iff.mpr fun u hu => by rw [List.mem_takeWhile_imp hu]; exact Bool.false_ne_true
        rw [withoutBlanks_append, hblank, withoutBlanks,
          List.filter_cons_of_pos (by rw [isBlank_of_dropWhile hvs]; rfl)]
        rfl
  · cases hread

/-! ## The loops over single values -/

/-- Which values `f` accepts, one text each. -/
abbrev Accepted (f : ComponentValue → Option String) : List ComponentValue → List String → Prop :=
  List.Forall₂ fun v t => f v = some t

variable {f : ComponentValue → Option String} {ts : List String}

theorem exists_of_mem (h : Accepted f us ts) (hv : v ∈ us) : ∃ t, f v = some t := by
  induction h with
  | nil => cases hv
  | cons ht _ ih =>
      rcases List.mem_cons.mp hv with rfl | hv
      · exact ⟨_, ht⟩
      · exact ih hv

/-- What is taken stands in front of what is left. -/
theorem of_upTo {more : Nat} (h : upTo (taken f) more vs = some (ts, rest)) :
    ∃ us, withoutBlanks vs = us ++ withoutBlanks rest ∧ Accepted f us ts ∧ us.length ≤ more := by
  induction more generalizing vs ts with
  | zero =>
      cases h
      exact ⟨[], rfl, .nil, le_rfl⟩
  | succ more ih =>
      rw [upTo_succ] at h
      rcases Option.or_eq_some_iff.mp h with h | ⟨-, h⟩
      · obtain ⟨r, hr, h⟩ := Option.bind_eq_some_iff.mp h
        obtain ⟨s, hs, heq⟩ := Option.map_eq_some_iff.mp h
        cases heq
        obtain ⟨v, hvs, hv⟩ := taken_eq_some hr
        obtain ⟨us, hus, hall, hlen⟩ := ih hs
        exact ⟨v :: us, by rw [hvs, hus, List.cons_append], .cons hv hall, Nat.succ_le_succ hlen⟩
      · cases h
        exact ⟨[], rfl, .nil, Nat.zero_le _⟩

/-- If no more is there than may be taken, then all of it is taken. -/
theorem upTo_of_accepted {more : Nat} (h : Accepted f us ts) (hvs : withoutBlanks vs = us) (hmore : us.length ≤ more) :
    ∃ rest, upTo (taken f) more vs = some (ts, rest) ∧ withoutBlanks rest = [] := by
  induction h generalizing vs more with
  | nil => exact ⟨vs, upTo_of_none (taken_of_nil (dropWhile_of_withoutBlanks hvs)) more, hvs⟩
  | cons hv _ ih =>
      obtain ⟨rest, hrest, hus⟩ := exists_dropWhile hvs
      obtain ⟨more, rfl⟩ := Nat.exists_eq_succ_of_ne_zero (Nat.ne_of_gt (Nat.zero_lt_of_lt hmore))
      obtain ⟨left, hleft, hblank⟩ := ih hus (Nat.le_of_succ_le_succ hmore)
      refine ⟨left, ?_, hblank⟩
      rw [upTo_succ, taken_of_cons hrest, hv, Option.map_some, Option.bind_some, hleft]
      rfl

/-- Values with a comma in front of each. -/
def behindEach (us : List ComponentValue) : List ComponentValue := us.flatMap fun u => [.token .comma, u]

theorem behindEach_cons (u : ComponentValue) (us : List ComponentValue) :
    behindEach (u :: us) = .token .comma :: u :: behindEach us := rfl

theorem intersperse_comma (u : ComponentValue) (us : List ComponentValue) :
    (u :: us).intersperse (.token .comma) = u :: behindEach us := by
  induction us generalizing u with
  | nil => rfl
  | cons w us ih => rw [List.intersperse_cons_cons, ih, behindEach_cons]

theorem length_behindEach (us : List ComponentValue) : us.length ≤ (behindEach us).length := by
  induction us with
  | nil => exact le_rfl
  | cons u us ih => exact Nat.succ_le_succ (Nat.le_succ_of_le ih)

theorem of_behindCommas {fuel : Nat} (h : behindCommas (taken f) fuel vs = some (ts, rest)) :
    ∃ us, withoutBlanks vs = behindEach us ++ withoutBlanks rest ∧ Accepted f us ts := by
  induction fuel generalizing vs ts with
  | zero =>
      cases h
      exact ⟨[], rfl, .nil⟩
  | succ fuel ih =>
      cases hcomma : comma vs with
      | none =>
          rw [behindCommas_of_not_comma hcomma] at h
          cases h
          exact ⟨[], rfl, .nil⟩
      | some r =>
          rw [behindCommas_of_comma hcomma] at h
          obtain ⟨q, hq, h⟩ := Option.bind_eq_some_iff.mp h
          obtain ⟨s, hs, heq⟩ := Option.map_eq_some_iff.mp h
          cases heq
          obtain ⟨c, hvs, hc⟩ := taken_eq_some hcomma
          obtain ⟨v, hrest, hv⟩ := taken_eq_some hq
          obtain ⟨us, hus, hall⟩ := ih hs
          have hcomma : c = .token .comma := by
            refine isComma_iff.mp ?_
            by_contra hne
            rw [if_neg hne] at hc
            cases hc
          exact ⟨v :: us, by rw [hvs, hrest, hus, hcomma, behindEach_cons]; rfl, .cons hv hall⟩

theorem behindCommas_of_accepted {fuel : Nat} (h : Accepted f us ts) (hvs : withoutBlanks vs = behindEach us)
    (hfuel : us.length ≤ fuel) :
    ∃ rest, behindCommas (taken f) fuel vs = some (ts, rest) ∧ withoutBlanks rest = [] := by
  induction h generalizing vs fuel with
  | nil => exact ⟨vs, behindCommas_of_not_comma (taken_of_nil (dropWhile_of_withoutBlanks hvs)) _ fuel, hvs⟩
  | cons hv _ ih =>
      obtain ⟨behind, hbehind, hws⟩ := exists_dropWhile hvs
      obtain ⟨rest, hrest, hus⟩ := exists_dropWhile hws
      obtain ⟨fuel, rfl⟩ := Nat.exists_eq_succ_of_ne_zero (Nat.ne_of_gt (Nat.zero_lt_of_lt hfuel))
      obtain ⟨left, hleft, hblank⟩ := ih hus (Nat.le_of_succ_le_succ hfuel)
      refine ⟨left, ?_, hblank⟩
      rw [behindCommas_of_comma (comma_of_cons hbehind), taken_of_cons hrest, hv, Option.map_some, Option.bind_some,
        hleft]
      rfl

/-! ## Kinds that are put together -/

/-- A repetition accepts one value up to as many as it may have. -/
theorem accept_repeated (hk : k.production = taken f) {n : Nat} (hn : 1 ≤ n) (t : String) :
    (repeated k n).accept? vs = some t ↔
      ∃ ts, Accepted f (withoutBlanks vs) ts ∧ 1 ≤ ts.length ∧ ts.length ≤ n ∧ t = Text.joined " " ts := by
  rw [accept?, whole_eq_some]
  constructor
  · rintro ⟨left, h, hleft⟩
    rw [production_repeated, hk] at h
    obtain ⟨r, hr, h⟩ := Option.bind_eq_some_iff.mp h
    obtain ⟨s, hs, heq⟩ := Option.map_eq_some_iff.mp h
    cases heq
    obtain ⟨v, hvs, hv⟩ := taken_eq_some hr
    obtain ⟨us, hus, hall, hlen⟩ := of_upTo hs
    rw [hleft, List.append_nil] at hus
    have hsame : us.length = s.1.length := hall.length_eq
    refine ⟨r.1 :: s.1, by rw [hvs, hus]; exact .cons hv hall, Nat.le_add_left 1 _, ?_, rfl⟩
    rw [List.length_cons]
    omega
  · rintro ⟨ts, hall, hone, hlen, rfl⟩
    cases hvs : withoutBlanks vs with
    | nil =>
        rw [hvs] at hall
        cases hall
        cases hone
    | cons v ws =>
        rw [hvs] at hall
        obtain ⟨rest, hrest, hws⟩ := exists_dropWhile hvs
        cases hall with
        | cons hv hall =>
            have hsame := hall.length_eq
            rw [List.length_cons] at hlen
            have hmore : ws.length ≤ n - 1 := by omega
            obtain ⟨left, hleft, hblank⟩ := upTo_of_accepted hall hws hmore
            refine ⟨left, ?_, hblank⟩
            rw [production_repeated, hk, taken_of_cons hrest, hv, Option.map_some, Option.bind_some, hleft]
            rfl

/-- A list accepts values with one comma between two of them. -/
theorem accept_commaList (hk : k.production = taken f) (t : String) :
    (commaList k).accept? vs = some t ↔
      ∃ us ts, us ≠ [] ∧ withoutBlanks vs = us.intersperse (.token .comma) ∧ Accepted f us ts ∧
        t = Text.joined ", " ts := by
  rw [accept?, whole_eq_some]
  constructor
  · rintro ⟨left, h, hleft⟩
    rw [production_commaList, hk] at h
    obtain ⟨r, hr, h⟩ := Option.bind_eq_some_iff.mp h
    obtain ⟨s, hs, heq⟩ := Option.map_eq_some_iff.mp h
    cases heq
    obtain ⟨v, hvs, hv⟩ := taken_eq_some hr
    obtain ⟨us, hus, hall⟩ := of_behindCommas hs
    rw [hleft, List.append_nil] at hus
    exact ⟨v :: us, r.1 :: s.1, List.cons_ne_nil v us, by rw [hvs, hus, intersperse_comma], .cons hv hall, rfl⟩
  · rintro ⟨us, ts, hne, hvs, hall, rfl⟩
    cases hall with
    | nil => exact absurd rfl hne
    | @cons v t us ts hv hall =>
        rw [intersperse_comma] at hvs
        obtain ⟨rest, hrest, hus⟩ := exists_dropWhile hvs
        have hfuel : us.length ≤ vs.length := by
          have hle := List.length_filter_le (!·.isBlank) vs
          rw [show vs.filter (!·.isBlank) = _ from hvs, List.length_cons] at hle
          have hmany := length_behindEach us
          omega
        obtain ⟨left, hleft, hblank⟩ := behindCommas_of_accepted hall hus hfuel
        refine ⟨left, ?_, hblank⟩
        rw [production_commaList, hk, taken_of_cons hrest, hv, Option.map_some, Option.bind_some, hleft]
        rfl

theorem whole_of_cons (hk : k.production = taken f) (h : vs.dropWhile isBlank = v :: rest) :
    k.accept? vs = if rest.all isBlank then f v else none := by
  rw [accept?, whole, hk, taken_of_cons h]
  cases f v with
  | none => exact (ite_self none).symm
  | some t => rfl

/-- An alternative accepts what one of the two accepts, the text of the first in front. -/
theorem accept_either {g : ComponentValue → Option String} (hk : k.production = taken f) (hl : l.production = taken g)
    (vs : List ComponentValue) : (either k l).accept? vs = (k.accept? vs <|> l.accept? vs) := by
  have hboth : (either k l).production = taken fun v => f v <|> g v := by
    rw [production, hk, hl, taken_orElse]
  cases hvs : vs.dropWhile isBlank with
  | nil =>
      rw [accept?, accept?, accept?, whole, whole, whole, hboth, hk, hl, taken_of_nil hvs, taken_of_nil hvs,
        taken_of_nil hvs]
      rfl
  | cons v rest =>
      rw [whole_of_cons hboth hvs, whole_of_cons hk hvs, whole_of_cons hl hvs]
      split <;> rfl

/-! ## The kinds of the tables -/

/-- The kinds that a kind is put together of, at any depth. -/
def parts : ValueKind → List ValueKind
  | either first second => first :: second :: (first.parts ++ second.parts)
  | repeated one _ => one :: one.parts
  | commaList one => one :: one.parts
  | _ => []

/-- The kinds whose constructor says that they take one value. -/
def takesOne : ValueKind → Bool
  | any | families | fontSources | unicodeRange | content | counterSystem | repeated _ _ | commaList _ => false
  | either first second => first.takesOne && second.takesOne
  | _ => true

theorem isSingle_of_takesOne (h : k.takesOne = true) : k.IsSingle := by
  induction k with
  | any | families | fontSources | unicodeRange | content | counterSystem | repeated _ _ | commaList _ => cases h
  | keyword | percentage | time | string | url | customIdent | dashedIdent => exact isSingle_of_taken rfl
  | color | lengthPercentage | nonnegative | length | number | integer => exact isSingle_of_taken (taken_orElse _ _)
  | either first second hfirst hsecond =>
      obtain ⟨hone, htwo⟩ := Bool.and_eq_true_iff.mp h
      refine isSingle_of_taken ?_ (f := fun v => first.acceptOne? v <|> second.acceptOne? v)
      rw [production, (hfirst hone).production_eq, (hsecond htwo).production_eq, taken_orElse]

theorem isSingle_parts_properties : ∀ p ∈ Table.properties, ∀ k ∈ p.kind.parts, k.IsSingle := by
  have hall : Table.properties.all (fun p => p.kind.parts.all takesOne) = true := by decide
  intro p hp k hk
  exact isSingle_of_takesOne (List.all_eq_true.mp (List.all_eq_true.mp hall p hp) k hk)

theorem isSingle_parts_descriptors (c : DeclarationContext) :
    ∀ d ∈ Table.descriptors c, ∀ k ∈ d.2.parts, k.IsSingle := by
  have hall : (Table.descriptors c).all (fun d => d.2.parts.all takesOne) = true := by cases c <;> decide
  intro d hd k hk
  exact isSingle_of_takesOne (List.all_eq_true.mp (List.all_eq_true.mp hall d hd) k hk)

/-- Kinds that are put together of kinds of one value accept exactly their lists, whatever the run: a repetition
takes one value up to `n`, a list takes values with single commas between them, and an alternative takes what one
of its two kinds takes and prefers the first.  All kinds that the tables put together are of this sort. -/
theorem combinators_accept_lists (hk : k.IsSingle) (hl : l.IsSingle) {n : Nat} (hn : 1 ≤ n) :
    (∀ vs t, (repeated k n).accept? vs = some t ↔
      ∃ ts, Accepted k.acceptOne? (withoutBlanks vs) ts ∧ 1 ≤ ts.length ∧ ts.length ≤ n ∧ t = Text.joined " " ts) ∧
    (∀ vs t, (commaList k).accept? vs = some t ↔
      ∃ us ts, us ≠ [] ∧ (∀ u ∈ us, u.isComma = false) ∧ withoutBlanks vs = us.intersperse (.token .comma) ∧
        Accepted k.acceptOne? us ts ∧ t = Text.joined ", " ts) ∧
    (∀ vs, (either k l).accept? vs = (k.accept? vs <|> l.accept? vs)) ∧
    (∀ p ∈ Table.properties, ∀ part ∈ p.kind.parts, part.IsSingle) ∧
    (∀ c, ∀ d ∈ Table.descriptors c, ∀ part ∈ d.2.parts, part.IsSingle) := by
  refine ⟨fun vs t => accept_repeated hk.production_eq hn t, fun vs t => ?_,
    accept_either hk.production_eq hl.production_eq, isSingle_parts_properties, isSingle_parts_descriptors⟩
  rw [accept_commaList hk.production_eq]
  constructor
  · rintro ⟨us, ts, hne, hvs, hall, ht⟩
    refine ⟨us, ts, hne, fun u hu => ?_, hvs, hall, ht⟩
    obtain ⟨t, ht⟩ := exists_of_mem hall hu
    exact hk.isComma_of_accept ht
  · rintro ⟨us, ts, hne, -, hvs, hall, ht⟩
    exact ⟨us, ts, hne, hvs, hall, ht⟩

/-- Two values with a blank between them, and with a comma. -/
theorem combinators_accept_lists_auto :
    (keyword ["auto"]).IsSingle ∧ time.IsSingle ∧ 1 ≤ 2 ∧
      (repeated (keyword ["auto"]) 2).accept? [.token (.ident "AUTO"), .token .blank, .token (.ident "auto")] =
        some "auto auto" ∧
      (commaList (keyword ["auto"])).accept? [.token (.ident "AUTO"), .token .comma, .token (.ident "auto")] =
        some "auto, auto" := by
  have hkeyword : (keyword ["auto"]).IsSingle := isSingle_of_takesOne rfl
  have htime : time.IsSingle := isSingle_of_takesOne rfl
  obtain ⟨hrepeated, hlist, -⟩ := combinators_accept_lists hkeyword htime (show 1 ≤ 2 by decide)
  have hall : Accepted (keyword ["auto"]).acceptOne? [.token (.ident "AUTO"), .token (.ident "auto")] ["auto", "auto"] :=
    .cons rfl (.cons rfl .nil)
  exact ⟨hkeyword, htime, by decide, (hrepeated _ _).mpr ⟨_, hall, by decide, by decide, rfl⟩,
    (hlist _ _).mpr ⟨_, _, List.cons_ne_nil _ _, by decide, rfl, hall, rfl⟩⟩

end ValueKind

end StyleTree
