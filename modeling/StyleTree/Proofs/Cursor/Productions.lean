/-
# `Proofs.Cursor.Productions` — conditions and values, read from a place

The attempts of the grammar that contain other attempts: a condition, whose
terms are told by a parameter, and a value of each kind, by recursion on the
kind.  Every one of them performs the production of the same name.

    performs_condition T allowOr     a condition performs its production
    performs_valueOf k               a value of the kind `k` does

Kinds that take all that is left ask that it is not blank, so they take a
value as well, and the induction on the kind can put any kind into a loop.
-/
import StyleTree.Proofs.Condition.Reading
import StyleTree.Proofs.Cursor.Loops

namespace StyleTree

open ComponentValue

namespace Attempt

variable {α β : Type} {x : Attempt α} {f : α → Attempt β} {p : Production α} {g : α → Production β} {c d : Cursor}
  {m n : Nat}

/-! ## Conditions -/

section

variable {T : ComponentValue → Option String} {allowOr : Bool}

/-- A keyword that joins two terms. -/
def joiner (allowOr : Bool) : Attempt String :=
  (do let _ ← word "and"; return "and") <|> if allowOr then (do let _ ← word "or"; return "or") else failure

/-- The terms behind a condition with the text `text`, each behind a keyword, which is `keyword` if that is given. -/
def moreTerms (T : ComponentValue → Option String) (allowOr : Bool) (keyword : Option String) (text : String) :
    Attempt String := loop (fun (keyword, text) => do
  match ← step (joiner allowOr).run with
  | some k =>
    if keyword.isNone || keyword = some k then
      let t ← taken T
      return .inr (some k, text ++ (" " ++ k ++ " " ++ t))
    else failure
  | none => return .inl text) (keyword, text)

/-- A condition whose terms are told by `T`. -/
def condition (T : ComponentValue → Option String) (allowOr : Bool) : Attempt String := rewind do
  match ← step (word "not").run with
  | some _ =>
    let t ← taken T
    return "not " ++ t
  | none =>
    let t ← taken T
    moreTerms T allowOr none t

theorem performs_failure : (failure : Attempt α).Performs failure where
  follows c := reads_failure c
  stays c _ := fails_failure c

/-- The word itself is the result. -/
theorem performs_spelled (w : String) : (do let _ ← word w; return w : Attempt String).Performs
    (Production.taken fun v => if v.isWord w then some w else none) := by
  have hsame : (Production.taken fun v => if v.isWord w then some w else none) =
      (do let _ ← Production.word w; pure w) := by
    rw [Production.word, Production.taken_map]
    congr 1
    funext v
    split <;> rfl
  rw [hsame]
  exact (performs_word w).map fun _ => w

theorem performs_joiner (allowOr : Bool) :
    (joiner allowOr).Performs (Production.taken (Condition.joinerWord allowOr)) := by
  have hor : (if allowOr then (do let _ ← word "or"; return "or") else failure : Attempt String).Performs
      (Production.taken fun v => if allowOr && v.isWord "or" then some "or" else none) := by
    cases allowOr with
    | true => exact performs_spelled "or"
    | false =>
        have hnever : (Production.taken fun _ => none : Production String) = failure := by
          funext vs
          rw [Production.taken]
          split <;> rfl
        exact hnever ▸ performs_failure
  have hboth := (performs_spelled "and").orElse hor
  rw [Production.taken_orElse] at hboth
  have hsame : Condition.joinerWord allowOr = fun v => (if v.isWord "and" then some "and" else none) <|>
      if allowOr && v.isWord "or" then some "or" else none := by
    funext v
    show (if v.isWord "and" then _ else _) = _
    split <;> rfl
  rw [hsame]
  exact hboth

/-- The last turn adds nothing. -/
theorem reads_moreTerms_of_fails (h : (joiner allowOr).Fails c c) (keyword : Option String) (text : String) :
    (moreTerms T allowOr keyword text).Reads 0 c (some (text ++ "", c.rest)) := by
  rw [String.append_empty]
  exact ⟨c, rfl, le_rfl, Gives.stop ((gives_step h).bind (gives_pure _ c))⟩

/-- By what is left: every term costs a keyword and a value. -/
theorem reads_moreTerms (fuel : Nat) (keyword : Option String) (text : String) (c : Cursor)
    (hfuel : c.rest.length ≤ fuel) :
    (moreTerms T allowOr keyword text).Reads 0 c
      ((Condition.moreTerms T allowOr keyword fuel c.rest).map fun r => (text ++ r.1, r.2)) := by
  induction fuel generalizing keyword text c with
  | zero =>
      have hnil : c.rest = [] := List.length_eq_zero_iff.mp (Nat.le_zero.mp hfuel)
      have hjoiner := (performs_joiner allowOr).stays c (Production.taken_of_nil (by rw [hnil]; rfl))
      exact reads_moreTerms_of_fails hjoiner keyword text
  | succ fuel ih =>
      cases hjoiner : Production.taken (Condition.joinerWord allowOr) c.rest with
      | none =>
          rw [Condition.moreTerms_of_none hjoiner]
          exact reads_moreTerms_of_fails ((performs_joiner allowOr).stays c hjoiner) keyword text
      | some s =>
          obtain ⟨k, left⟩ := s
          obtain ⟨d, rfl, hlt, hgives⟩ := (performs_joiner allowOr).follows.gives hjoiner
          rw [Condition.moreTerms_of_some hjoiner]
          by_cases hfits : (keyword.isNone || decide (keyword = some k)) = true
          · rw [if_pos hfits, Option.map_bind]
            refine Reads.loop (m := 1) (u := fun t => (some k, text ++ (" " ++ k ++ " " ++ t))) ?_
              fun t e he hle _ => ?_
            · refine (gives_step hgives).before (Nat.le_of_succ_le hlt) ?_
              dsimp only
              rw [if_pos hfits]
              exact (follows_taken T d).map fun t => Sum.inr (some k, text ++ (" " ++ k ++ " " ++ t))
            · have hshort := Cursor.length_rest_le he hle
              have hmore := ih (some k) (text ++ (" " ++ k ++ " " ++ t)) e (by omega)
              have hassoc (u : String) : text ++ (" " ++ k ++ " " ++ t) ++ u = text ++ (" " ++ k ++ " " ++ t ++ u) :=
                String.append_assoc
              simp only [hassoc] at hmore
              rw [Function.comp_apply, Option.map_map]
              exact hmore
          · -- another keyword than before: the attempt fails behind it, wherever the term would end
            rw [if_neg hfits]
            refine ⟨d, Fails.stop ((gives_step hgives).bind ?_)⟩
            dsimp only
            rw [if_neg hfits]
            exact fails_failure d

theorem performs_condition (T : ComponentValue → Option String) (allowOr : Bool) :
    (condition T allowOr).Performs (Condition.production T allowOr) := by
  refine Follows.rewind fun c => ?_
  cases hnot : Production.word "not" c.rest with
  | some s =>
      obtain ⟨d, hleft, hlt, hgives⟩ := (performs_word "not").follows.gives hnot
      refine (gives_step hgives).before (Nat.le_of_succ_le hlt) ?_
      rw [Condition.production_of_not hnot, ← hleft]
      exact (follows_taken T d).map ("not " ++ ·)
  | none =>
      refine (gives_step ((performs_word "not").stays c hnot)).before le_rfl ?_
      rw [Condition.production_of_not_not hnot]
      refine Reads.bind (n := 0) (follows_taken T c) fun t d hd hle _ => ?_
      have hshort := Cursor.length_rest_le hd hle
      exact reads_moreTerms _ none t d (by omega)

end

/-! ## Values that take the rest of the run -/

/-- What is left, as `f` reads it. -/
def restAs (f : List ComponentValue → Option String) : Attempt String := do
  let vs ← step Walk.takeRest
  ofOption (f vs)

/-- What is left, trimmed, if it is not blank and satisfies `h`. -/
def restWhere (h : List ComponentValue → Bool) : Attempt String := restAs (Production.trimmedText? h)

/-- Sources of fonts with commas between them. -/
def fontSources : Attempt String := do
  let vs ← step Walk.takeRest
  let ts ← (commaParts vs).mapM fun part => onRun part fontSource
  return Text.joined ", " ts

/-- Nothing can be made of no rest at all, so a result costs a value. -/
theorem follows_ofRest {r : List ComponentValue → Attempt String} {f : List ComponentValue → Option String}
    {p : Production String} (hp : ∀ vs, p vs = (f vs).map (·, []))
    (hr : ∀ vs c, Walk.Ends (r vs).run c (f vs) c) (hnil : f [] = none) : (step Walk.takeRest >>= r).Follows 1 p := by
  intro c
  have hgives := gives_step (Walk.ends_takeRest c)
  have hends := hr c.rest (c.leave [])
  rw [hp]
  cases hf : f c.rest with
  | none =>
      rw [hf] at hends
      exact ⟨_, hgives.bind hends⟩
  | some t =>
      rw [hf] at hends
      refine ⟨_, Cursor.rest_leave List.nil_suffix, ?_, hgives.bind hends⟩
      have hend := Cursor.position_leave (c := c) List.nil_suffix
      have hleft : 0 < c.rest.length := by
        refine List.length_pos_iff.mpr fun hrest => ?_
        rw [hrest, hnil] at hf
        cases hf
      rw [Cursor.length_rest] at hleft
      rw [List.length_nil] at hend
      omega

theorem follows_restAs {f : List ComponentValue → Option String} {p : Production String}
    (hp : ∀ vs, p vs = (f vs).map (·, [])) (hnil : f [] = none) : (restAs f).Follows 1 p := by
  refine follows_ofRest hp (fun vs c => ?_) hnil
  cases f vs with
  | none => exact fails_ofOption c
  | some t => exact gives_pure t c

theorem follows_restWhere (h : List ComponentValue → Bool) : (restWhere h).Follows 1 (ValueKind.restWhere h) :=
  follows_restAs (Production.restWhere_apply h) rfl

theorem follows_fontSources : fontSources.Follows 1 ValueKind.fontSources.production := by
  refine follows_ofRest (Production.restAs_apply ValueKind.fontSources?) (fun vs c => ?_) rfl
  rw [ValueKind.fontSources?, Option.map_eq_bind]
  exact ends_bind (ends_mapM (fun part c => by
    obtain ⟨d, hd⟩ := ends_fontSource part
    exact ends_onRun hd c) (commaParts vs) c) fun ts => gives_pure (Text.joined ", " ts) c

/-! ## Values of a kind -/

/-- A keyword in the spelling of the list. -/
def keyword (words : List String) : Attempt String := rewind (taken fun v => v.ident?.bind (Text.findWord words))

/-- A keyword of the list, or else a value that `f` takes. -/
def keywordOr (words : List String) (f : ComponentValue → Option String) : Attempt String := keyword words <|> taken f

/-- `fixed` with the value of its first symbol, which may be missing. -/
def fixedSystem : Attempt String := do
  let _ ← keyword ["fixed"]
  (do let first ← rewind (keywordOr [] ValueKind.integerValue); return "fixed " ++ first) <|> return "fixed"

/-- `extends` with the name of another counter style. -/
def extendedSystem : Attempt String := do
  let _ ← keyword ["extends"]
  let name ← rewind (taken (ValueKind.customIdentValue ["none"]))
  return "extends " ++ name

/-- A value of a kind. -/
def valueOf (k : ValueKind) : Attempt String := rewind (match k with
  | .any => restWhere fun _ => true
  | .keyword words => keyword words
  | .color => keywordOr Words.colors ValueKind.colorValue
  | .lengthPercentage words => keywordOr words (ValueKind.lengthValue true true)
  | .nonnegative words => keywordOr words (ValueKind.lengthValue true false)
  | .length words => keywordOr words (ValueKind.lengthValue false true)
  | .percentage => taken ValueKind.percentageValue
  | .number words => keywordOr words ValueKind.numberValue
  | .integer words => keywordOr words ValueKind.integerValue
  | .time => taken ValueKind.timeValue
  | .string => taken ValueKind.stringValue
  | .url => taken ValueKind.urlValue
  | .customIdent excluded => taken (ValueKind.customIdentValue excluded)
  | .dashedIdent => taken ValueKind.dashedIdentValue
  | .families => restAs fun vs => (FamilyName.listOfValues? vs).map FamilyName.listText
  | .fontSources => fontSources
  | .unicodeRange => restWhere fun vs => (commaParts vs).all ValueKind.isUnicodeRange
  | .content => keyword ["normal", "none"] <|> restWhere (·.all ValueKind.isContentItem)
  | .counterSystem => keyword Words.counterSystems <|> fixedSystem <|> extendedSystem
  | .either first second => valueOf first <|> valueOf second
  | .repeated one most => do
    let t ← valueOf one
    let ts ← step (further (valueOf one) most [t])
    return Text.joined " " ts
  | .commaList one => do
    let t ← valueOf one
    let ts ← behindCommas (valueOf one) [t]
    return Text.joined ", " ts)

theorem performs_keyword (words : List String) : (keyword words).Performs (ValueKind.keywordAmong words) :=
  (follows_taken _).rewind

theorem follows_keywordOr (words : List String) (f : ComponentValue → Option String) :
    (keywordOr words f).Follows 1 (ValueKind.keywordAmong words <|> Production.taken f) :=
  (performs_keyword words).orElse_follows (follows_taken f) le_rfl

theorem keywordAmong_nil (p : Production String) : (ValueKind.keywordAmong [] <|> p) = p := by
  funext vs
  have hnone : ValueKind.keywordAmong [] vs = none := by
    cases hvs : vs.dropWhile isBlank with
    | nil => exact Production.taken_of_nil hvs
    | cons v left =>
        refine (Production.taken_of_cons hvs).trans ?_
        cases v.ident? <;> rfl
  rw [Production.orElse_apply, hnone]
  rfl

theorem performs_fixedSystem : fixedSystem.Performs ValueKind.fixedSystem := by
  have hfirst := (follows_keywordOr [] ValueKind.integerValue).rewind
  rw [keywordAmong_nil] at hfirst
  refine (performs_keyword ["fixed"]).bind
    (fun _ => (hfirst.map _).orElse_follows (follows_pure "fixed") (Nat.zero_le 1)) fun _ vs h => ?_
  rw [Production.orElse_apply, Option.orElse_eq_orElse, ← Option.or_eq_orElse, Option.or_eq_none_iff] at h
  exact Option.some_ne_none _ h.2

theorem follows_extendedSystem : extendedSystem.Follows 1 ValueKind.extendedSystem :=
  ((performs_keyword ["extends"]).follows.bind fun _ => ((follows_taken _).rewind.map _).follows).mono (Nat.le_succ 1)

theorem performs_repeated {k : ValueKind} (hk : (valueOf k).Performs k.production) (most : Nat) :
    (valueOf (.repeated k most)).Performs (ValueKind.repeated k most).production := by
  rw [valueOf]
  refine Follows.rewind fun c => ?_
  rw [ValueKind.production_repeated]
  refine Reads.bind (n := 0) (hk.follows c) fun t d _ _ _ => ?_
  obtain ⟨ts, e, hts, hle, hends⟩ := ends_further hk most (most - 1) [t] rfl d
  rw [hts]
  exact (gives_step hends).before hle (reads_pure _ e)

theorem performs_commaList {k : ValueKind} (hk : (valueOf k).Performs k.production) :
    (valueOf (.commaList k)).Performs (ValueKind.commaList k).production := by
  rw [valueOf]
  refine Follows.rewind fun c => ?_
  rw [ValueKind.production_commaList]
  refine Reads.bind (n := 0) (hk.follows c) fun t d hd hle _ => ?_
  have hshort := Cursor.length_rest_le hd hle
  have hread := (reads_behindCommas hk c.rest.length [t] d (by omega)).map (Text.joined ", ")
  rw [Option.map_map] at hread
  exact hread

/-- By the kind. -/
theorem performs_valueOf (k : ValueKind) : (valueOf k).Performs k.production := by
  induction k with
  | any => exact (follows_restWhere _).rewind
  | keyword words => exact (performs_keyword words).follows.rewind
  | color | lengthPercentage | nonnegative | length | number | integer => exact (follows_keywordOr _ _).rewind
  | percentage | time | string | url | customIdent | dashedIdent => exact (follows_taken _).rewind
  | families => exact (follows_restAs (Production.restAs_apply _) rfl).rewind
  | fontSources => exact follows_fontSources.rewind
  | unicodeRange => exact (follows_restWhere _).rewind
  | content => exact ((performs_keyword _).orElse_follows (follows_restWhere _) le_rfl).rewind
  | counterSystem =>
      exact ((performs_keyword _).orElse_follows
        (performs_fixedSystem.orElse_follows follows_extendedSystem le_rfl) le_rfl).rewind
  | either first second hfirst hsecond => exact (hfirst.orElse hsecond).follows.rewind
  | repeated one most hone => exact performs_repeated hone most
  | commaList one hone => exact performs_commaList hone

end Attempt

end StyleTree
