/-
# `Proofs.Condition.Grammar` — which runs of values are conditions

The grammar of conditions is stated here without a reader: `not` before a
term, or terms with one keyword between any two neighbours, the same one
throughout (`IsCondition`).  What a term is stays a parameter of the
grammar, for a term is read after what it holds: the grammar is the same at
every depth, and what parentheses hold is a condition in the sense of the
whole (`term_round_iff`).

The reader works on operands, values that are paired with their texts as
terms.  Both directions go by two values at a time, a keyword and the term
behind it, with the keyword of the run fixed (`joinedTerms_some_iff`); which
keyword it is, the first of them decides (`joinedTerms_none_iff`).

No identifier is a term, so a run that begins with `not` is never also a
run of joined terms.
-/
import Mathlib.Data.List.Induction
import StyleTree.Condition.Container
import StyleTree.Condition.Supports

namespace StyleTree.Condition

open ComponentValue

variable {g : Vocabulary} {T : ComponentValue → Option String} {allowOr : Bool} {k t : String}
  {v : ComponentValue} {vs w : List ComponentValue} {ts : List String}

/-! ## The grammar -/

/-- The keywords that may stand between terms. -/
def keywords (allowOr : Bool) : List String := if allowOr then ["and", "or"] else ["and"]

/-- Terms, each of them behind the keyword `k`, with their texts. -/
inductive Joined (T : ComponentValue → Option String) (k : String) :
    List ComponentValue → List String → Prop
  | nil : Joined T k [] []
  | cons {j x : ComponentValue} {w : List ComponentValue} {t : String} {ts : List String}
      (hj : j.isWord k = true) (hx : T x = some t) (h : Joined T k w ts) :
      Joined T k (j :: x :: w) (t :: ts)

/-- A condition over the terms that `T` reads, with its text; `ks` are the keywords it may use. -/
inductive IsCondition (T : ComponentValue → Option String) (ks : List String) :
    List ComponentValue → String → Prop
  | negated {n x : ComponentValue} {t : String} (hn : n.isWord "not" = true) (hx : T x = some t) :
      IsCondition T ks [n, x] ("not " ++ t)
  | joined {k : String} {x : ComponentValue} {w : List ComponentValue} {t : String}
      {ts : List String} (hk : k ∈ ks) (hx : T x = some t) (h : Joined T k w ts) :
      IsCondition T ks (x :: w) (Text.joined (" " ++ k ++ " ") (t :: ts))

/-! ## Operands -/

/-- A value with its text as a term. -/
def operandOf (g : Vocabulary) (v : ComponentValue) : Operand := ⟨v, term g v⟩

theorem operands_eq_map (g : Vocabulary) (vs : List ComponentValue) :
    operands g vs = vs.map (operandOf g) := by
  induction vs with
  | nil => rw [operands, List.map_nil]
  | cons v vs ih => rw [operands, ih, List.map_cons, operandOf]

theorem dense_operands (g : Vocabulary) (vs : List ComponentValue) :
    dense (operands g vs) = (withoutBlanks vs).map (operandOf g) := by
  rw [operands_eq_map, dense, List.filter_map]
  rfl

theorem isWord_eq_true_iff : v.isWord k = true ↔ ∃ n, v = .token (.ident n) ∧ Text.sameWord n k = true := by
  constructor
  · intro h
    cases v with
    | token t => cases t <;> first | exact ⟨_, rfl, h⟩ | cases h
    | block b vs => cases h
  · rintro ⟨n, rfl, h⟩
    exact h

/-- No word is a term. -/
theorem isWord_eq_false_of_term (h : term g v = some t) (k : String) : v.isWord k = false := by
  refine Bool.eq_false_iff.mpr fun hk => ?_
  obtain ⟨n, rfl, -⟩ := isWord_eq_true_iff.mp hk
  simp only [term] at h
  cases h

theorem joiner?_eq_some_iff : joiner? allowOr (operandOf g v) = some k ↔ k ∈ keywords allowOr ∧ v.isWord k = true := by
  -- the two keywords are different words, so `and` never stands for `or`
  have apart : v.isWord "or" = true → v.isWord "and" = false := by
    intro h
    obtain ⟨n, rfl, hn⟩ := isWord_eq_true_iff.mp h
    rw [Text.sameWord_iff] at hn
    refine Bool.eq_false_iff.mpr fun h' => ?_
    have hand : Text.sameWord n "and" = true := h'
    rw [Text.sameWord_iff, hn] at hand
    exact absurd hand (by decide)
  simp only [joiner?, operandOf, keywords]
  grind

/-! ## Terms joined by a keyword -/

/-- The texts of terms, each behind a keyword. -/
def behind (k : String) : List String → String
  | [] => ""
  | t :: ts => " " ++ k ++ " " ++ t ++ behind k ts

theorem joined_eq_behind (k t : String) (ts : List String) :
    Text.joined (" " ++ k ++ " ") (t :: ts) = t ++ behind k ts := by
  induction ts generalizing t with
  | nil => rw [Text.joined, behind, String.append_empty]
  | cons u us ih => rw [Text.joined, ih, behind]; simp only [String.append_assoc]; exact List.cons_ne_nil _ _

/-- What the reader takes in one step: a keyword that fits the one before it, and a term. -/
theorem joinedTerms_cons_eq_some_iff {keyword : Option String} {p q : Operand} {ps : List Operand} :
    joinedTerms allowOr keyword (p :: q :: ps) = some t ↔
      ∃ k u more, joiner? allowOr p = some k ∧ (keyword = none ∨ keyword = some k) ∧
        q.term = some u ∧ joinedTerms allowOr (some k) ps = some more ∧
          t = " " ++ k ++ " " ++ u ++ more := by
  simp only [joinedTerms, Option.bind_eq_bind, Option.bind_eq_some_iff]
  constructor
  · rintro ⟨k, hj, u, hu, h⟩
    split at h
    next hfit =>
      obtain ⟨more, hmore, heq⟩ := Option.bind_eq_some_iff.mp h
      exact ⟨k, u, more, hj, by simpa using hfit, hu, hmore, (Option.some.inj heq).symm⟩
    next => cases h
  · rintro ⟨k, u, more, hj, hfit, hu, hmore, rfl⟩
    refine ⟨k, hj, u, hu, ?_⟩
    rw [if_pos (by simpa using hfit), hmore]
    rfl

/-- With the keyword fixed, the reader accepts the terms that it joins. -/
theorem joinedTerms_some_iff (hk : k ∈ keywords allowOr) :
    joinedTerms allowOr (some k) (w.map (operandOf g)) = some t ↔
      ∃ ts, Joined (term g) k w ts ∧ t = behind k ts := by
  induction w using List.twoStepInduction generalizing t with
  | nil =>
    constructor
    · intro h
      exact ⟨[], .nil, (Option.some.inj h).symm⟩
    · rintro ⟨_, ⟨⟩, rfl⟩
      rfl
  | singleton j =>
    refine iff_of_false (fun h => by cases h) ?_
    rintro ⟨_, ⟨⟩, _⟩
  | cons_cons j x w ih _ =>
    refine joinedTerms_cons_eq_some_iff.trans ⟨?_, ?_⟩
    · rintro ⟨k', u, more, hj, hfit, hx, hmore, rfl⟩
      obtain rfl : k = k' := hfit.elim (fun h => by cases h) Option.some.inj
      obtain ⟨ts, hw, rfl⟩ := ih.mp hmore
      exact ⟨u :: ts, .cons (joiner?_eq_some_iff.mp hj).2 hx hw, rfl⟩
    · rintro ⟨_, ⟨⟩ | ⟨hj, hx, hw⟩, rfl⟩
      exact ⟨k, _, _, joiner?_eq_some_iff.mpr ⟨hk, hj⟩, .inr rfl, hx, ih.mpr ⟨_, hw, rfl⟩, rfl⟩

/-- Without a keyword yet, the reader accepts the terms that one of the keywords joins. -/
theorem joinedTerms_none_iff :
    joinedTerms allowOr none (w.map (operandOf g)) = some t ↔
      ∃ k ∈ keywords allowOr, ∃ ts, Joined (term g) k w ts ∧ t = behind k ts := by
  rcases w with _ | ⟨j, _ | ⟨x, w⟩⟩
  · constructor
    · intro h
      exact ⟨"and", by cases allowOr <;> decide, [], .nil, (Option.some.inj h).symm⟩
    · rintro ⟨_, -, _, ⟨⟩, rfl⟩
      rfl
  · refine iff_of_false (fun h => by cases h) ?_
    rintro ⟨_, -, _, ⟨⟩, _⟩
  · refine joinedTerms_cons_eq_some_iff.trans ⟨?_, ?_⟩
    · rintro ⟨k, u, more, hj, -, hx, hmore, rfl⟩
      obtain ⟨hk, hword⟩ := joiner?_eq_some_iff.mp hj
      obtain ⟨ts, hw, rfl⟩ := (joinedTerms_some_iff hk).mp hmore
      exact ⟨k, hk, u :: ts, .cons hword hx hw, rfl⟩
    · rintro ⟨k, hk, _, ⟨⟩ | ⟨hj, hx, hw⟩, rfl⟩
      exact ⟨k, _, _, joiner?_eq_some_iff.mpr ⟨hk, hj⟩, .inl rfl, hx,
        (joinedTerms_some_iff hk).mpr ⟨_, hw, rfl⟩, rfl⟩

/-! ## Whole runs -/

theorem conditionText_of_not {p : Operand} {ps : List Operand} (h : p.value.isWord "not" = true) :
    conditionText allowOr (p :: ps) = some t ↔ ∃ q u, ps = [q] ∧ q.term = some u ∧ t = "not " ++ u := by
  simp only [conditionText, if_pos h]
  rcases ps with _ | ⟨q, _ | ⟨r, ps⟩⟩ <;> simp [Option.map_eq_some_iff, eq_comm]

theorem conditionText_of_term {p : Operand} {ps : List Operand} (h : p.value.isWord "not" = false) :
    conditionText allowOr (p :: ps) = some t ↔
      ∃ u more, p.term = some u ∧ joinedTerms allowOr none ps = some more ∧ t = u ++ more := by
  simp only [conditionText, h, Option.bind_eq_bind, Option.bind_eq_some_iff, Option.some.injEq,
    Bool.false_eq_true, if_false]
  grind

theorem conditionText_operands_iff :
    conditionText allowOr (w.map (operandOf g)) = some t ↔ IsCondition (term g) (keywords allowOr) w t := by
  rcases w with _ | ⟨x, w⟩
  · refine iff_of_false (fun h => by cases h) ?_
    rintro ⟨⟩
  rcases hnot : x.isWord "not" with _ | _
  · refine (conditionText_of_term hnot).trans ⟨?_, fun h => ?_⟩
    · rintro ⟨u, more, hu, hmore, rfl⟩
      obtain ⟨k, hk, ts, hw, rfl⟩ := joinedTerms_none_iff.mp hmore
      rw [← joined_eq_behind]
      exact .joined hk hu hw
    · cases h with
      | negated hn _ => rw [hnot] at hn; cases hn
      | joined hk hx hw =>
        exact ⟨_, _, hx, joinedTerms_none_iff.mpr ⟨_, hk, _, hw, rfl⟩, joined_eq_behind _ _ _⟩
  · refine (conditionText_of_not hnot).trans ⟨?_, fun h => ?_⟩
    · rintro ⟨q, u, hw, hu, rfl⟩
      obtain ⟨y, rfl, rfl⟩ := List.map_eq_singleton_iff.mp hw
      exact .negated hnot hu
    · cases h with
      | negated _ hx => exact ⟨_, _, rfl, hx, rfl⟩
      | joined _ hx _ => rw [isWord_eq_false_of_term hx] at hnot; cases hnot

theorem ofValues?_eq_some_iff :
    ofValues? g allowOr vs = some t ↔ IsCondition (term g) (keywords allowOr) (withoutBlanks vs) t := by
  rw [ofValues?, dense_operands]
  exact conditionText_operands_iff

/-! ## Terms, and the conditions in them -/

theorem term_isSome_iff :
    (term g v).isSome = true ↔
      (∃ vs, v = .block (.bracket .round) vs) ∨ ∃ n vs, v = .block (.function n) vs := by
  constructor
  · intro h
    cases v with
    | token x => simp only [term] at h; cases h
    | block b vs =>
      cases b with
      | function n => exact .inr ⟨n, vs, rfl⟩
      | bracket r => cases r <;> first | exact .inl ⟨vs, rfl⟩ | (simp only [term] at h; cases h)
  · rintro (⟨vs, rfl⟩ | ⟨n, vs, rfl⟩)
    · rw [term]
      repeat' split
      all_goals rfl
    · rw [term]
      split <;> rfl

/-- Parentheses hold a condition wherever they can; what else they hold is the vocabulary's, or
kept as written. -/
theorem term_round_iff :
    term g (.block (.bracket .round) vs) = some t ↔
      (∃ c, IsCondition (term g) (keywords true) (withoutBlanks vs) c ∧ t = "(" ++ c ++ ")") ∨
        (¬∃ c, IsCondition (term g) (keywords true) (withoutBlanks vs) c) ∧
          t = (g.enclosed vs).getD (ComponentValue.block (.bracket .round) vs).text := by
  have hread : ∀ c, conditionText true (dense (operands g vs)) = some c ↔
      IsCondition (term g) (keywords true) (withoutBlanks vs) c := fun _ => ofValues?_eq_some_iff
  rw [term]
  rcases hc : conditionText true (dense (operands g vs)) with _ | c
  · have hnone : ¬∃ c, IsCondition (term g) (keywords true) (withoutBlanks vs) c := by
      rintro ⟨c, h⟩
      rw [← hread, hc] at h
      cases h
    rw [or_iff_right (fun h => hnone ⟨_, h.choose_spec.1⟩), and_iff_right hnone]
    cases g.enclosed vs <;> simp [asWritten, eq_comm]
  · have hsome := (hread c).mp hc
    rw [or_iff_left (fun h => h.1 ⟨c, hsome⟩), Option.some.injEq]
    constructor
    · rintro rfl
      exact ⟨c, hsome, rfl⟩
    · rintro ⟨c', h, rfl⟩
      rw [← hread, hc, Option.some.injEq] at h
      rw [h]

/-- Behind a media type stands nothing, or `and` with a condition that uses no `or`. -/
theorem furtherCondition_iff :
    MediaQuery.furtherCondition (dense (operands media vs)) = some t ↔
      withoutBlanks vs = [] ∧ t = "" ∨
        ∃ a us c, withoutBlanks vs = a :: us ∧ a.isWord "and" = true ∧
          IsCondition (term media) (keywords false) us c ∧ t = " and " ++ c := by
  rw [dense_operands]
  rcases withoutBlanks vs with _ | ⟨a, us⟩
  · constructor
    · intro h
      exact .inl ⟨rfl, (Option.some.inj h).symm⟩
    · rintro (⟨-, rfl⟩ | ⟨_, _, _, h, -⟩)
      · rfl
      · cases h
  · simp only [List.map_cons, MediaQuery.furtherCondition, operandOf]
    split
    next ha =>
      simp only [Option.map_eq_some_iff]
      constructor
      · rintro ⟨c, hc, rfl⟩
        exact .inr ⟨a, us, c, rfl, ha, conditionText_operands_iff.mp hc, rfl⟩
      · rintro (⟨h, -⟩ | ⟨_, _, c, heq, -, hc, rfl⟩)
        · cases h
        · cases heq
          exact ⟨c, conditionText_operands_iff.mpr hc, rfl⟩
    next ha =>
      refine iff_of_false (fun h => by cases h) ?_
      rintro (⟨h, -⟩ | ⟨_, _, _, heq, ha', -⟩)
      · cases h
      · cases heq
        exact ha ha'

/-- The reader of conditions accepts its grammar and nothing else, and gives the grammar's text:
for a whole run, in the parentheses of a term at every depth, and behind a media type. -/
theorem conditions_are_exactly_the_grammar :
    (∀ (g : Vocabulary) (allowOr : Bool) (vs : List ComponentValue) (t : String),
      ofValues? g allowOr vs = some t ↔
        IsCondition (term g) (keywords allowOr) (withoutBlanks vs) t) ∧
    (∀ (g : Vocabulary) (v : ComponentValue), (term g v).isSome = true ↔
      (∃ vs, v = .block (.bracket .round) vs) ∨ ∃ n vs, v = .block (.function n) vs) ∧
    (∀ (g : Vocabulary) (vs : List ComponentValue) (t : String),
      term g (.block (.bracket .round) vs) = some t ↔
        (∃ c, IsCondition (term g) (keywords true) (withoutBlanks vs) c ∧ t = "(" ++ c ++ ")") ∨
          (¬∃ c, IsCondition (term g) (keywords true) (withoutBlanks vs) c) ∧
            t = (g.enclosed vs).getD (ComponentValue.block (.bracket .round) vs).text) ∧
    (∀ (vs : List ComponentValue) (t : String),
      MediaQuery.furtherCondition (dense (operands media vs)) = some t ↔
        withoutBlanks vs = [] ∧ t = "" ∨
          ∃ a us c, withoutBlanks vs = a :: us ∧ a.isWord "and" = true ∧
            IsCondition (term media) (keywords false) us c ∧ t = " and " ++ c) :=
  ⟨fun _ _ _ _ => ofValues?_eq_some_iff, fun _ _ => term_isSome_iff, fun _ _ _ => term_round_iff,
    fun _ _ => furtherCondition_iff⟩

end StyleTree.Condition
