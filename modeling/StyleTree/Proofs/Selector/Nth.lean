/-
# `Proofs.Selector.Nth` — counted children read back

A written step and offset reach the reader in one of these forms:

    odd, even       an identifier
    3, -3           a number; the step is zero
    n, -n           an identifier
    n-3, -n-3       an identifier, and the offset is in it
    5n, 5n-3        a dimension, with the offset in its unit
    n+3, 5n+3       one of these without an offset, and then a signed number

`Nth.tokens` says which, and `scan_write` that it is so.  All offsets are
read back but one (`read_tokens`): the digits in a name or a unit are read
as a positive integer first, and 2147483648 is none.
-/
import StyleTree.Selector.Nth
import StyleTree.Proofs.Token.Numbers
import StyleTree.Proofs.ComponentValue.Lexemes
import StyleTree.Proofs.ComponentValue.Nesting

namespace StyleTree.Nth

open ComponentValue
open Scan (spelled integer Stops EndsNumber startsIdentifier)

variable {rest : List Char} {n : Nth} {a b : Int}

/-! ## The tokens of a written pair -/

/-- The sign that is written in front of an integer. -/
def minus (i : Int) : Option Bool := if i < 0 then some true else none

theorem integer_eq_spelled (i : Int) : Number.integer i = spelled (minus i) i.natAbs := by
  unfold Number.integer minus
  split <;> rfl

/-- What is written before the `n`. -/
def factor (a : Int) : List Char :=
  if a = 1 then [] else if a = -1 then ['-'] else spelled (minus a) a.natAbs

/-- The `n` and an offset with a minus sign. -/
def unit (b : Int) : List Char := 'n' :: if b < 0 then spelled (minus b) b.natAbs else []

/-- An offset with a plus sign. -/
def plus (b : Int) : List Char := if 0 < b then spelled (some false) b.natAbs else []

/-- A factor and a unit in one token. -/
def stepToken (a b : Int) : Token :=
  if a = 1 then .ident (String.ofList (unit b))
  else if a = -1 then .ident (String.ofList ('-' :: unit b))
  else .dimension (integer (minus a) a.natAbs) (String.ofList (unit b))

def plusTokens (b : Int) : List Token := if 0 < b then [.number (integer (some false) b.natAbs)] else []

/-- The tokens of a written pair. -/
def tokens (n : Nth) : List Token :=
  if n = odd then [.ident "odd"]
  else if n = even then [.ident "even"]
  else if n.step = 0 then [.number (integer (minus n.offset) n.offset.natAbs)]
  else stepToken n.step n.offset :: plusTokens n.offset

theorem write_eq (a b : Int) : writeStep a ++ writeOffset b = factor a ++ (unit b ++ plus b) := by
  have hstep : writeStep a = factor a ++ ['n'] := by
    unfold writeStep factor
    rw [integer_eq_spelled]
    split
    · rfl
    · split <;> rfl
  have hoffset : 'n' :: writeOffset b = unit b ++ plus b := by
    unfold writeOffset unit plus
    rw [integer_eq_spelled]
    rcases Int.lt_trichotomy b 0 with h | h | h
    · rw [if_neg (by omega), if_neg (by omega), if_pos h, if_neg (by omega), List.append_nil]
    · rw [if_pos h, if_neg (by omega), if_neg (by omega)]
      rfl
    · rw [if_neg (by omega), if_pos h, if_neg (by omega), if_pos h]
      rw [minus, if_neg (by omega)]
      rfl
  rw [hstep, List.append_assoc, ← hoffset]
  rfl

/-! ## Scanning -/

/-- Nothing that is written before this goes on here. -/
def Breaks : List Char → Prop
  | [] => True
  | c :: _ => c = ' ' ∨ c = ')'

theorem Breaks.cases (h : Breaks rest) : rest = [] ∨ (∃ cs, rest = ' ' :: cs) ∨ ∃ cs, rest = ')' :: cs := by
  cases rest with
  | nil => exact Or.inl rfl
  | cons c cs =>
      rcases h with rfl | rfl
      · exact Or.inr (Or.inl ⟨cs, rfl⟩)
      · exact Or.inr (Or.inr ⟨cs, rfl⟩)

theorem Breaks.stops (h : Breaks rest) : Stops rest := by
  rcases h.cases with rfl | ⟨cs, rfl⟩ | ⟨cs, rfl⟩
  · trivial
  · exact ⟨rfl, by decide⟩
  · exact ⟨rfl, by decide⟩

theorem Breaks.ne {c : Char} (h : Breaks rest) (hc : c ≠ ' ' ∧ c ≠ ')') : ∀ cs, rest ≠ c :: cs := by
  rintro cs rfl
  exact not_or.mpr hc h

/-- A spelled integer is read as a number where it breaks off. -/
theorem Breaks.scan_number (h : Breaks rest) (sign : Option Bool) (n : Nat) :
    Lexeme.scan (spelled sign n ++ rest) = .token (.number (integer sign n)) :: Lexeme.scan rest := by
  refine Scan.scan_number sign n ?_ ?_ (h.ne (by decide))
  · rcases h.cases with rfl | ⟨cs, rfl⟩ | ⟨cs, rfl⟩
    · trivial
    · exact ⟨rfl, by decide, by decide, by decide⟩
    · exact ⟨rfl, by decide, by decide, by decide⟩
  · rcases h.cases with rfl | ⟨cs, rfl⟩ | ⟨cs, rfl⟩ <;> rfl

theorem mem_unit {c : Char} (h : c ∈ unit b) : c = 'n' ∨ c = '-' ∨ c.isDigit = true := by
  rcases List.mem_cons.mp h with rfl | h
  · exact Or.inl rfl
  · split at h
    · next hb =>
        rw [minus, if_pos hb] at h
        exact Or.inr ((List.mem_cons.mp h).imp_right Scan.isDigit_of_mem_numeral)
    · exact absurd h List.not_mem_nil

theorem isPlainInName_of_mem_unit : ∀ c ∈ unit b, Text.isPlainInName c = true := by
  intro c hc
  rcases mem_unit hc with rfl | rfl | hdigit
  · rfl
  · rfl
  · simp [Text.isPlainInName, Char.isAlphanum, hdigit]

/-- A factor and a unit are one token, up to where no name goes on. -/
theorem scan_step (a b : Int) (h : Stops rest) (hopen : ∀ cs, rest ≠ '(' :: cs)
    (hclose : ∀ cs, rest ≠ '>' :: cs) :
    Lexeme.scan (factor a ++ (unit b ++ rest)) = .token (stepToken a b) :: Lexeme.scan rest := by
  have hname : Scan.name (unit b ++ rest) = (unit b, rest) :=
    Scan.name_of_plain isPlainInName_of_mem_unit h
  unfold factor stepToken
  split
  · exact Scan.scan_ident (Scan.startsIdentifier_cons rfl) hname hopen fun _ => hclose
  split
  · refine Scan.scan_ident rfl ?_ hopen fun _ => hclose
    show Scan.name ('-' :: (unit b ++ rest)) = _
    rw [Scan.name_cons rfl, hname]
    rfl
  · refine Scan.scan_dimension _ _ ?_ ?_ hname
    · exact ⟨rfl, by decide, by decide, by decide⟩
    · exact Scan.startsIdentifier_cons rfl

theorem scan_plus (h : Breaks rest) (b : Int) :
    Lexeme.scan (plus b ++ rest) = (plusTokens b).map .token ++ Lexeme.scan rest := by
  unfold plus plusTokens
  split
  · exact h.scan_number _ _
  · rfl

/-- A written pair is scanned to its tokens, where it breaks off. -/
theorem scan_write (h : Breaks rest) (n : Nth) :
    Lexeme.scan (n.write ++ rest) = n.tokens.map .token ++ Lexeme.scan rest := by
  have hword : ∀ cs : List Char, (∃ c ds, cs = c :: ds ∧ Scan.isNameStart c = true) →
      (∀ c ∈ cs, Text.isPlainInName c = true) →
      Lexeme.scan (cs ++ rest) = .token (.ident (String.ofList cs)) :: Lexeme.scan rest := by
    rintro _ ⟨c, cs, rfl, hc⟩ hplain
    exact Scan.scan_ident (Scan.startsIdentifier_cons hc) (Scan.name_of_plain hplain h.stops)
      (h.ne (by decide)) fun _ => h.ne (by decide)
  unfold write tokens
  split
  · exact hword "odd".toList ⟨_, _, rfl, rfl⟩ (List.all_eq_true.mp (by decide))
  split
  · exact hword "even".toList ⟨_, _, rfl, rfl⟩ (List.all_eq_true.mp (by decide))
  split
  · rw [integer_eq_spelled]
    exact h.scan_number _ _
  · rw [write_eq, List.append_assoc, List.append_assoc, scan_step, scan_plus h]
    · rfl
    all_goals
      unfold plus
      split
      · first
        | exact ⟨rfl, by decide⟩
        | rintro cs ⟨⟩
      · first
        | exact h.stops
        | exact h.ne (by decide)

/-! ## Reading the tokens -/

/-- Step and offset are integers of 32 bits. -/
structure InRange (n : Nth) : Prop where
  step : Numeral.InRange n.step
  offset : Numeral.InRange n.offset

theorem int_minus (h : Numeral.InRange a) : (integer (minus a) a.natAbs).int = some a := by
  obtain ⟨hmin, hmax⟩ := h
  rw [Scan.int_integer, minus]
  split
  · rw [if_pos rfl, Option.some.injEq]
    omega
  · rw [if_neg (by rintro ⟨⟩), Option.some.injEq]
    omega

/-- A signed number behind a step is the offset. -/
theorem readOffset_plus (h : Numeral.InRange b) (hb : 0 < b) (vs : List ComponentValue) :
    readOffset (.token (.number (integer (some false) b.natAbs)) :: vs) = (b, vs) := by
  have hint : (integer (some false) b.natAbs).int = some b := by
    obtain ⟨hmin, hmax⟩ := h
    rw [Scan.int_integer, if_neg (by rintro ⟨⟩), Option.some.injEq]
    omega
  have hsigned := Scan.signed_integer (some false) b.natAbs
  generalize integer (some false) b.natAbs = m at hint hsigned
  obtain ⟨v, i, s⟩ := m
  obtain rfl : i = some b := hint
  obtain rfl : s = true := hsigned
  rfl

variable {vs : List ComponentValue}

/-- The offset that is in a unit, or behind it, is read back but for the smallest. -/
theorem readUnit_unit (hb : Numeral.InRange b) (hvs : readOffset vs = (0, vs)) (a : Int) :
    readUnit a (unit b) ((plusTokens b).map .token ++ vs) =
      if b = -2147483648 then none else some (⟨a, b⟩, vs) := by
  unfold unit plusTokens
  rcases Int.lt_trichotomy b 0 with h | rfl | h
  · obtain ⟨d, ds, hds, -⟩ := Scan.numeral_cons b.natAbs
    have hall : (d :: ds).all Char.isDigit = true := by
      rw [← hds]
      exact List.all_eq_true.mpr fun c => Scan.isDigit_of_mem_numeral
    have hnat := Scan.natOf_digits_numeral b.natAbs
    rw [hds] at hnat
    rw [if_pos h, if_neg (by omega), minus, if_pos h]
    show readUnit a ('n' :: '-' :: Number.numeral b.natAbs) vs = _
    rw [hds]
    simp only [readUnit, hall, if_true, hnat]
    obtain ⟨hmin, -⟩ := hb
    by_cases hlast : b = -2147483648
    · rw [if_pos hlast, if_neg (by omega)]
    · rw [if_neg hlast, if_pos (by omega), show -(b.natAbs : Int) = b by omega]
  · simp only [Int.lt_irrefl, if_false, List.map_nil, List.nil_append, readUnit, hvs]
    rfl
  · rw [if_neg (by omega), if_pos h, if_neg (by omega)]
    show some (_, _) = _
    rw [List.map_singleton, List.singleton_append, readOffset_plus hb h]

theorem toLower_unit (b : Int) : (unit b).map Char.toLower = unit b := by
  refine (List.map_congr_left fun c hc => ?_).trans (List.map_id _)
  rcases mem_unit hc with rfl | rfl | hdigit
  · rfl
  · rfl
  · exact Scan.ascii_forall (P := fun c => c.isDigit = true → c.toLower = c) (by decide +kernel)
      (Scan.digit_bounds hdigit).2 hdigit

/-- What begins with an `n` or a minus sign is no word for a pair. -/
theorem read_ident {c : Char} {cs : List Char} (hc : c = 'n' ∨ c = '-')
    (hlower : (c :: cs).map Char.toLower = c :: cs) (vs : List ComponentValue) :
    read (.token (.ident (String.ofList (c :: cs))) :: vs) = readIdent (c :: cs) vs := by
  have hword : ∀ d ds, d ≠ 'n' → d ≠ '-' → (String.ofList (d :: ds)).toList.map Char.toLower = d :: ds →
      Text.sameWord (String.ofList (c :: cs)) (String.ofList (d :: ds)) = false := by
    intro d ds hn hminus hd
    rw [Text.sameWord, hd, String.toList_ofList, hlower, beq_eq_false_iff_ne]
    rintro ⟨⟩
    exact (not_or.mpr ⟨hn, hminus⟩) hc
  have hodd := hword 'o' ['d', 'd'] (by decide) (by decide) (by decide)
  have heven := hword 'e' ['v', 'e', 'n'] (by decide) (by decide) (by decide)
  show (if Text.sameWord (String.ofList (c :: cs)) "odd" then some (odd, vs)
    else if Text.sameWord (String.ofList (c :: cs)) "even" then some (even, vs)
    else readIdent ((String.ofList (c :: cs)).toList.map Char.toLower) vs) = _
  rw [if_neg (Bool.eq_false_iff.mp hodd), if_neg (Bool.eq_false_iff.mp heven), String.toList_ofList, hlower]

/-- A factor and a unit in one token are read as a step and the rest of the pair. -/
theorem read_stepToken (h : Numeral.InRange a) (b : Int) (vs : List ComponentValue) :
    read (.token (stepToken a b) :: vs) = readUnit a (unit b) vs := by
  have hlower := toLower_unit b
  unfold stepToken
  split
  · next ha =>
      rw [ha]
      exact read_ident (Or.inl rfl) hlower vs
  split
  · next ha =>
      rw [ha]
      exact read_ident (Or.inr rfl) (by rw [List.map_cons, hlower]; rfl) vs
  · have hint := int_minus h
    generalize integer (minus a) a.natAbs = m at hint
    simp only [read, List.dropWhile, isBlank, hint, String.toList_ofList, hlower]

/-- The tokens of a pair are read back, unless its offset is the smallest and behind a step. -/
theorem read_tokens (h : n.InRange) (hvs : readOffset vs = (0, vs)) :
    read (n.tokens.map .token ++ vs) =
      if n.step ≠ 0 ∧ n.offset = -2147483648 then none else some (n, vs) := by
  unfold tokens
  split
  · next hn =>
      rw [hn]
      rfl
  split
  · next hn =>
      rw [hn]
      rfl
  split
  · next hstep =>
      obtain ⟨a, b⟩ := n
      obtain rfl : a = 0 := hstep
      rw [if_neg (fun hc => hc.1 rfl)]
      show (integer (minus b) b.natAbs).int.map _ = _
      rw [int_minus h.offset]
      rfl
  · next hstep =>
      rw [List.map_cons, List.cons_append, read_stepToken h.step, readUnit_unit h.offset hvs]
      simp only [ne_eq, hstep, not_false_eq_true, true_and]

/-! ## The range of what is read -/

theorem inRange_readOffset (h : EachOf Lexeme.Fits vs) : Numeral.InRange (readOffset vs).1 := by
  have hzero : Numeral.InRange 0 := ⟨by decide, by decide⟩
  have hdrop : EachOf Lexeme.Fits (vs.dropWhile isBlank) := h.of_subset (List.dropWhile_sublist _).subset
  unfold readOffset
  split
  · next hvs =>
      rw [hvs, EachOf, Each] at hdrop
      exact (hdrop.1 _ rfl).1
  · next more hvs =>
      rw [hvs, EachOf] at hdrop
      have hmore : EachOf Lexeme.Fits (more.dropWhile isBlank) :=
        hdrop.2.of_subset (List.dropWhile_sublist _).subset
      split
      · next hnumber =>
          rw [hnumber, EachOf, Each] at hmore
          split
          · exact (hmore.1 _ rfl).1
          split
          · exact Numeral.Fits.neg hmore.1 rfl rfl
          · exact hzero
      · exact hzero
  · exact hzero

theorem inRange_readNegated {r : Nth × List ComponentValue} (ha : Numeral.InRange a)
    (h : EachOf Lexeme.Fits vs) (hr : readNegated a vs = some r) : r.1.InRange := by
  have hdrop : EachOf Lexeme.Fits (vs.dropWhile isBlank) := h.of_subset (List.dropWhile_sublist _).subset
  unfold readNegated at hr
  split at hr
  · next hnumber =>
      cases hr
      rw [hnumber, EachOf, Each] at hdrop
      exact ⟨ha, Numeral.Fits.neg hdrop.1 rfl rfl⟩
  · cases hr

theorem inRange_readUnit {r : Nth × List ComponentValue} {k : List Char} (ha : Numeral.InRange a)
    (h : EachOf Lexeme.Fits vs) (hr : readUnit a k vs = some r) : r.1.InRange := by
  unfold readUnit at hr
  split at hr
  · cases hr
    exact ⟨ha, inRange_readOffset h⟩
  · exact inRange_readNegated ha h hr
  · split at hr
    · simp only at hr
      split at hr
      · cases hr
        refine ⟨ha, ?_⟩
        show Numeral.InRange (-_)
        unfold Numeral.InRange
        omega
      · cases hr
    · cases hr
  · cases hr

/-- A pair that is read from values of a text has a step and an offset of 32 bits. -/
theorem inRange_read {r : Nth × List ComponentValue} (h : EachOf Lexeme.Fits vs) (hr : read vs = some r) :
    r.1.InRange := by
  have hsmall : ∀ i : Int, -2 ≤ i → i ≤ 2 → Numeral.InRange i := fun i hmin hmax => ⟨by omega, by omega⟩
  have hdrop : EachOf Lexeme.Fits (vs.dropWhile isBlank) := h.of_subset (List.dropWhile_sublist _).subset
  unfold read at hr
  split at hr
  · next hvs =>
      rw [hvs, EachOf] at hdrop
      split at hr
      · cases hr
        exact ⟨hsmall 2 (by decide) (by decide), hsmall 1 (by decide) (by decide)⟩
      split at hr
      · cases hr
        exact ⟨hsmall 2 (by decide) (by decide), hsmall 0 (by decide) (by decide)⟩
      · unfold readIdent at hr
        split at hr
        · exact inRange_readUnit (hsmall (-1) (by decide) (by decide)) hdrop.2 hr
        · exact inRange_readUnit (hsmall 1 (by decide) (by decide)) hdrop.2 hr
  · next hvs =>
      rw [hvs, EachOf, Each] at hdrop
      obtain ⟨b, hb, rfl⟩ := Option.map_eq_some_iff.mp hr
      exact ⟨hsmall 0 (by decide) (by decide), (hdrop.1 b hb).1⟩
  · next hvs =>
      rw [hvs, EachOf, Each] at hdrop
      split at hr
      · next hint => exact inRange_readUnit (hdrop.1 _ hint).1 hdrop.2 hr
      · cases hr
  · next hvs =>
      rw [hvs, EachOf, EachOf] at hdrop
      split at hr
      · cases hr
      · exact inRange_readUnit (hsmall 1 (by decide) (by decide)) hdrop.2.2 hr
  · cases hr

/-! ## What is left over -/

theorem suffix_of_dropWhile {p : ComponentValue → Bool} {v : ComponentValue} {vs rest : List ComponentValue}
    (h : vs.dropWhile p = v :: rest) : rest <:+ vs :=
  ((List.suffix_cons v rest).trans (h ▸ List.suffix_refl _)).trans (List.dropWhile_suffix p)

theorem suffix_readOffset (vs : List ComponentValue) : (readOffset vs).2 <:+ vs := by
  unfold readOffset
  split
  · next h => exact suffix_of_dropWhile h
  · next more h =>
      have hmore := suffix_of_dropWhile h
      split
      · next h' =>
          have hrest := (suffix_of_dropWhile h').trans hmore
          split
          · exact hrest
          split
          · exact hrest
          · exact List.suffix_refl _
      · exact List.suffix_refl _
  · exact List.suffix_refl _

theorem suffix_readUnit {a : Int} {k : List Char} {vs : List ComponentValue} {r : Nth × List ComponentValue}
    (h : readUnit a k vs = some r) : r.2 <:+ vs := by
  unfold readUnit at h
  split at h
  · cases h
    exact suffix_readOffset vs
  · unfold readNegated at h
    split at h
    · next hvs =>
        cases h
        exact suffix_of_dropWhile hvs
    · cases h
  · split at h
    · simp only at h
      split at h
      · cases h
        exact List.suffix_refl _
      · cases h
    · cases h
  · cases h

/-- What is left over is the end of what there was. -/
theorem suffix_read {vs : List ComponentValue} {r : Nth × List ComponentValue} (h : read vs = some r) :
    r.2 <:+ vs := by
  unfold read at h
  split at h
  · next hvs =>
      have hrest := suffix_of_dropWhile hvs
      split at h
      · cases h
        exact hrest
      split at h
      · cases h
        exact hrest
      · unfold readIdent at h
        split at h <;> exact (suffix_readUnit h).trans hrest
  · next hvs =>
      obtain ⟨b, -, rfl⟩ := Option.map_eq_some_iff.mp h
      exact suffix_of_dropWhile hvs
  · next hvs =>
      split at h
      · exact (suffix_readUnit h).trans (suffix_of_dropWhile hvs)
      · cases h
  · next hvs =>
      split at h
      · cases h
      · exact ((suffix_readUnit h).trans (List.suffix_cons _ _)).trans (suffix_of_dropWhile hvs)
  · cases h

/-! ## Written and read -/

theorem ofText_text (n : Nth) : ofText n.text = n.tokens.map .token := by
  have hnest : ∀ ts : List Token, nest [] [] (ts.map .token) = ts.map .token := by
    intro ts
    induction ts with
    | nil => rfl
    | cons t ts ih => rw [List.map_cons, nest_token, ih, List.map_cons]
  have hscan := @scan_write [] trivial n
  rw [Lexeme.scan, List.append_nil, List.append_nil] at hscan
  rw [ofText, text, String.toList_ofList, hscan, hnest]

/-- A pair of 32-bit integers is read back from its text, and nothing is left over, unless the offset is
the smallest integer and stands behind a step; then nothing is read.  Whatever is read from a run of
values of a text has a step and an offset of 32 bits; as the arithmetic here is exact, no negation
leaves that range on the way. -/
theorem read_text (n : Nth) (h : n.InRange) :
    read (ofText n.text) =
        (if n.step ≠ 0 ∧ n.offset = -2147483648 then none else some (n, [])) ∧
      ∀ text vs m rest, Within (ofText text) vs → read vs = some (m, rest) → m.InRange := by
  constructor
  · have hread := @read_tokens n [] h rfl
    rwa [List.append_nil, ← ofText_text] at hread
  · intro text vs m rest hw hr
    have hfits := (each_ofText (forall_mem_scan Scan.fits_next) text).within hw
    exact inRange_read hfits hr

/-- The smallest offset without a step, where it is a number, and with an offset that a unit holds. -/
theorem read_text_extremes :
    read (ofText (text ⟨0, -2147483648⟩)) = some (⟨0, -2147483648⟩, []) ∧
      read (ofText (text ⟨-2147483648, -2147483647⟩)) = some (⟨-2147483648, -2147483647⟩, []) := by
  have h := (read_text ⟨0, -2147483648⟩ ⟨⟨by decide, by decide⟩, ⟨by decide, by decide⟩⟩).1
  have h' := (read_text ⟨-2147483648, -2147483647⟩ ⟨⟨by decide, by decide⟩, ⟨by decide, by decide⟩⟩).1
  exact ⟨h.trans (if_neg (by decide)), h'.trans (if_neg (by decide))⟩

/-- The smallest offset behind a step is written as the end of a name, and not read back from there. -/
theorem text_not_read :
    ¬ ∀ n : Nth, n.InRange → read (ofText n.text) = some (n, []) := by
  intro h
  have hread := h ⟨1, -2147483648⟩ ⟨⟨by decide, by decide⟩, ⟨by decide, by decide⟩⟩
  have hnone : read (ofText (text ⟨1, -2147483648⟩)) = none := by decide +kernel
  rw [hnone] at hread
  cases hread

end StyleTree.Nth
