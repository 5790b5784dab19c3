/-
# `Token.Scan` — reading text into tokens

`Lexeme.scan` reads the whole text.  Every function below takes the text
that is left and returns what it read together with what is then left;
the `length` lemmas say that it returns no more than it was given, which
is why the scan ends.  No text is refused: what fits no longer token is a
delimiter, and an unclosed string, URL or comment ends with the text.

Line ends are the line feed, the carriage return and the form feed, a
carriage return followed by a line feed counting as one where it matters.
U+0000 is read as the replacement character in names, strings and URLs.
-/
import StyleTree.Token.Basic
import StyleTree.Text.Keyword
import StyleTree.Text.Identifier

namespace StyleTree.Scan

open Text (replacement isBeyondAscii)

/-! ## Classes of characters -/

def isNewline (c : Char) : Bool := c == '\n' || c == '\r' || c == '\x0c'

def isBlank (c : Char) : Bool := c == ' ' || c == '\t' || isNewline c

def isNameStart (c : Char) : Bool := c.isAlpha || c == '_' || c == '\x00' || isBeyondAscii c

def isNameChar (c : Char) : Bool := isNameStart c || c.isDigit || c == '-'

def startsWithNewline : List Char → Bool
  | c :: _ => isNewline c
  | [] => false

def startsWithDigit : List Char → Bool
  | c :: _ => c.isDigit
  | [] => false

/-- Whether an identifier starts here.  A backslash starts one unless a line end follows it; behind
a leading `-` it always does. -/
def startsIdentifier : List Char → Bool
  | '-' :: c :: _ => isNameStart c || c == '-' || c == '\\'
  | '\\' :: cs => !startsWithNewline cs
  | c :: _ => isNameStart c
  | [] => false

/-- Whether a number starts here: digits, or a point and a digit, behind an optional sign. -/
def startsNumber : List Char → Bool
  | '.' :: cs => startsWithDigit cs
  | '+' :: '.' :: cs => startsWithDigit cs
  | '-' :: '.' :: cs => startsWithDigit cs
  | '+' :: cs => startsWithDigit cs
  | '-' :: cs => startsWithDigit cs
  | cs => startsWithDigit cs

/-! ## Escapes -/

def isHexDigit (c : Char) : Bool :=
  c.isDigit || ('a' ≤ c && c ≤ 'f') || ('A' ≤ c && c ≤ 'F')

def hexValue (c : Char) : Nat :=
  if c.isDigit then c.toNat - 48
  else if 'a' ≤ c then c.toNat - 87
  else c.toNat - 55

/-- At most `fuel` hexadecimal digits added to `n`. -/
def hexNumber : (fuel : Nat) → (n : Nat) → List Char → Nat × List Char
  | fuel + 1, n, c :: cs =>
    if isHexDigit c then hexNumber fuel (16 * n + hexValue c) cs else (n, c :: cs)
  | _, n, cs => (n, cs)

theorem hexNumber_length (fuel n : Nat) (cs : List Char) :
    (hexNumber fuel n cs).2.length ≤ cs.length := by
  induction fuel generalizing n cs with
  | zero => simp [hexNumber]
  | succ fuel ih =>
    cases cs with
    | nil => simp [hexNumber]
    | cons c cs =>
      simp only [hexNumber]
      split
      · exact Nat.le_succ_of_le (ih _ _)
      · exact Nat.le_refl _

/-- The text behind one line end. -/
def skipNewline : List Char → List Char
  | '\r' :: '\n' :: cs => cs
  | c :: cs => if isNewline c then cs else c :: cs
  | [] => []

theorem skipNewline_length (cs : List Char) : (skipNewline cs).length ≤ cs.length := by
  unfold skipNewline
  split
  · simp only [List.length_cons]; omega
  · split <;> simp
  · exact Nat.le_refl _

/-- The text behind the one blank that may end an escape by code. -/
def skipBlank : List Char → List Char
  | ' ' :: cs => cs
  | '\t' :: cs => cs
  | cs => skipNewline cs

theorem skipBlank_length (cs : List Char) : (skipBlank cs).length ≤ cs.length := by
  unfold skipBlank
  split
  · simp
  · simp
  · exact skipNewline_length _

/-- The character with this code; codes that no character has give the replacement character. -/
def charOfCode (n : Nat) : Char :=
  if n != 0 && n.isValidChar then Char.ofNat n else replacement

/-- What an escape stands for, read behind its backslash. -/
def escape : List Char → Char × List Char
  | [] => (replacement, [])
  | c :: cs =>
    if isHexDigit c then
      let (n, rest) := hexNumber 6 0 (c :: cs)
      (charOfCode n, skipBlank rest)
    else if c == '\x00' then (replacement, cs)
    else (c, cs)

theorem escape_length (cs : List Char) : (escape cs).2.length ≤ cs.length := by
  unfold escape
  split
  · simp
  · split
    · exact Nat.le_trans (skipBlank_length _) (hexNumber_length _ _ _)
    · split <;> simp

/-! ## Names -/

/-- The longest name here, possibly empty; it ends before an escaped line end. -/
def name : List Char → List Char × List Char
  | [] => ([], [])
  | c :: cs =>
    if isNameChar c then
      let r := name cs
      ((if c == '\x00' then replacement else c) :: r.1, r.2)
    else if c == '\\' && !startsWithNewline cs then
      let r := name (escape cs).2
      ((escape cs).1 :: r.1, r.2)
    else ([], c :: cs)
termination_by cs => cs.length
decreasing_by all_goals first | exact Nat.lt_succ_self _ | exact Nat.lt_succ_of_le (escape_length _)

theorem name_length (cs : List Char) : (name cs).2.length ≤ cs.length := by
  fun_induction name cs with
  | case1 => simp
  | case2 c cs _ _ ih => exact Nat.le_succ_of_le ih
  | case3 c cs _ _ _ ih => exact Nat.le_succ_of_le (Nat.le_trans ih (escape_length cs))
  | case4 => simp

/-! ## Strings -/

/-- The rest of a string behind its opening quote: its text, whether a line end broke it off, and
what is left. -/
def quoted (quote : Char) : List Char → List Char × Bool × List Char
  | [] => ([], false, [])
  | c :: cs =>
    if c == quote then ([], false, cs)
    else if isNewline c then ([], true, c :: cs)
    else if c == '\\' then
      if cs.isEmpty then ([], false, [])
      else if startsWithNewline cs then quoted quote (skipNewline cs)
      else
        let r := quoted quote (escape cs).2
        ((escape cs).1 :: r.1, r.2)
    else
      let r := quoted quote cs
      ((if c == '\x00' then replacement else c) :: r.1, r.2)
termination_by cs => cs.length
decreasing_by
  · exact Nat.lt_succ_of_le (skipNewline_length _)
  · exact Nat.lt_succ_of_le (escape_length _)
  · exact Nat.lt_succ_self _

theorem quoted_length (quote : Char) (cs : List Char) :
    (quoted quote cs).2.2.length ≤ cs.length := by
  fun_induction quoted quote cs with
  | case1 => simp
  | case2 => simp
  | case3 => simp
  | case4 => simp
  | case5 c cs _ _ _ _ _ ih => exact Nat.le_succ_of_le (Nat.le_trans ih (skipNewline_length cs))
  | case6 c cs _ _ _ _ _ _ ih => exact Nat.le_succ_of_le (Nat.le_trans ih (escape_length cs))
  | case7 c cs _ _ _ _ ih => exact Nat.le_succ_of_le ih

/-! ## Unquoted URLs -/

/-- The text behind leading blanks. -/
def skipBlanks (cs : List Char) : List Char := cs.dropWhile isBlank

theorem skipBlanks_length (cs : List Char) : (skipBlanks cs).length ≤ cs.length :=
  (List.dropWhile_sublist _).length_le

/-- Characters that may not stand in an unquoted URL. -/
def isForbiddenInUrl (c : Char) : Bool :=
  c == '"' || c == '\'' || c == '(' || c.val == 127 || (1 ≤ c.val && c.val ≤ 8) || c.val == 11
    || (14 ≤ c.val && c.val ≤ 31)

/-- The end of an unquoted URL behind its text and a blank: what is left behind the closing
parenthesis, or behind the first character of another text. -/
def urlEnd (cs : List Char) : Bool × List Char :=
  match skipBlanks cs with
  | [] => (true, [])
  | ')' :: rest => (true, rest)
  | _ :: rest => (false, rest)

theorem urlEnd_length (cs : List Char) : (urlEnd cs).2.length ≤ cs.length := by
  have := skipBlanks_length cs
  unfold urlEnd
  split <;> simp_all <;> omega

/-- The text of an unquoted URL, whether it is well formed, and what is left: behind the closing
parenthesis, or behind the character that spoils it. -/
def urlText : List Char → List Char × Bool × List Char
  | [] => ([], true, [])
  | c :: cs =>
    if isBlank c then ([], urlEnd cs)
    else if c == ')' then ([], true, cs)
    else if isForbiddenInUrl c then ([], false, cs)
    else if c == '\\' then
      if startsWithNewline cs then ([], false, cs)
      else
        let r := urlText (escape cs).2
        ((escape cs).1 :: r.1, r.2)
    else
      let r := urlText cs
      ((if c == '\x00' then replacement else c) :: r.1, r.2)
termination_by cs => cs.length
decreasing_by
  · exact Nat.lt_succ_of_le (escape_length _)
  · exact Nat.lt_succ_self _

theorem urlText_length (cs : List Char) : (urlText cs).2.2.length ≤ cs.length := by
  fun_induction urlText cs with
  | case1 => simp
  | case2 c cs => exact Nat.le_succ_of_le (urlEnd_length cs)
  | case3 => simp
  | case4 => simp
  | case5 => simp
  | case6 c cs _ _ _ _ _ _ ih => exact Nat.le_succ_of_le (Nat.le_trans ih (escape_length cs))
  | case7 c cs _ _ _ _ _ ih => exact Nat.le_succ_of_le ih

/-- The raw text of a spoiled URL up to its closing parenthesis, and what is left behind that; an
escaped parenthesis or backslash is passed over. -/
def badUrlEnd : List Char → List Char × List Char
  | [] => ([], [])
  | ')' :: cs => ([], cs)
  | '\\' :: ')' :: cs =>
    let r := badUrlEnd cs
    ('\\' :: ')' :: r.1, r.2)
  | '\\' :: '\\' :: cs =>
    let r := badUrlEnd cs
    ('\\' :: '\\' :: r.1, r.2)
  | c :: cs =>
    let r := badUrlEnd cs
    (c :: r.1, r.2)

theorem badUrlEnd_length (cs : List Char) : (badUrlEnd cs).2.length ≤ cs.length := by
  fun_induction badUrlEnd cs with
  | case1 => simp
  | case2 => simp
  | case3 cs _ ih => exact Nat.le_succ_of_le (Nat.le_succ_of_le ih)
  | case4 cs _ ih => exact Nat.le_succ_of_le (Nat.le_succ_of_le ih)
  | case5 c cs _ _ _ _ ih => exact Nat.le_succ_of_le ih

/-- A URL behind `url(`, when no quoted string follows: the token and what is left. -/
def unquotedUrl (cs : List Char) : Token × List Char :=
  let start := skipBlanks cs
  let r := urlText start
  if r.2.1 then (.url (String.ofList r.1), r.2.2)
  else
    let spoiled := start.take (start.length - r.2.2.length)
    let raw := badUrlEnd r.2.2
    (.badUrl (String.ofList (spoiled ++ raw.1)), raw.2)

theorem unquotedUrl_length (cs : List Char) : (unquotedUrl cs).2.length ≤ cs.length := by
  have h₁ := skipBlanks_length cs
  have h₂ := urlText_length (skipBlanks cs)
  simp only [unquotedUrl]
  split
  · exact Nat.le_trans h₂ h₁
  · exact Nat.le_trans (badUrlEnd_length _) (Nat.le_trans h₂ h₁)

/-- Whether a quoted string follows, blanks aside. -/
def startsQuoted (cs : List Char) : Bool :=
  match skipBlanks cs with
  | c :: _ => c == '"' || c == '\''
  | [] => false

/-- A name, the function it opens, or an unquoted URL. -/
def identLike (cs : List Char) : Lexeme × List Char :=
  let n := name cs
  let s := String.ofList n.1
  match n.2 with
  | '(' :: rest =>
    if Text.sameWord s "url" && !startsQuoted rest then
      let u := unquotedUrl rest
      (.token u.1, u.2)
    else (.opening (.function s), rest)
  | rest => (.token (.ident s), rest)

theorem identLike_length (cs : List Char) : (identLike cs).2.length ≤ (name cs).2.length := by
  simp only [identLike]
  split
  · rename_i rest h
    rw [h]
    split
    · exact Nat.le_succ_of_le (unquotedUrl_length rest)
    · simp
  · exact Nat.le_refl _

/-! ## Numbers -/

/-- The digits here. -/
def digits (cs : List Char) : List Nat := (cs.takeWhile Char.isDigit).map (fun c => c.toNat - 48)

def afterDigits (cs : List Char) : List Char := cs.dropWhile Char.isDigit

theorem afterDigits_length (cs : List Char) : (afterDigits cs).length ≤ cs.length :=
  (List.dropWhile_sublist _).length_le

/-- A sign, and what is left. -/
def sign : List Char → Option Bool × List Char
  | '+' :: cs => (some false, cs)
  | '-' :: cs => (some true, cs)
  | cs => (none, cs)

theorem sign_length (cs : List Char) : (sign cs).2.length ≤ cs.length := by
  unfold sign; split <;> simp

/-- The digits behind a point, if a digit follows it. -/
def fraction : List Char → Option (List Nat) × List Char
  | '.' :: cs => if startsWithDigit cs then (some (digits cs), afterDigits cs) else (none, '.' :: cs)
  | cs => (none, cs)

theorem fraction_length (cs : List Char) : (fraction cs).2.length ≤ cs.length := by
  unfold fraction
  split
  · split
    · exact Nat.le_succ_of_le (afterDigits_length _)
    · exact Nat.le_refl _
  · exact Nat.le_refl _

/-- Whether an exponent is negative, and its digits, if there are any. -/
def exponent : List Char → Option (Bool × List Nat) × List Char
  | c :: cs =>
    let s := sign cs
    if (c == 'e' || c == 'E') && startsWithDigit s.2 then
      (some (s.1 == some true, digits s.2), afterDigits s.2)
    else (none, c :: cs)
  | [] => (none, [])

theorem exponent_length (cs : List Char) : (exponent cs).2.length ≤ cs.length := by
  simp only [exponent]
  split
  · split
    · exact Nat.le_succ_of_le (Nat.le_trans (afterDigits_length _) (sign_length _))
    · exact Nat.le_refl _
  · exact Nat.le_refl _

/-- The parts of a written number. -/
structure Written where
  sign : Option Bool
  whole : List Nat
  fraction : Option (List Nat)
  exponent : Option (Bool × List Nat)

/-- The number here. -/
def number (cs : List Char) : Written × List Char :=
  let s := sign cs
  let f := fraction (afterDigits s.2)
  let e := exponent f.2
  (⟨s.1, digits s.2, f.1, e.1⟩, e.2)

namespace Written

open Number

/-- The natural with these decimal digits. -/
def natOf (ds : List Nat) : Nat := ds.foldl (fun n d => 10 * n + d) 0

/-- The digits before the point, accumulated in double precision. -/
def wholePart (ds : List Nat) : Magnitude :=
  ds.foldl (fun v d => double.add (double.mul v (.finite 10 0)) (.finite d 0)) .zero

/-- One tenth in double precision. -/
def tenth : Magnitude := double.round 1 10

/-- The digits behind the point, accumulated in double precision with a weight that is a tenth of
the last one. -/
def fractionPart (ds : List Nat) : Magnitude :=
  (ds.foldl
    (fun (v, weight) d =>
      (double.add v (double.mul (.finite d 0) weight), double.mul weight tenth))
    (Magnitude.zero, tenth)).1

/-- The powers of ten that are taken upward: both lie half way between two numbers of double
precision, the first exactly and the second within a thousandth of their distance. -/
def halfWayPowers : List Nat := [23, 210]

/-- A power of ten in double precision; beyond four hundred nothing changes any more. -/
def powerOfTen (negative : Bool) (n : Nat) : Magnitude :=
  let n := min n 400
  if negative then double.round 1 (Nat.pow 10 n)
  else if halfWayPowers.contains n then (double.round (Nat.pow 10 n) 1).next
  else double.round (Nat.pow 10 n) 1

/-- The magnitude in double precision. -/
def magnitude (w : Written) : Magnitude :=
  let v := double.add (wholePart w.whole) (fractionPart (w.fraction.getD []))
  match w.exponent with
  | some (negative, ds) => double.mul v (powerOfTen negative (natOf ds))
  | none => v

def negative (w : Written) : Bool := w.sign == some true

/-- The integer written, kept within 32 bits; none if there is a fraction or an exponent. -/
def int (w : Written) : Option Int :=
  if w.fraction.isSome || w.exponent.isSome then none
  else if w.negative then some (max (-(natOf w.whole : Int)) (-2147483648))
  else some (min (natOf w.whole : Int) 2147483647)

/-- The number with its magnitude in single precision. -/
def numeral (w : Written) (m : Magnitude) : Numeral :=
  ⟨⟨w.negative, single.convert m⟩, w.int, w.sign.isSome⟩

end Written

/-- A number, a percentage or a dimension. -/
def numeric (cs : List Char) : Token × List Char :=
  let w := (number cs).1
  let m := w.magnitude
  match (number cs).2 with
  | '%' :: rest => (.percentage (w.numeral (Number.double.divNat m 100)), rest)
  | rest =>
    if startsIdentifier rest then
      let u := name rest
      (.dimension (w.numeral m) (String.ofList u.1), u.2)
    else (.number (w.numeral m), rest)

theorem numeric_length (cs : List Char) : (numeric cs).2.length ≤ (number cs).2.length := by
  simp only [numeric]
  split
  · rename_i h; rw [h]; simp
  · split
    · exact name_length _
    · exact Nat.le_refl _

/-! ## Comments -/

/-- The text behind a comment, read behind its opening. -/
def commentEnd : List Char → List Char
  | [] => []
  | '*' :: '/' :: cs => cs
  | _ :: cs => commentEnd cs

theorem commentEnd_length (cs : List Char) : (commentEnd cs).length ≤ cs.length := by
  fun_induction commentEnd cs <;> simp_all <;> omega

/-! ## One lexeme -/

/-- The tokens and openers with one spelling each. -/
def fixed : List Char → Option (Lexeme × List Char)
  | '-' :: '-' :: '>' :: cs => some (.token .commentClose, cs)
  | '<' :: '!' :: '-' :: '-' :: cs => some (.token .commentOpen, cs)
  | '~' :: '=' :: cs => some (.token .includes, cs)
  | '|' :: '=' :: cs => some (.token .dashMatch, cs)
  | '^' :: '=' :: cs => some (.token .startsWith, cs)
  | '$' :: '=' :: cs => some (.token .endsWith, cs)
  | '*' :: '=' :: cs => some (.token .contains, cs)
  | ':' :: cs => some (.token .colon, cs)
  | ';' :: cs => some (.token .semicolon, cs)
  | ',' :: cs => some (.token .comma, cs)
  | '(' :: cs => some (.opening (.bracket .round), cs)
  | '[' :: cs => some (.opening (.bracket .square), cs)
  | '\x7b' :: cs => some (.opening (.bracket .curly), cs)
  | ')' :: cs => some (.token (.close .round), cs)
  | ']' :: cs => some (.token (.close .square), cs)
  | '\x7d' :: cs => some (.token (.close .curly), cs)
  | _ => none

theorem fixed_length {cs rest : List Char} {l : Lexeme} (h : fixed cs = some (l, rest)) :
    rest.length < cs.length := by
  unfold fixed at h
  split at h <;> simp_all <;> omega

/-- A quoted string, well formed or broken off. -/
def stringToken (quote : Char) (cs : List Char) : Token × List Char :=
  let r := quoted quote cs
  let s := String.ofList r.1
  (if r.2.1 then .badString s else .string s, r.2.2)

/-- A `#`: an identifier, another name, or nothing follows. -/
def hashToken (cs : List Char) : Token × List Char :=
  let r := name cs
  let s := String.ofList r.1
  if startsIdentifier cs then (.idHash s, r.2)
  else
    match cs with
    | c :: _ => if c.isDigit || c == '-' then (.hash s, r.2) else (.delim '#', cs)
    | [] => (.delim '#', cs)

theorem hashToken_length (cs : List Char) : (hashToken cs).2.length ≤ cs.length := by
  simp only [hashToken]
  split
  · exact name_length cs
  · split
    · split
      · exact name_length _
      · exact Nat.le_refl _
    · exact Nat.le_refl _

/-- An `@`: an identifier or nothing follows. -/
def atToken (cs : List Char) : Token × List Char :=
  if startsIdentifier cs then
    let r := name cs
    (.atKeyword (String.ofList r.1), r.2)
  else (.delim '@', cs)

theorem atToken_length (cs : List Char) : (atToken cs).2.length ≤ cs.length := by
  simp only [atToken]
  split
  · exact name_length cs
  · exact Nat.le_refl _

/-- What a character begins when it begins no number, name, string, blank or fixed token; a comment
gives nothing. -/
def other (c : Char) (cs : List Char) : Option Lexeme × List Char :=
  if c == '#' then
    let r := hashToken cs
    (some (.token r.1), r.2)
  else if c == '@' then
    let r := atToken cs
    (some (.token r.1), r.2)
  else
    match c, cs with
    | '/', '*' :: rest => (none, commentEnd rest)
    | _, _ => (some (.token (.delim c)), cs)

theorem other_length (c : Char) (cs : List Char) : (other c cs).2.length ≤ cs.length := by
  simp only [other]
  split
  · exact hashToken_length cs
  · split
    · exact atToken_length cs
    · split
      · exact Nat.le_succ_of_le (commentEnd_length _)
      · exact Nat.le_refl _

/-- The lexeme that starts with `c`, if it is no comment, and what is left. -/
def next (c : Char) (cs : List Char) : Option Lexeme × List Char :=
  if isBlank c then (some (.token .blank), skipBlanks cs)
  else if c == '"' || c == '\'' then
    let r := stringToken c cs
    (some (.token r.1), r.2)
  else
    match fixed (c :: cs) with
    | some (l, rest) => (some l, rest)
    | none =>
      if startsNumber (c :: cs) then
        let r := numeric (c :: cs)
        (some (.token r.1), r.2)
      else if startsIdentifier (c :: cs) then
        let r := identLike (c :: cs)
        (some r.1, r.2)
      else other c cs

/-- A name that starts here takes its first character. -/
theorem name_length_lt {c : Char} {cs : List Char} (h : startsIdentifier (c :: cs) = true) :
    (name (c :: cs)).2.length ≤ cs.length := by
  have hc : isNameChar c = true ∨ c = '\\' ∧ startsWithNewline cs = false := by
    unfold startsIdentifier at h
    split at h
    · rename_i h'; cases h'; left; decide
    · rename_i h'; cases h'; right; simpa using h
    · rename_i h'; cases h'; left; simp [isNameChar, h]
    · rename_i h'; cases h'
  rw [name]
  rcases hc with hc | ⟨rfl, hc⟩
  · simp only [hc, if_true]
    exact name_length cs
  · rw [if_neg (by decide), if_pos (by simp [hc])]
    exact Nat.le_trans (name_length _) (escape_length cs)

/-- A number that starts here takes its first character. -/
theorem number_length_lt {c : Char} {cs : List Char} (h : startsNumber (c :: cs) = true) :
    (number (c :: cs)).2.length ≤ cs.length := by
  have step : (afterDigits (sign (c :: cs)).2).length ≤ cs.length ∨
      (c = '.' ∧ startsWithDigit cs = true) := by
    unfold startsNumber at h
    split at h
    · rename_i h'; cases h'; exact Or.inr ⟨rfl, h⟩
    all_goals left
    · rename_i h'; cases h'; exact afterDigits_length _
    · rename_i h'; cases h'; exact afterDigits_length _
    · rename_i h'; cases h'; exact afterDigits_length _
    · rename_i h'; cases h'; exact afterDigits_length _
    · rename_i hdot _ _ hplus hminus
      have hs : (sign (c :: cs)).2 = c :: cs := by
        unfold sign
        split
        · rename_i h'; exact absurd h' (hplus _)
        · rename_i h'; exact absurd h' (hminus _)
        · rfl
      rw [hs, afterDigits, List.dropWhile_cons, if_pos (show c.isDigit = true from h)]
      exact afterDigits_length cs
  rcases step with step | ⟨rfl, hd⟩
  · exact Nat.le_trans (exponent_length _) (Nat.le_trans (fraction_length _) step)
  · have h1 : afterDigits (sign ('.' :: cs)).2 = '.' :: cs := rfl
    have h2 : (fraction ('.' :: cs)).2 = afterDigits cs := by simp [fraction, hd]
    simp only [number, h1, h2]
    exact Nat.le_trans (exponent_length _) (afterDigits_length cs)

theorem next_length (c : Char) (cs : List Char) : (next c cs).2.length ≤ cs.length := by
  simp only [next]
  split
  · exact skipBlanks_length cs
  · split
    · exact quoted_length c cs
    · split
      · rename_i l rest h
        exact Nat.le_of_lt_succ (fixed_length h)
      · split
        · rename_i h
          exact Nat.le_trans (numeric_length _) (number_length_lt h)
        · split
          · rename_i h
            exact Nat.le_trans (identLike_length _) (name_length_lt h)
          · exact other_length c cs

end StyleTree.Scan

/-- The lexemes of a text, comments left out. -/
def StyleTree.Lexeme.scan : List Char → List StyleTree.Lexeme
  | [] => []
  | c :: cs =>
    let r := StyleTree.Scan.next c cs
    r.1.toList ++ scan r.2
termination_by cs => cs.length
decreasing_by exact Nat.lt_succ_of_le (StyleTree.Scan.next_length c cs)
