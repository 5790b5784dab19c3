/-
# `Declaration.ValueKind` — what a value may look like

A value kind is a coarse grammar: one keyword out of a list, a colour, a
length, or kinds put together as alternatives, repetitions and lists.
`ValueKind.production` reads the longest value of a kind from the front of
a run and gives its canonical text: keywords and function names in lower
case, lists with a comma and a blank.  `ValueKind.accept?` wants the kind
to cover the whole run.
-/
import StyleTree.Cursor
import StyleTree.Declaration.Words
import StyleTree.Name.Family

namespace StyleTree

open ComponentValue

/-- A coarse grammar of values.  Where a constructor takes a list of keywords, one of them is a value
as well. -/
inductive ValueKind where
  /-- Any run that is not blank. -/
  | any
  | keyword (words : List String)
  | color
  | lengthPercentage (words : List String)
  | nonnegative (words : List String)
  | length (words : List String)
  | percentage
  | number (words : List String)
  | integer (words : List String)
  | time
  | string
  | url
  /-- A custom identifier that is none of the words. -/
  | customIdent (excluded : List String)
  | dashedIdent
  | families
  | fontSources
  | unicodeRange
  /-- Generated content. -/
  | content
  | counterSystem
  | either (first second : ValueKind)
  /-- One value up to `most` of them. -/
  | repeated (one : ValueKind) (most : Nat)
  | commaList (one : ValueKind)
  deriving Inhabited

namespace ValueKind

/-! ## Single values -/

/-- A function whose name is one of the words, its name in lower case. -/
def functionAmong (words : List String) : ComponentValue → Option String
  | .block (.function n) vs =>
    if Text.isAmong words n then some (Text.foldCase n ++ "(" ++ textOf vs ++ ")") else none
  | _ => none

def math : ComponentValue → Option String := functionAmong Words.mathFunctions

/-- A keyword in the spelling of the list. -/
def keywordAmong (words : List String) : Production String :=
  Production.taken (fun v => v.ident?.bind (Text.findWord words))

/-- Three, four, six or eight hexadecimal digits. -/
def isHexColor (digits : String) : Bool :=
  digits.length ∈ [3, 4, 6, 8] && digits.toList.all fun c =>
    c.isDigit || ('a' ≤ c && c ≤ 'f') || ('A' ≤ c && c ≤ 'F')

def hexColor (digits : String) : Option String :=
  if isHexColor digits then some ("#" ++ Text.foldCase digits) else none

/-- A colour that is no keyword. -/
def colorValue : ComponentValue → Option String
  | .token (.hash digits) => hexColor digits
  | .token (.idHash digits) => hexColor digits
  | v => functionAmong Words.colorFunctions v

/-- A length, the number zero, or a function; a percentage where that is admitted. -/
def lengthValue (percentages negatives : Bool) : ComponentValue → Option String
  | .token (.dimension n unit) =>
    if Text.isAmong Words.lengthUnits unit && (negatives || n.value.isNonnegative) then
      some (Token.dimension n unit).text
    else none
  | .token (.percentage n) =>
    if percentages && (negatives || n.value.isNonnegative) then some (Token.percentage n).text
    else none
  | .token (.number n) => if n.value.magnitude.isZero then some "0" else none
  | v => math v

def percentageValue : ComponentValue → Option String
  | .token (.percentage n) => some (Token.percentage n).text
  | v => math v

def numberValue : ComponentValue → Option String
  | .token (.number n) => some (Token.number n).text
  | v => math v

def integerValue : ComponentValue → Option String
  | .token (.number n) => if n.int.isSome then some (Token.number n).text else none
  | v => math v

def timeValue : ComponentValue → Option String
  | .token (.dimension n unit) =>
    if Text.isAmong Words.timeUnits unit then some (Token.dimension n unit).text else none
  | v => math v

def stringValue : ComponentValue → Option String
  | .token (.string s) => some (Text.quoted s)
  | _ => none

def urlValue (v : ComponentValue) : Option String := v.url?.map Text.url

/-- A custom identifier that is none of the words. -/
def customIdentValue (excluded : List String) (v : ComponentValue) : Option String :=
  v.ident?.bind fun n =>
    if Name.isCustom n && !Text.isAmong excluded n then some (Text.identifier n) else none

def dashedIdentValue (v : ComponentValue) : Option String :=
  v.ident?.bind fun n => if Name.isDashed n then some (Text.identifier n) else none

/-! ## Values that take the rest of the run -/

/-- What is left, if it is not blank and satisfies `p`. -/
def restWhere (p : List ComponentValue → Bool) : Production String := do
  let vs := trim (← Production.rest)
  if !vs.isEmpty && p vs then pure (textOf vs) else failure

/-- What is left, as `f` reads it. -/
def restAs (f : List ComponentValue → Option String) : Production String := do
  match f (← Production.rest) with
  | some t => pure t
  | none => failure

/-- What may follow the address of a font. -/
def fontHint : ComponentValue → Option String := functionAmong ["format", "tech"]

/-- A local font, or an address with hints behind it. -/
def fontSource? (part : List ComponentValue) : Option String :=
  match withoutBlanks part with
  | [] => none
  | v :: hints =>
    match functionAmong ["local"] v with
    | some t => if hints.isEmpty then some t else none
    | none => do
      let address ← urlValue v
      let hints ← hints.mapM fontHint
      some (Text.joined " " (address :: hints))

def fontSources? (vs : List ComponentValue) : Option String :=
  ((commaParts vs).mapM fontSource?).map (Text.joined ", ")

/-- A part of a Unicode range: it begins with an identifier in `u`. -/
def isUnicodeRange (part : List ComponentValue) : Bool :=
  match part with
  | .token (.ident n) :: _ => Text.beginsWith "u" n || Text.beginsWith "U" n
  | _ => false

/-- What generated content is made of. -/
def isContentItem : ComponentValue → Bool
  | .token (.string _) | .token (.url _) | .token (.ident _) | .token .blank => true
  | .token (.delim c) => c == '/'
  | .block (.function _) _ => true
  | _ => false

/-! ## Putting kinds together -/

/-- Up to `more` values, separated by blanks. -/
def upTo (one : Production String) : (more : Nat) → Production (List String)
  | 0 => pure []
  | more + 1 => (do let t ← one; let ts ← upTo one more; pure (t :: ts)) <|> pure []

def comma : Production Unit := Production.taken (fun v => if v.isComma then some () else none)

/-- The values behind the first of a list, each behind a comma; at most `fuel` of them. -/
def behindCommas (one : Production String) : (fuel : Nat) → Production (List String)
  | 0 => pure []
  | fuel + 1 => fun vs =>
    match comma vs with
    | none => some ([], vs)
    | some (_, rest) => (do let t ← one; let ts ← behindCommas one fuel; pure (t :: ts)) rest

/-- Values with commas between them.  Each takes a comma, so there are fewer than values left. -/
def commaSeparated (one : Production String) : Production (List String) := fun vs =>
  (do let t ← one; let ts ← behindCommas one vs.length; pure (t :: ts)) vs

/-- `fixed` with the value of its first symbol, which may be missing. -/
def fixedSystem : Production String := do
  let _ ← keywordAmong ["fixed"]
  (do let first ← Production.taken integerValue; pure ("fixed " ++ first)) <|> pure "fixed"

/-- `extends` with the name of another counter style. -/
def extendedSystem : Production String := do
  let _ ← keywordAmong ["extends"]
  let name ← Production.taken (customIdentValue ["none"])
  pure ("extends " ++ name)

/-- Reads a value of a kind and gives its canonical text. -/
def production : ValueKind → Production String
  | any => restWhere (fun _ => true)
  | keyword words => keywordAmong words
  | color => keywordAmong Words.colors <|> Production.taken colorValue
  | lengthPercentage words => keywordAmong words <|> Production.taken (lengthValue true true)
  | nonnegative words => keywordAmong words <|> Production.taken (lengthValue true false)
  | length words => keywordAmong words <|> Production.taken (lengthValue false true)
  | percentage => Production.taken percentageValue
  | number words => keywordAmong words <|> Production.taken numberValue
  | integer words => keywordAmong words <|> Production.taken integerValue
  | time => Production.taken timeValue
  | string => Production.taken stringValue
  | url => Production.taken urlValue
  | customIdent excluded => Production.taken (customIdentValue excluded)
  | dashedIdent => Production.taken dashedIdentValue
  | families => restAs (fun vs => (FamilyName.listOfValues? vs).map FamilyName.listText)
  | fontSources => restAs fontSources?
  | unicodeRange => restWhere (fun vs => (commaParts vs).all isUnicodeRange)
  | content => keywordAmong ["normal", "none"] <|> restWhere (·.all isContentItem)
  | counterSystem => keywordAmong Words.counterSystems <|> fixedSystem <|> extendedSystem
  | either first second => first.production <|> second.production
  | repeated one most => do
    let t ← one.production
    let ts ← upTo one.production (most - 1)
    pure (Text.joined " " (t :: ts))
  | commaList one => do
    let ts ← commaSeparated one.production
    pure (Text.joined ", " ts)

/-- The canonical text of a whole run of values of this kind. -/
def accept? (k : ValueKind) (vs : List ComponentValue) : Option String := k.production.whole vs

end ValueKind

end StyleTree
