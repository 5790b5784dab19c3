/-
# `ComponentValue.Basic` — tokens and nested blocks

A style sheet is read as a list of component values: a token, or a block
that holds a list of them.  `nest` builds the blocks out of a flat run of
lexemes with a stack of the blocks that are open.  A block ends at its own
closing bracket; any other closing bracket inside it is a token of its
contents, and the end of the text closes every block.
-/
import StyleTree.Token.Scan

namespace StyleTree

/-- A token, or a block with its contents. -/
inductive ComponentValue where
  | token (t : Token)
  | block (o : Opener) (contents : List ComponentValue)
  deriving Inhabited

namespace ComponentValue

/-! ## Building blocks out of lexemes -/

/-- A block that is open: its opener, and what stands before it, the latest first. -/
structure Frame where
  opener : Opener
  before : List ComponentValue

/-- The end of the text: what was read last, latest first, goes into the blocks still open. -/
def closeAll (read : List ComponentValue) : List Frame → List ComponentValue
  | [] => read.reverse
  | f :: fs => closeAll (.block f.opener read.reverse :: f.before) fs

/-- One token: it closes the innermost block or is added to it. -/
def accept (t : Token) (read : List ComponentValue) (frames : List Frame) :
    List ComponentValue × List Frame :=
  match frames with
  | f :: fs =>
    if t = .close f.opener.closer then (.block f.opener read.reverse :: f.before, fs)
    else (.token t :: read, f :: fs)
  | [] => (.token t :: read, [])

/-- Component values from lexemes, with `read` the values of the innermost open block, latest
first. -/
def nest (read : List ComponentValue) (frames : List Frame) : List Lexeme → List ComponentValue
  | [] => closeAll read frames
  | .opening o :: ls => nest [] (⟨o, read⟩ :: frames) ls
  | .token t :: ls => nest (accept t read frames).1 (accept t read frames).2 ls

/-- The component values of a text. -/
def ofText (text : String) : List ComponentValue := nest [] [] (Lexeme.scan text.toList)

/-! ## Questions about one value -/

def isBlank : ComponentValue → Bool
  | .token .blank => true
  | _ => false

def isComma : ComponentValue → Bool
  | .token .comma => true
  | _ => false

def isSemicolon : ComponentValue → Bool
  | .token .semicolon => true
  | _ => false

/-- The name of an identifier. -/
def ident? : ComponentValue → Option String
  | .token (.ident n) => some n
  | _ => none

/-- An identifier that spells `word`. -/
def isWord (word : String) : ComponentValue → Bool
  | .token (.ident n) => Text.sameWord n word
  | _ => false

def isDelim (c : Char) : ComponentValue → Bool
  | .token (.delim d) => d == c
  | _ => false

/-- A function whose name spells `word`. -/
def isFunction (word : String) : ComponentValue → Bool
  | .block (.function n) _ => Text.sameWord n word
  | _ => false

/-- The contents of a block. -/
def contents? : ComponentValue → Option (List ComponentValue)
  | .block _ vs => some vs
  | .token _ => none

/-- The values that are not blank. -/
def withoutBlanks (vs : List ComponentValue) : List ComponentValue := vs.filter (!·.isBlank)

/-- The address of a URL, written without quotes or as one quoted string. -/
def url? : ComponentValue → Option String
  | .token (.url u) => some u
  | .block (.function n) vs =>
    if Text.sameWord n "url" then
      match withoutBlanks vs with
      | [.token (.string u)] => some u
      | _ => none
    else none
  | _ => none

mutual

/-- Whether the value, or one inside it, satisfies `p`. -/
def any (p : ComponentValue → Bool) : ComponentValue → Bool
  | .token t => p (.token t)
  | .block o vs => p (.block o vs) || anyOf p vs

/-- Whether one of the values, or one inside them, satisfies `p`. -/
def anyOf (p : ComponentValue → Bool) : List ComponentValue → Bool
  | [] => false
  | v :: vs => any p v || anyOf p vs

end

/-! ## Runs of values -/

/-- The run without leading and trailing blanks. -/
def trim (vs : List ComponentValue) : List ComponentValue :=
  ((vs.dropWhile isBlank).reverse.dropWhile isBlank).reverse

/-- The parts between separators, one more than there are separators. -/
def splitOn {α : Type} (sep : α → Bool) : List α → List (List α)
  | [] => [[]]
  | v :: vs =>
    if sep v then [] :: splitOn sep vs
    else
      match splitOn sep vs with
      | part :: parts => (v :: part) :: parts
      | [] => [[v]]

/-- The trimmed parts between commas. -/
def commaParts (vs : List ComponentValue) : List (List ComponentValue) :=
  (splitOn isComma vs).map trim

end ComponentValue

end StyleTree
