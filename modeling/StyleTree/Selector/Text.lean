/-
# `Selector.Text` — selectors as text

Compounds are written without blanks, combinators other than the
descendant one between blanks, and the selectors of a list with a comma
and a blank between them.  Attribute values are written as quoted strings.
-/
import StyleTree.Selector.Basic

namespace StyleTree

/-- The sign of a combinator; the descendant combinator is only a blank. -/
def Combinator.sign : Combinator → String
  | .descendant => ""
  | .child => ">"
  | .nextSibling => "+"
  | .laterSibling => "~"

/-- A combinator between two compounds. -/
def Combinator.text : Combinator → String
  | .descendant => " "
  | k => " " ++ k.sign ++ " "

def Qualifier.text : Option Qualifier → String
  | .none => ""
  | some .any => "*|"
  | some .none => "|"
  | some (.named n) => Text.identifier n ++ "|"

def TypeSelector.text (t : TypeSelector) : String :=
  Qualifier.text t.qualifier ++
    match t.name with
    | some n => Text.identifier n
    | none => "*"

def Matcher.sign : Matcher → String
  | .equals => "="
  | .includes => "~="
  | .dashMatch => "|="
  | .startsWith => "^="
  | .endsWith => "$="
  | .contains => "*="

def AttributeSelector.text (a : AttributeSelector) : String :=
  "[" ++ Qualifier.text a.qualifier ++ Text.identifier a.name ++
    (match a.test with
      | some (m, v) => m.sign ++ Text.quoted v
      | none => "") ++
    (match a.flag with
      | some c => " " ++ String.singleton c
      | none => "") ++ "]"

mutual

def Simple.text : Simple → String
  | .nesting => "&"
  | .byId n => "#" ++ Text.identifier n
  | .byClass n => "." ++ Text.identifier n
  | .byAttribute a => a.text
  | .pseudo p => p.text

def PseudoClass.text : PseudoClass → String
  | .plain n => ":" ++ n
  | .matching n list => ":" ++ n ++ "(" ++ Text.joined ", " (Selector.texts list) ++ ")"
  | .counting n k => ":" ++ n ++ "(" ++ k.text ++ ")"
  | .countingOf n k list =>
    ":" ++ n ++ "(" ++ k.text ++ " of " ++ Text.joined ", " (Selector.texts list) ++ ")"
  | .raw n vs => ":" ++ n ++ "(" ++ ComponentValue.textOf vs ++ ")"

def PseudoElement.text : PseudoElement → String
  | .mk n argument classes =>
    "::" ++ n ++
      (match argument with
        | some vs => "(" ++ ComponentValue.textOf vs ++ ")"
        | none => "") ++ PseudoClass.textOf classes

def Simple.textOf : List Simple → String
  | [] => ""
  | s :: ss => s.text ++ Simple.textOf ss

def PseudoClass.textOf : List PseudoClass → String
  | [] => ""
  | p :: ps => p.text ++ PseudoClass.textOf ps

def PseudoElement.textOf : List PseudoElement → String
  | [] => ""
  | e :: es => e.text ++ PseudoElement.textOf es

def Compound.text : Compound → String
  | .mk type simple elements =>
    (match type with
      | some t => t.text
      | none => "") ++ Simple.textOf simple ++ PseudoElement.textOf elements

def Chain.text : Chain → String
  | .last c => c.text
  | .link c k rest => c.text ++ k.text ++ rest.text

def Selector.text : Selector → String
  | .mk leading chain =>
    (match leading with
      | some k => k.sign ++ " "
      | none => "") ++ chain.text

/-- The selectors of a list, each as text. -/
def Selector.texts : List Selector → List String
  | [] => []
  | s :: ss => s.text :: Selector.texts ss

end

/-- A list of selectors as text. -/
def Selector.listText (list : List Selector) : String := Text.joined ", " (Selector.texts list)

end StyleTree
