/-
# `Condition.Container` — conditions on a container

The prelude is the name of a container, a condition on its features, or
both.  The functions `style` and `scroll-state` are terms of their own.
-/
import StyleTree.Condition.Media
import StyleTree.Name.Custom

namespace StyleTree.Condition

open ComponentValue

/-- A function that asks for a style or a scroll state. -/
def stateFunction (n : String) (vs : List ComponentValue) : Option String :=
  if (Text.sameWord n "style" || Text.sameWord n "scroll-state") && !vs.all isBlank then
    some (Text.foldCase n ++ "(" ++ textOf vs ++ ")")
  else none

/-- What conditions on containers understand. -/
def container : Vocabulary := ⟨feature, stateFunction⟩

/-- Words that name no container. -/
def reservedContainers : List String := ["none", "and", "or", "not"]

/-- The name of a container. -/
def containerName? (v : ComponentValue) : Option String :=
  match v with
  | .token (.ident n) =>
    if Name.isCustom n && !Text.isAmong reservedContainers n then some n else none
  | _ => none

/-- The name in front, if there is one, and the values behind it. -/
def splitContainerName (vs : List ComponentValue) : Option String × List ComponentValue :=
  match vs.dropWhile isBlank with
  | v :: rest =>
    match containerName? v with
    | some n => (some n, rest)
    | none => (none, vs)
  | [] => (none, vs)

/-- The name and the condition of a prelude, at least one of which is there. -/
def container? (vs : List ComponentValue) : Option (Option String × Option String) :=
  let (name, rest) := splitContainerName vs
  if rest.all isBlank then
    if name.isSome then some (name, none) else none
  else (ofValues? container true rest).map (fun q => (name, some q))

end StyleTree.Condition
