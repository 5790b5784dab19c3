/-
# `Sheet.Keyframes` — keyframes by their keys

Keyframes are appended to their rule, and found by the text of their key.
The text is compared as it is written out, so `to` finds `100%`; of
several keyframes with one key the last is found.
-/
import StyleTree.Sheet.Lists

namespace StyleTree.Sheet

/-- The head of a keyframe. -/
def keyframeOf (s : Sheet) (t : Statement) : Except Fault RuleHead :=
  if !t.isQualified then .error .invalidSyntax
  else
    match RuleHead.ofPrelude? .keyframe t .keyframes s.namespaces with
    | some head => .ok head
    | none => .error .invalidSyntax

/-- The sheet with a planted keyframe behind the others of a rule. -/
def append (s : Sheet) (parent id : RuleId) : Sheet :=
  { s with arena := s.arena.attach parent (s.arena.children parent).length id }

/-- Appends the keyframe of a text and gives its id. -/
def appendKeyframe (id : RuleId) (text : String) : Action RuleId := do
  .look access
  let _ ← .look (·.ruleOfKind id .keyframes)
  let t ← .look fun _ => Statement.single (ComponentValue.ofText text)
  let head ← .look (·.keyframeOf t)
  let new ← .write (·.plant .keyframes head t)
  .change (·.append id new)
  pure new

/-- The text of a rule's key. -/
def keyText? (s : Sheet) (id : RuleId) : Option String :=
  match s.rule? id with
  | some ⟨.keyframe k, _, _⟩ => some k.text
  | _ => none

/-- The last keyframe with a key. -/
def findKeyframe? (s : Sheet) (id : RuleId) (key : String) : Option RuleId :=
  match s.ruleOfKind id .keyframes, KeyframeKey.ofText? key with
  | .ok _, some k => (s.arena.children id).reverse.find? (fun c => s.keyText? c = some k.text)
  | _, _ => none

/-- Deletes the last keyframe with a key, if there is one. -/
def deleteKeyframe (id : RuleId) (key : String) : Action (Option RemovedRule) := do
  .look access
  let _ ← .look (·.ruleOfKind id .keyframes)
  match ← .look (fun s => .ok (s.findKeyframe? id key)) with
  | none => pure none
  | some c => .write (·.detach c)

/-- Gives a keyframe another key. -/
def setKey (id : RuleId) (text : String) : Action Unit := do
  .look access
  let r ← .look (·.ruleOfKind id .keyframe)
  let k ← .look fun _ => (KeyframeKey.ofText? text).elim (.error (.invalidKey text)) .ok
  .change (·.setHead id r (.keyframe k))

/-- Gives keyframes another name, which may be any text but the empty one. -/
def renameKeyframes (id : RuleId) (name : String) : Action Unit := do
  .look access
  let r ← .look (·.ruleOfKind id .keyframes)
  .check (name.isEmpty = false) (.invalidName name)
  .change (·.setHead id r (.keyframes name))

end StyleTree.Sheet
