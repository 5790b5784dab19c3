/-
# `Sheet.Edit` — the edits of a sheet

`Edit` lists what can be done to the rules of a sheet, and `Sheet.perform`
does it.
-/
import StyleTree.Sheet.Keyframes
import StyleTree.Sheet.Contents
import StyleTree.Sheet.Replacement

namespace StyleTree

inductive Edit where
  | insert (l : RuleList) (text : String) (index : Nat)
  | delete (l : RuleList) (index : Nat)
  | appendKeyframe (rule : RuleId) (text : String)
  | deleteKeyframe (rule : RuleId) (key : String)
  | setKey (rule : RuleId) (text : String)
  | renameKeyframes (rule : RuleId) (name : String)
  | renameCounterStyle (rule : RuleId) (name : String)
  | setSelectors (rule : RuleId) (text : String)
  | setProperty (rule : RuleId) (name value : String) (important : Bool)
  | removeProperty (rule : RuleId) (name : String)
  | setFeature (rule : RuleId) (f : FeatureType) (name : String) (values : List Nat)
  | removeFeature (rule : RuleId) (f : FeatureType) (name : String)
  | replace (text : String)
  deriving Inhabited

/-- What an edit tells besides the new sheet. -/
inductive Outcome where
  | done
  /-- The place of the inserted rule. -/
  | position (index : Nat)
  /-- The new rule. -/
  | added (rule : RuleId)
  /-- The deleted rule, if there was one. -/
  | detached (rule : Option RemovedRule)
  /-- The value of the removed declaration, if there was one. -/
  | value (text : Option String)
  /-- Whether there was something to remove. -/
  | found (b : Bool)

namespace Sheet

/-- Performs an edit. -/
def perform : Edit → Action Outcome
  | .insert l text i => .position <$> insert l text i
  | .delete l i => (.detached ∘ some) <$> delete l i
  | .appendKeyframe r text => .added <$> appendKeyframe r text
  | .deleteKeyframe r key => .detached <$> deleteKeyframe r key
  | .setKey r text => (fun _ => .done) <$> setKey r text
  | .renameKeyframes r name => (fun _ => .done) <$> renameKeyframes r name
  | .renameCounterStyle r name => (fun _ => .done) <$> renameCounterStyle r name
  | .setSelectors r text => (fun _ => .done) <$> setSelectors r text
  | .setProperty r name value important => (fun _ => .done) <$> setProperty r name value important
  | .removeProperty r name => .value <$> removeProperty r name
  | .setFeature r f name values => (fun _ => .done) <$> setFeature r f name values
  | .removeFeature r f name => .found <$> removeFeature r f name
  | .replace text => (fun _ => .done) <$> replace text

end Sheet

end StyleTree
