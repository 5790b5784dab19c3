/-
# `Rule.Prelude` — reading what stands before the block

Each kind of rule has a production for its prelude, which has to match the
prelude as a whole.  The selectors of a style rule are read in the mode of
the context; prefixes must be declared in the namespaces given.
-/
import StyleTree.Rule.Head
import StyleTree.Condition.Container
import StyleTree.Condition.Supports
import StyleTree.Selector.Read

namespace StyleTree.Prelude

open ComponentValue

/-! ## Parts of preludes -/

/-- An address: a string or a URL. -/
def address? : ComponentValue → Option String
  | .token (.string s) => some s
  | v => v.url?

/-- The contents of a function called `name`. -/
def call (name : String) : Production (List ComponentValue) :=
  Production.taken (fun v => if v.isFunction name then v.contents? else none)

/-- The contents of parentheses. -/
def parentheses : Production (List ComponentValue) := Production.taken fun
  | .block (.bracket .round) vs => some vs
  | _ => none

/-- Reads the contents that `p` takes by `f`; contents that `f` refuses are an error, not an absent
part. -/
def part {α : Type} (p : Production (List ComponentValue)) (f : List ComponentValue → Option α) :
    Production (Option α) := do
  match ← optional p with
  | some vs =>
    match f vs with
    | some a => pure (some a)
    | none => failure
  | none => pure none

/-- The only value of a prelude, if it is an identifier. -/
def onlyIdent? : List ComponentValue → Option String
  | [.token (.ident n)] => some n
  | _ => none

/-- A dashed identifier. -/
def dashedName? (vs : List ComponentValue) : Option String := (onlyIdent? vs).filter Name.isDashed

/-- The name of keyframes: a custom identifier other than `none`, or a string that is not empty. -/
def keyframesName? : List ComponentValue → Option String
  | [.token (.ident n)] => if Name.isKeyframes n then some n else none
  | [.token (.string n)] => if n.isEmpty then none else some n
  | _ => none

/-- The name of a colour profile: a dashed identifier or `device-cmyk`. -/
def profileName? (vs : List ComponentValue) : Option String :=
  if (onlyIdent? vs).any (Text.sameWord · "device-cmyk") then some "device-cmyk"
  else dashedName? vs

/-! ## Preludes with several parts -/

/-- The layer of an import: the keyword `layer`, or that name as a function. -/
def importLayer : Production (Option ImportLayer) :=
  (do Production.word "layer"; pure (some .anonymous)) <|>
    part (call "layer") (fun vs => (LayerName.ofValues? vs).map .named)

/-- An address, a layer, a condition on support and media queries, in this order. -/
def importClauses : Production ImportPrelude := do
  let href ← Production.taken address?
  let layer ← importLayer
  let supports ← part (call "supports") (Condition.supports? true)
  let media ← Production.rest
  pure ⟨href, layer, supports, MediaList.ofValues media⟩

/-- A prefix, which may be missing, and the address it stands for. -/
def namespaceParts : Production (Option String × String) := do
  let name ← optional Production.ident
  let uri ← Production.taken address?
  pure (name, uri)

/-- Where a scope starts, and behind `to` where it ends. -/
def scopeBounds (ns : Namespaces) : Production (Option (List Selector) × Option (List Selector)) := do
  let start ← part parentheses (Selector.listOfValues ns .absolute)
  match ← optional (Production.word "to") with
  | some () =>
    let vs ← parentheses
    match Selector.listOfValues ns .relative vs with
    | some stop => pure (start, some stop)
    | none => failure
  | none => pure (start, none)

/-- Data of a rule without prelude. -/
def nothing (head : RuleHead) (vs : List ComponentValue) : Option RuleHead :=
  if vs.isEmpty then some head else none

end Prelude

open ComponentValue Prelude

/-- What the prelude of a statement says if the statement is a rule of this kind. -/
def RuleHead.ofPrelude? (k : RuleKind) (s : Statement) (context : RuleContext) (ns : Namespaces) :
    Option RuleHead :=
  let vs := trim s.prelude
  let name := s.name.getD ""
  match k with
  | .style => (Selector.listOfValues ns context.selectorMode vs).map .style
  | .importRule => (importClauses vs).map (fun r => .importRule r.1)
  | .namespaceRule => (namespaceParts.whole vs).map (fun r => .namespaceRule r.1 r.2)
  | .layerStatement => ((commaParts vs).mapM LayerName.ofValues?).map .layerStatement
  | .layerBlock =>
    if vs.isEmpty then some (.layerBlock none)
    else (LayerName.ofValues? vs).map (fun n => .layerBlock (some n))
  | .media => some (.media (MediaList.ofValues vs))
  | .supports => (Condition.supports? false vs).map .supports
  | .container => (Condition.container? vs).map (fun r => .container r.1 r.2)
  | .page => (PageSelector.listOfValues? vs).map .page
  | .margin => (MarginBox.index? name).bind (fun i => nothing (.margin i) vs)
  | .keyframes => (keyframesName? vs).map .keyframes
  | .keyframe => (KeyframeKey.ofValues? vs).map .keyframe
  | .fontFace => nothing .fontFace vs
  | .fontFeatureValues => (FamilyName.listOfValues? vs).map .fontFeatureValues
  | .featureBlock =>
    (FeatureType.ofName? name).bind (fun f => nothing (.featureBlock (FeatureValues.empty f)) vs)
  | .fontPaletteValues => (dashedName? vs).map .fontPaletteValues
  | .counterStyle => ((onlyIdent? vs).filter Name.isCounterStyle).map .counterStyle
  | .property => (dashedName? vs).map .property
  | .positionTry => (dashedName? vs).map .positionTry
  | .scope => ((scopeBounds ns).whole vs).map (fun r => .scope r.1 r.2)
  | .startingStyle => nothing .startingStyle vs
  | .colorProfile => (profileName? vs).map .colorProfile
  | .viewTransition => nothing .viewTransition vs

end StyleTree
