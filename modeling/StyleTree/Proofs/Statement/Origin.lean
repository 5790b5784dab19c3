/-
# `Proofs.Statement.Origin` — items come from the text

Splitting takes everything from the run that it splits: the prelude and the
block of a statement, the name of a declaration (`Item.ComesFrom`,
`comesFrom_split`).  So what every lexeme of a text has, the items have that
were read from it, at any depth: their names and strings can be written and
read back (`IsRead.legible`, `Item.IsLegible`).
-/
import StyleTree.Proofs.ComponentValue.RoundTrip
import StyleTree.Proofs.ComponentValue.Runs
import StyleTree.Proofs.Statement.Splitting

namespace StyleTree

open ComponentValue

variable {vs : List ComponentValue}

/-- The statement is split off from a text, at any depth of its blocks, or is the only one in it. -/
inductive Statement.IsRead : Statement → Prop
  | split {text : String} {us : List ComponentValue} {form : ContentForm} {st : Statement} :
      Within (ofText text) us → .rule st ∈ Statement.split form us → IsRead st
  | single {text : String} {st : Statement} : Statement.single (ofText text) = .ok st → IsRead st

/-- The item is made of values of the run. -/
def Item.ComesFrom (vs : List ComponentValue) : Item → Prop
  | .declaration d => .token (.ident d.name) ∈ vs
  | .rule st => st.prelude ⊆ vs ∧ ∀ ws ∈ st.block, .block (.bracket .curly) ws ∈ vs

theorem Item.ComesFrom.mono {us : List ComponentValue} {item : Item} (h : item.ComesFrom us) (hsub : us ⊆ vs) :
    item.ComesFrom vs := by
  cases item with
  | declaration d => exact hsub h
  | rule st => exact ⟨List.Subset.trans h.1 hsub, fun ws hws => hsub (h.2 ws hws)⟩

namespace Statement

/-- What stands before the end of a prelude, with the block that ends it. -/
theorem comesFrom_preludeOf (b : Bool) (name : Option String) (vs : List ComponentValue) :
    (Item.rule ⟨name, trim (preludeOf b vs).1, (preludeOf b vs).2.1.block?⟩).ComesFrom vs := by
  have h := ends_preludeOf b vs
  generalize preludeOf b vs = r at h
  cases h with
  | block _ =>
      refine ⟨fun v hv => List.mem_append_left _ (mem_of_mem_trim hv), fun ws hws => ?_⟩
      cases hws
      exact List.mem_append_right _ List.mem_cons_self
  | semicolon _ _ => exact ⟨fun v hv => List.mem_append_left _ (mem_of_mem_trim hv), by rintro _ ⟨⟩⟩
  | nothing _ => exact ⟨fun v hv => mem_of_mem_trim hv, by rintro _ ⟨⟩⟩

theorem comesFrom_qualifiedRule {b : Bool} {st : Statement} (h : (qualifiedRule b vs).1 = some st) :
    (Item.rule st).ComesFrom vs := by
  obtain ⟨ws, hws, rfl⟩ := Option.map_eq_some_iff.mp h
  rw [← hws]
  exact comesFrom_preludeOf b none vs

/-- The name of a declaration is the first of its values. -/
theorem comesFrom_declaration {d : WrittenDeclaration} (h : WrittenDeclaration.ofValues? vs = some d) :
    (Item.declaration d).ComesFrom vs := by
  have hdrop := (List.dropWhile_sublist (l := vs) isBlank).subset
  unfold WrittenDeclaration.ofValues? at h
  split at h
  · next n rest hvs =>
      split at h
      · cases h
        exact hdrop (hvs ▸ List.mem_cons_self)
      · cases h
  · cases h

theorem comesFrom_nextItem {form : ContentForm} {v : ComponentValue} {item : Item}
    (h : (nextItem form v vs).1 = some item) : item.ComesFrom (v :: vs) := by
  rcases starts_cases form v with hskip | ⟨name, rfl⟩ | ⟨rfl, name, rfl⟩ | hv
  · rw [nextItem_skipped hskip] at h
    cases h
  · rw [nextItem_atRule] at h
    cases h
    exact (comesFrom_preludeOf true (some name) vs).mono (List.subset_cons_self _ _)
  · rw [nextItem_declaration] at h
    obtain ⟨d, hd, rfl⟩ := Option.map_eq_some_iff.mp h
    refine (comesFrom_declaration hd).mono (List.cons_subset_cons _ fun u hu => ?_)
    rcases (untilSemicolon_cases vs).2 with hvs | hvs
    · rw [hvs]
      exact List.mem_append_left _ hu
    · rw [hvs.1]
      exact hu
  · rw [nextItem_qualified hv] at h
    obtain ⟨st, hst, rfl⟩ := Option.map_eq_some_iff.mp h
    exact comesFrom_qualifiedRule hst

theorem subset_behind (form : ContentForm) (v : ComponentValue) (vs : List ComponentValue) :
    (nextItem form v vs).2 ⊆ v :: vs := by
  rcases piece_or_open form v vs with ⟨us, hus, -⟩ | ⟨hnil, -⟩
  · intro u hu
    rw [hus]
    exact List.mem_append_right us hu
  · rw [hnil]
    exact List.nil_subset _

theorem comesFrom_split {form : ContentForm} {item : Item} (h : item ∈ Statement.split form vs) :
    item.ComesFrom vs := by
  fun_induction Statement.split form vs with
  | case1 => cases h
  | case2 v vs _ ih =>
      rcases List.mem_append.mp h with h | h
      · exact comesFrom_nextItem (Option.mem_toList.mp h)
      · exact (ih h).mono (subset_behind form v vs)

theorem comesFrom_single {st : Statement} (h : Statement.single vs = .ok st) : (Item.rule st).ComesFrom vs := by
  have halone : ∀ {st' : Statement} {rest}, alone st' rest = .ok st → st' = st := by
    intro st' rest h
    unfold alone at h
    split at h <;> cases h
    rfl
  have hdrop := (List.dropWhile_sublist (l := vs) isBlank).subset
  unfold Statement.single at h
  split at h
  · cases h
  · next name rest hvs =>
      rw [hvs] at hdrop
      rw [← halone h]
      exact (comesFrom_preludeOf true (some name) rest).mono fun v hv => hdrop (List.mem_cons_of_mem _ hv)
  · split at h
    · next st' rest hrule =>
        rw [← halone h]
        exact (comesFrom_qualifiedRule (congrArg Prod.fst hrule)).mono hdrop
    · cases h

/-- The prelude of a statement that was read can be written. -/
theorem IsRead.legible {st : Statement} (h : st.IsRead) : EachOf Lexeme.Legible st.prelude := by
  cases h with
  | split hus hst => exact ((legible_ofText _).within hus).of_subset (comesFrom_split hst).1
  | single hst => exact (legible_ofText _).of_subset (comesFrom_single hst).1

end Statement

/-! ## Items with names that can be written -/

/-- The names and strings of the item can be written: those of the prelude and all in the block, or the name of the
declaration. -/
def Item.IsLegible : Item → Prop
  | .declaration d => Text.IsName d.name
  | .rule st => EachOf Lexeme.Legible st.prelude ∧ ∀ vs ∈ st.block, EachOf Lexeme.Legible vs

/-- The items of legible values are legible. -/
theorem Statement.isLegible_split {form : ContentForm} {item : Item} (hvs : EachOf Lexeme.Legible vs)
    (h : item ∈ Statement.split form vs) : item.IsLegible := by
  have hfrom := comesFrom_split h
  cases item with
  | declaration d => exact eachOf_iff.mp hvs _ hfrom
  | rule st =>
      refine ⟨hvs.of_subset hfrom.1, fun ws hws => ?_⟩
      exact (eachOf_iff.mp hvs _ (hfrom.2 ws hws)).2

end StyleTree
