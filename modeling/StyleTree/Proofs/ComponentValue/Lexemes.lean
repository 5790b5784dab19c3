/-
# `Proofs.ComponentValue.Lexemes` — what the lexemes have, the values have

Nesting makes no tokens and no openers of its own, so what holds of every
lexeme of a text holds of everything in its values, at every depth (`Each`,
`each_ofText`).  `Within vs us` says that `us` is one of the runs in `vs`:
`vs` itself, or the contents of a block at any depth.

The other way round, values are what their own lexemes nest to if no block
contains the bracket that closes it (`Sealed`, `nest_lexemesOf`).
-/
import StyleTree.Proofs.ComponentValue.Nesting

namespace StyleTree.ComponentValue

variable {P : Lexeme → Prop} {vs us read : List ComponentValue} {frames : List Frame}

mutual

/-- Each token and each opener in the value has the property. -/
def Each (P : Lexeme → Prop) : ComponentValue → Prop
  | .token t => P (.token t)
  | .block o vs => P (.opening o) ∧ EachOf P vs

def EachOf (P : Lexeme → Prop) : List ComponentValue → Prop
  | [] => True
  | v :: vs => Each P v ∧ EachOf P vs

end

theorem eachOf_iff : EachOf P vs ↔ ∀ v ∈ vs, Each P v := by
  induction vs with
  | nil => simp [EachOf]
  | cons v vs ih => rw [EachOf, ih, List.forall_mem_cons]

theorem eachOf_append : EachOf P (vs ++ us) ↔ EachOf P vs ∧ EachOf P us := by
  simp only [eachOf_iff, List.mem_append, or_imp, forall_and]

theorem EachOf.of_subset (h : EachOf P vs) (hsub : us ⊆ vs) : EachOf P us :=
  eachOf_iff.mpr fun v hv => eachOf_iff.mp h v (hsub hv)

mutual

theorem Each.imp {Q : Lexeme → Prop} (h : ∀ l, P l → Q l) : ∀ {v : ComponentValue}, Each P v → Each Q v
  | .token _, hv => h _ hv
  | .block _ _, hv => ⟨h _ hv.1, EachOf.imp h hv.2⟩

theorem EachOf.imp {Q : Lexeme → Prop} (h : ∀ l, P l → Q l) :
    ∀ {vs : List ComponentValue}, EachOf P vs → EachOf Q vs
  | [], _ => trivial
  | _ :: _, hvs => ⟨Each.imp h hvs.1, EachOf.imp h hvs.2⟩

end

/-! ## Nesting -/

/-- The opener of an open block, and what stands in front of it. -/
def EachFrame (P : Lexeme → Prop) (f : Frame) : Prop := P (.opening f.opener) ∧ EachOf P f.before

theorem each_closeAll : ∀ {frames : List Frame} {read : List ComponentValue}, EachOf P read →
    (∀ f ∈ frames, EachFrame P f) → EachOf P (closeAll read frames)
  | [], _, h, _ => h.of_subset fun _ hv => List.mem_reverse.mp hv
  | f :: frames, read, h, hf => by
      obtain ⟨⟨hopener, hbefore⟩, hf⟩ := List.forall_mem_cons.mp hf
      refine @each_closeAll _ (.block f.opener read.reverse :: f.before) ?_ hf
      rw [EachOf, Each]
      exact ⟨⟨hopener, h.of_subset fun _ hv => List.mem_reverse.mp hv⟩, hbefore⟩

theorem each_accept {t : Token} (ht : P (.token t)) (h : EachOf P read) (hf : ∀ f ∈ frames, EachFrame P f) :
    EachOf P (accept t read frames).1 ∧ ∀ f ∈ (accept t read frames).2, EachFrame P f := by
  have hcons : EachOf P (.token t :: read) := by
    rw [EachOf, Each]
    exact ⟨ht, h⟩
  cases frames with
  | nil => exact ⟨hcons, hf⟩
  | cons f fs =>
      unfold accept
      simp only
      split
      · obtain ⟨⟨hopener, hbefore⟩, hf⟩ := List.forall_mem_cons.mp hf
        refine ⟨?_, hf⟩
        rw [EachOf, Each]
        exact ⟨⟨hopener, h.of_subset fun _ hv => List.mem_reverse.mp hv⟩, hbefore⟩
      · exact ⟨hcons, hf⟩

theorem each_nest : ∀ {ls : List Lexeme} {read : List ComponentValue} {frames : List Frame},
    (∀ l ∈ ls, P l) → EachOf P read → (∀ f ∈ frames, EachFrame P f) → EachOf P (nest read frames ls)
  | [], _, _, _, h, hf => each_closeAll h hf
  | .opening o :: ls, read, frames, hls, h, hf => by
      obtain ⟨ho, hls⟩ := List.forall_mem_cons.mp hls
      rw [nest]
      exact each_nest hls trivial (List.forall_mem_cons.mpr ⟨⟨ho, h⟩, hf⟩)
  | .token t :: ls, read, frames, hls, h, hf => by
      obtain ⟨ht, hls⟩ := List.forall_mem_cons.mp hls
      obtain ⟨h', hf'⟩ := each_accept ht h hf
      rw [nest]
      exact each_nest hls h' hf'

/-- What holds of every lexeme that can be read holds of all values of a text. -/
theorem each_ofText (hP : ∀ cs, ∀ l ∈ Lexeme.scan cs, P l) (text : String) : EachOf P (ofText text) :=
  each_nest (hP text.toList) trivial fun _ hf => absurd hf List.not_mem_nil

/-- What holds of every lexeme at the front of a text holds of all lexemes of a text. -/
theorem forall_mem_scan (hP : ∀ c cs l, (Scan.next c cs).1 = some l → P l) (cs : List Char) :
    ∀ l ∈ Lexeme.scan cs, P l := by
  induction cs using Lexeme.scan.induct with
  | case1 =>
      rw [Lexeme.scan]
      exact fun l hl => absurd hl List.not_mem_nil
  | case2 c cs _ ih =>
      rw [Lexeme.scan]
      intro l hl
      rcases List.mem_append.mp hl with hl | hl
      · exact hP c cs l (Option.mem_toList.mp hl)
      · exact ih l hl

/-! ## Runs inside of runs -/

/-- The run is `vs` or the contents of a block in it, at any depth. -/
inductive Within : List ComponentValue → List ComponentValue → Prop
  | self (vs : List ComponentValue) : Within vs vs
  | block {vs ws us : List ComponentValue} {o : Opener} : .block o ws ∈ vs → Within ws us → Within vs us

theorem EachOf.within (h : EachOf P vs) (hw : Within vs us) : EachOf P us := by
  induction hw with
  | self => exact h
  | block hb _ ih =>
      have hblock := eachOf_iff.mp h _ hb
      rw [Each] at hblock
      exact ih hblock.2

/-! ## The lexemes of values -/

mutual

/-- A value as lexemes; every block is closed. -/
def lexemes : ComponentValue → List Lexeme
  | .token t => [.token t]
  | .block o vs => .opening o :: (lexemesOf vs ++ [.token (.close o.closer)])

def lexemesOf : List ComponentValue → List Lexeme
  | [] => []
  | v :: vs => lexemes v ++ lexemesOf vs

end

theorem lexemesOf_append (vs us : List ComponentValue) :
    lexemesOf (vs ++ us) = lexemesOf vs ++ lexemesOf us := by
  induction vs with
  | nil => rfl
  | cons v vs ih => rw [List.cons_append, lexemesOf, lexemesOf, ih, List.append_assoc]

theorem lexemesOf_tokens (ts : List Token) : lexemesOf (ts.map .token) = ts.map .token := by
  induction ts with
  | nil => rfl
  | cons t ts ih => rw [List.map_cons, lexemesOf, lexemes, ih, List.map_cons, List.singleton_append]

mutual

/-- What closing brackets and all in a value have, all of its lexemes have. -/
theorem forall_mem_lexemes (hclose : ∀ b, P (.token (.close b))) : ∀ v : ComponentValue, Each P v → ∀ l ∈ lexemes v, P l
  | .token _ => fun h l hl => List.mem_singleton.mp hl ▸ h
  | .block o vs => fun h l hl => by
      rcases List.mem_cons.mp hl with rfl | hl
      · exact h.1
      rcases List.mem_append.mp hl with hl | hl
      · exact forall_mem_lexemesOf hclose vs h.2 l hl
      · exact List.mem_singleton.mp hl ▸ hclose o.closer

theorem forall_mem_lexemesOf (hclose : ∀ b, P (.token (.close b))) :
    ∀ vs : List ComponentValue, EachOf P vs → ∀ l ∈ lexemesOf vs, P l
  | [] => fun _ _ hl => absurd hl List.not_mem_nil
  | v :: vs => fun h l hl => by
      rcases List.mem_append.mp hl with hl | hl
      · exact forall_mem_lexemes hclose v h.1 l hl
      · exact forall_mem_lexemesOf hclose vs h.2 l hl

end

/-! ## Nesting the lexemes of values -/

mutual

/-- No block in the value contains the bracket that closes it. -/
def Sealed : ComponentValue → Prop
  | .token _ => True
  | .block o vs => (.token (.close o.closer) : ComponentValue) ∉ vs ∧ SealedAll vs

def SealedAll : List ComponentValue → Prop
  | [] => True
  | v :: vs => Sealed v ∧ SealedAll vs

end

theorem sealedAll_iff : SealedAll vs ↔ ∀ v ∈ vs, Sealed v := by
  induction vs with
  | nil => simp [SealedAll]
  | cons v vs ih => rw [SealedAll, ih, List.forall_mem_cons]

/-- The innermost open block is not closed by one of the values. -/
def StaysOpen (frames : List Frame) (vs : List ComponentValue) : Prop :=
  ∀ f ∈ frames.head?, (.token (.close f.opener.closer) : ComponentValue) ∉ vs

theorem accept_of_staysOpen {t : Token} (h : StaysOpen frames [.token t]) (read : List ComponentValue) :
    accept t read frames = (.token t :: read, frames) := by
  cases frames with
  | nil => rfl
  | cons f fs =>
      refine if_neg fun ht => h f rfl ?_
      rw [ht]
      exact List.mem_cons_self

mutual

theorem foldl_push_lexemes : ∀ v : ComponentValue, Sealed v → ∀ read frames, StaysOpen frames [v] →
    (lexemes v).foldl push (read, frames) = (v :: read, frames)
  | .token t => fun _ read frames hopen => accept_of_staysOpen hopen read
  | .block o vs => fun h read frames _ => by
      have hopen : StaysOpen (⟨o, read⟩ :: frames) vs := by
        rintro f hf
        cases hf
        exact h.1
      have hcontents := foldl_push_lexemesOf vs h.2 [] (⟨o, read⟩ :: frames) hopen
      rw [List.append_nil] at hcontents
      rw [lexemes, List.foldl_cons, List.foldl_append]
      show List.foldl push ((lexemesOf vs).foldl push ([], ⟨o, read⟩ :: frames)) _ = _
      rw [hcontents]
      show accept (.close o.closer) vs.reverse (⟨o, read⟩ :: frames) = _
      rw [accept, if_pos rfl, List.reverse_reverse]

theorem foldl_push_lexemesOf : ∀ vs : List ComponentValue, SealedAll vs → ∀ read frames, StaysOpen frames vs →
    (lexemesOf vs).foldl push (read, frames) = (vs.reverse ++ read, frames)
  | [] => fun _ _ _ _ => rfl
  | v :: vs => fun h read frames hopen => by
      have hv := foldl_push_lexemes v h.1 read frames fun f hf hmem =>
        hopen f hf (List.mem_cons.mpr (Or.inl (List.mem_singleton.mp hmem)))
      have hvs := foldl_push_lexemesOf vs h.2 (v :: read) frames fun f hf hmem =>
        hopen f hf (List.mem_cons_of_mem v hmem)
      rw [lexemesOf, List.foldl_append, hv, hvs, List.reverse_cons, List.append_assoc]
      rfl

end

/-- Values in which only blocks are closed are what their lexemes nest to. -/
theorem nest_lexemesOf (h : SealedAll vs) : nest [] [] (lexemesOf vs) = vs := by
  rw [nest_eq_foldl, foldl_push_lexemesOf vs h [] [] (by rintro f ⟨⟩), closeAll, List.append_nil, List.reverse_reverse]

/-- No closing bracket. -/
def ClosesNothing (l : Lexeme) : Prop := ∀ b, l ≠ .token (.close b)

mutual

theorem sealed_of_closesNothing : ∀ v : ComponentValue, Each ClosesNothing v → Sealed v
  | .token _ => fun _ => trivial
  | .block o vs => fun h => by
      refine ⟨fun hmem => ?_, sealedAll_of_closesNothing vs h.2⟩
      exact eachOf_iff.mp h.2 _ hmem o.closer rfl

theorem sealedAll_of_closesNothing : ∀ vs : List ComponentValue, EachOf ClosesNothing vs → SealedAll vs
  | [] => fun _ => trivial
  | v :: vs => fun h => ⟨sealed_of_closesNothing v h.1, sealedAll_of_closesNothing vs h.2⟩

end

/-! ## Values between braces -/

/-- The values can stand between braces: they close what they open, and nothing else. -/
def Enclosable (vs : List ComponentValue) : Prop := SealedAll vs ∧ (.token (.close .curly) : ComponentValue) ∉ vs

theorem enclosable_iff : Enclosable vs ↔ ∀ v ∈ vs, Sealed v ∧ v ≠ .token (.close .curly) := by
  rw [Enclosable, sealedAll_iff, ← List.forall_mem_ne']
  exact ⟨fun h v hv => ⟨h.1 v hv, h.2 v hv⟩, fun h => ⟨fun v hv => (h v hv).1, fun v hv => (h v hv).2⟩⟩

theorem enclosable_nil : Enclosable [] := ⟨trivial, List.not_mem_nil⟩

theorem enclosable_append : Enclosable (us ++ vs) ↔ Enclosable us ∧ Enclosable vs := by
  simp only [enclosable_iff, List.forall_mem_append]

theorem enclosable_cons {v : ComponentValue} : Enclosable (v :: vs) ↔ Enclosable [v] ∧ Enclosable vs :=
  @enclosable_append vs [v]

theorem enclosable_token {t : Token} (h : t ≠ .close .curly) : Enclosable [.token t] :=
  ⟨⟨trivial, trivial⟩, fun hmem => h (token.inj (List.mem_singleton.mp hmem)).symm⟩

/-- What can stand between braces makes a block. -/
theorem Enclosable.block (h : Enclosable vs) : Enclosable [.block (.bracket .curly) vs] :=
  ⟨⟨⟨h.2, h.1⟩, trivial⟩, fun hmem => by cases List.mem_singleton.mp hmem⟩

end StyleTree.ComponentValue
