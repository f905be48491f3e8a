import Rql.Proofs.Term.Reading

/-!
# Terms that are written out

`render` writes a term without margins, with every quoted word in double quotes. Not every term has a
notation: a bare word with a parenthesis in it has none, and one with a comma has none as an argument.
`HasNotation` says which terms have one. Those that are read from a text do (`hasNotation_of_exact`), and
what `render` makes of them is one (`exact_render`). So a term that was read is read again from what is
written of it (`ofText_render`), whatever margins, quotes and escapes the first text had.
-/

namespace Rql.Term

mutual

/-- The term has a notation at a place. -/
def HasNotation (place : Place) : Term → Prop
  | .word l => l.quoted = false → Bare place l.text.toList
  | .call name args => IsName name.toList ∧ HaveNotations args

/-- The terms have notations as arguments. -/
def HaveNotations : List Term → Prop
  | [] => True
  | t :: ts => HasNotation .argument t ∧ HaveNotations ts

end

mutual

theorem hasNotation_of_exact : ∀ {place : Place} {cs : List Char} {t : Term}, Exact place cs t →
    HasNotation place t
  | _, _, _, .quoted _ _ => fun h => absurd h (by simp [Literal.ofQuoted])
  | _, _, _, .bare h => fun _ => by rwa [Literal.bare, String.toList_ofList]
  | _, _, _, .call hname _ hargs =>
      ⟨by rwa [String.toList_ofList], haveNotations_of_arguments hargs⟩

theorem hasNotation_of_padded : ∀ {place : Place} {cs : List Char} {t : Term}, Padded place cs t →
    HasNotation place t
  | _, _, _, .intro _ h _ => hasNotation_of_exact h

theorem haveNotations_of_arguments : ∀ {cs : List Char} {ts : List Term}, Arguments cs ts →
    HaveNotations ts
  | _, _, .none _ => trivial
  | _, _, .last h => ⟨hasNotation_of_padded h, trivial⟩
  | _, _, .cons h hrest => ⟨hasNotation_of_padded h, haveNotations_of_arguments hrest⟩

end

/-! ## The text that is written -/

/-- What is written of a quoted word stands for the word. -/
theorem quoted_escape (text : List Char) : Quoted '"' (text.flatMap Literal.escape) text := by
  induction text with
  | nil => exact .nil
  | cons c text ih =>
    rw [List.flatMap_cons, Literal.escape]
    -- a backslash and a double quote get a backslash in front
    split
    · exact .escaped ih
    · next h =>
      obtain ⟨hb, hq⟩ := not_or.mp h
      exact .plain hb hq ih

theorem toList_render_quoted {l : Literal} (h : l.quoted = true) :
    l.render.toList = '"' :: (l.text.toList.flatMap Literal.escape ++ ['"']) := by
  rw [Literal.render, if_pos h, String.toList_ofList]

theorem toList_render_bare {l : Literal} (h : l.quoted = false) :
    l.render.toList = l.text.toList := by
  rw [Literal.render, if_neg (by rw [h]; exact Bool.false_ne_true)]

theorem toList_render_call (name : String) (args : List Term) :
    (render (.call name args)).toList =
      name.toList ++ [] ++ '(' :: ((renderArgs args).toList ++ [')']) := by
  rw [render, toList_call]

theorem toList_renderArgs_cons (t u : Term) (us : List Term) :
    (renderArgs (t :: u :: us)).toList =
      (render t).toList ++ ',' :: (renderArgs (u :: us)).toList := by
  rw [renderArgs]
  · simp
  · exact List.cons_ne_nil u us

theorem exact_render_word {place : Place} {l : Literal} (h : HasNotation place (.word l)) :
    Exact place l.render.toList (.word l) := by
  cases l with
  | mk text quoted =>
    cases quoted with
    | true =>
      rw [toList_render_quoted rfl]
      have : Exact place _ _ := .quoted (by decide) (quoted_escape text.toList)
      rwa [String.ofList_toList] at this
    | false =>
      rw [toList_render_bare rfl]
      have := Exact.bare (h rfl)
      rwa [String.ofList_toList] at this

mutual

/-- **What is written of a term is a notation of it**, if it has one. -/
theorem exact_render : ∀ {place : Place} (t : Term), HasNotation place t →
    Exact place t.render.toList t
  | _, .word l, h => by
      rw [render]
      exact exact_render_word h
  | place, .call name args, ⟨hname, hargs⟩ => by
      rw [toList_render_call]
      have : Exact place _ _ := .call hname Text.blank_nil (arguments_render args hargs)
      rwa [String.ofList_toList] at this

theorem arguments_render : ∀ (ts : List Term), HaveNotations ts → Arguments (renderArgs ts).toList ts
  | [], _ => .none Text.blank_nil
  | [t], ⟨h, _⟩ => by
      rw [renderArgs]
      exact .last (exact_render t h).padded
  | t :: u :: us, ⟨h, hrest⟩ => by
      rw [toList_renderArgs_cons]
      exact .cons (exact_render t h).padded (arguments_render (u :: us) hrest)

end

/-- **A term that was read is read again from what is written of it.** -/
theorem ofText_render (s : String) (t : Term) (h : ofText s = .ok t) : ofText t.render = .ok t :=
  ofChars_of_exact (exact_render t (hasNotation_of_padded (padded_of_ofChars .alone h nofun)))

/-- Margins, single quotes and escapes that are not needed go; a double quote in a word gets one. -/
theorem ofText_render_requoted :
    ofText " w ( x y,'it\\'s \"') " =
        .ok (.call "w" [.word (.bare "x y"), .word (.ofQuoted "it's \"")]) ∧
      ofText (render (.call "w" [.word (.bare "x y"), .word (.ofQuoted "it's \"")])) =
        .ok (.call "w" [.word (.bare "x y"), .word (.ofQuoted "it's \"")]) := by
  have hread : ofText " w ( x y,'it\\'s \"') " =
      .ok (.call "w" [.word (.bare "x y"), .word (.ofQuoted "it's \"")]) := by
    with_unfolding_all rfl
  exact ⟨hread, ofText_render _ _ hread⟩

end Rql.Term
