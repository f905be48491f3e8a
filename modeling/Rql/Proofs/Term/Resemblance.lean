import Rql.Proofs.Lists
import Rql.Proofs.Term.Rendering

/-!
# Terms that look alike

`Resembles t u`: the term `u` is `t`, except that quotes around words may be gone and that names may be
written differently. This is what is left of a term once it was read as a predicate.

A text that is written of such a `u` may well be a notation of something else, as `eq("a,b",1)` without
its quotes is. But it is a notation of no term that resembles `u`, except for `u` itself
(`eq_render_of_padded`): the quotes that are gone cannot come back. For if what a quoted word stands for
were all that is written of it, then the first comma or parenthesis behind it would have to stand inside
the quotes, and for each such character inside there is one earlier in the word (`Quoted.idxOf_le`).
-/

namespace Rql.Term

open Text (Blank Trimmed isBlank)

mutual

/-- `u` is `t` but for quotes that are gone and for the names of calls. -/
inductive Resembles : Term → Term → Prop where
  | word {l m : Literal} :
      l.text = m.text → (m.quoted = true → l.quoted = true) → Resembles (.word l) (.word m)
  | call {given name : String} {ts us : List Term} :
      IsName name.toList → AllResemble ts us → Resembles (.call given ts) (.call name us)

/-- Each term resembles the one at its place. -/
inductive AllResemble : List Term → List Term → Prop where
  | nil : AllResemble [] []
  | cons {t u : Term} {ts us : List Term} :
      Resembles t u → AllResemble ts us → AllResemble (t :: ts) (u :: us)

end

/-- The end of the text, or what may follow an argument. -/
def Ends (cs : List Char) : Prop :=
  ∀ c ∈ cs.head?, c = ',' ∨ c = ')'

theorem ends_nil : Ends [] :=
  fun _ h => absurd h (by simp)

theorem ends_cons {c : Char} (h : c = ',' ∨ c = ')') (cs : List Char) : Ends (c :: cs) := by
  intro d hd
  rw [← Option.some.inj hd]
  exact h

theorem Ends.isBlank {cs : List Char} (h : Ends cs) : ∀ c ∈ cs.head?, isBlank c = false := by
  intro c hc
  rcases h c hc with rfl | rfl <;> decide

theorem not_ends_of_isQuote {c : Char} (h : isQuote c = true) (cs : List Char) : ¬ Ends (c :: cs) := by
  intro hends
  rcases hends c rfl with rfl | rfl <;> exact absurd h (by decide)

theorem not_ends_of_isBlank {c : Char} (h : isBlank c = true) (cs : List Char) : ¬ Ends (c :: cs) := by
  intro hends
  rw [hends.isBlank c rfl] at h
  exact Bool.false_ne_true h

/-! ## Words -/

/-- Between quotes a character comes no earlier than in what is meant by it. -/
theorem Quoted.idxOf_le {quote c : Char} {inside text : List Char} (h : Quoted quote inside text)
    (hc : c ≠ '\\') : text.idxOf c ≤ inside.idxOf c := by
  induction h with
  | nil => exact Nat.le_refl _
  | @escaped d inside text _ ih =>
    rw [List.idxOf_cons_ne _ (Ne.symm hc)]
    exact Nat.le_succ_of_le (idxOf_cons_le_cons d ih)
  | @plain d inside text _ _ _ ih => exact idxOf_cons_le_cons d ih

/-- Between quotes cannot stand what follows the first quote in the word that is meant, and a stop
behind it: that stop would come earlier between the quotes than in the word. -/
theorem Quoted.ne_shifted {quote stop : Char} {before inside tail behind : List Char}
    (h : Quoted quote inside (before ++ quote :: tail)) (hstop : stop ≠ '\\') (hb : stop ∉ before)
    (hq : quote ≠ stop) : inside ≠ tail ++ stop :: behind := by
  intro heq
  have hle := h.idxOf_le hstop
  have hinside : inside.idxOf stop = tail.idxOf stop := by
    rw [heq, List.idxOf_append]
    split
    · rfl
    · next hmem => rw [List.idxOf_cons_self, Nat.zero_add, List.idxOf_eq_length hmem]
  have hword : (before ++ quote :: tail).idxOf stop = tail.idxOf stop + 1 + before.length := by
    rw [List.idxOf_append, if_neg hb, List.idxOf_cons_ne _ hq]
  omega

/-- **A quoted word is no notation of what is meant by it**, with no quotes around. -/
theorem Quoted.ne_append {quote : Char} {before inside text rest behind : List Char}
    (h : Quoted quote inside text) (hq : isQuote quote = true) (hb : Blank before)
    (hbehind : Ends behind) :
    before ++ quote :: (inside ++ quote :: rest) ≠ text ++ behind := by
  intro heq
  rcases List.append_eq_append_iff.mp heq with ⟨tail, rfl, hsplit⟩ | ⟨tail, rfl, rfl⟩
  · cases tail with
    | nil =>
      -- the word is all margin, and the quote comes where the word ends
      rw [List.nil_append] at hsplit
      exact not_ends_of_isQuote hq _ (hsplit ▸ hbehind)
    | cons d tail =>
      obtain ⟨rfl, hinside⟩ := List.cons.inj hsplit
      have hlen := h.length_le
      rw [List.length_append, List.length_cons] at hlen
      rcases List.append_eq_append_iff.mp hinside with ⟨more, rfl, -⟩ | ⟨more, hmore, rfl⟩
      · rw [List.length_append] at hlen
        omega
      · cases more with
        | nil =>
          rw [hmore, List.append_nil] at hlen
          omega
        | cons stop more =>
          -- the stop behind the word stands between the quotes
          refine h.ne_shifted ?_ ?_ ?_ hmore
          · rcases hbehind stop rfl with rfl | rfl <;> decide
          · exact fun hmem => not_ends_of_isBlank (hb stop hmem) _ hbehind
          · rintro rfl
            exact not_ends_of_isQuote hq _ hbehind
  · -- the margin goes on where the word ends
    cases tail with
    | nil => exact not_ends_of_isQuote hq _ hbehind
    | cons d tail => exact not_ends_of_isBlank (hb d (by simp)) _ hbehind

/-! ## Terms -/

theorem eq_of_text_eq {text : String} {quoted : Bool} {m : Literal} (ht : text = m.text)
    (hq : m.quoted = quoted) : (⟨text, quoted⟩ : Literal) = m := by
  rw [ht, ← hq]

theorem eq_render_of_quoted {quote : Char} {before inside text after rest behind : List Char}
    {m : Literal} (hq : isQuote quote = true) (h : Quoted quote inside text)
    (hm : .ofList text = m.text) (hb : Blank before) (ha : Blank after) (hbehind : Ends behind)
    (heq : before ++ (quote :: (inside ++ [quote])) ++ after ++ rest = m.render.toList ++ behind) :
    .ofQuoted (.ofList text) = m ∧
      before ++ (quote :: (inside ++ [quote])) ++ after = m.render.toList := by
  have htext : m.text.toList = text := by rw [← hm, String.toList_ofList]
  have hsplit : before ++ quote :: (inside ++ quote :: (after ++ rest)) = m.render.toList ++ behind := by
    rw [← heq]
    simp only [List.append_assoc, List.cons_append, List.nil_append]
  cases hquoted : m.quoted with
  | false =>
    rw [toList_render_bare hquoted, htext] at hsplit
    exact absurd hsplit (h.ne_append hq hb hbehind)
  | true =>
    refine ⟨eq_of_text_eq hm hquoted, ?_⟩
    rw [toList_render_quoted hquoted, htext] at hsplit ⊢
    have hbefore : before = [] := by
      refine hb.eq_nil ?_ hsplit
      intro c hc
      rw [← Option.some.inj hc]
      decide
    subst hbefore
    obtain rfl : quote = '"' := (List.cons.inj hsplit).1
    have hinside : inside ++ '"' :: (after ++ rest) = text.flatMap Literal.escape ++ '"' :: behind := by
      simpa using (List.cons.inj hsplit).2
    -- both stand for the same word, so both end at the same quote
    have hread := unquote?_append (by decide) h (after ++ rest)
    rw [hinside, unquote?_append (by decide) (quoted_escape text)] at hread
    have hrest : after ++ rest = behind := (Prod.mk.inj (Option.some.inj hread)).2.symm
    obtain rfl := ha.eq_nil hbehind.isBlank hrest
    rw [hrest] at hinside
    rw [List.append_cancel_right hinside, List.append_nil, List.nil_append]

theorem eq_render_of_bare {place : Place} {before cs after rest behind : List Char} {m : Literal}
    (h : Bare place cs) (hm : .ofList cs = m.text) (hquoted : m.quoted = false) (hb : Blank before)
    (ha : Blank after) (hbehind : Ends behind)
    (heq : before ++ cs ++ after ++ rest = m.render.toList ++ behind) :
    .bare (.ofList cs) = m ∧ before ++ cs ++ after = m.render.toList := by
  refine ⟨eq_of_text_eq hm hquoted, ?_⟩
  rw [toList_render_bare hquoted, ← hm, String.toList_ofList] at heq ⊢
  rw [List.append_assoc, List.append_assoc] at heq
  have hhead : ∀ c ∈ (cs ++ behind).head?, isBlank c = false := by
    obtain ⟨c, tail, rfl⟩ := List.exists_cons_of_ne_nil h.ne_nil
    exact h.trimmed.head
  obtain rfl := hb.eq_nil hhead heq
  obtain rfl := ha.eq_nil hbehind.isBlank (List.append_cancel_left heq)
  rw [List.nil_append, List.append_nil]

/-- Up to their parentheses two calls are the same only if neither has a margin. -/
theorem eq_of_call_eq {before name gap name' cs ds : List Char} (hname : IsName name)
    (hname' : IsName name') (hb : Blank before) (hgap : Blank gap)
    (heq : before ++ (name ++ gap ++ '(' :: cs) = name' ++ '(' :: ds) :
    before = [] ∧ gap = [] ∧ name = name' ∧ cs = ds := by
  have hhead : ∀ c ∈ (name' ++ '(' :: ds).head?, isBlank c = false := by
    obtain ⟨c, tail, rfl⟩ := List.exists_cons_of_ne_nil hname'.ne_nil
    exact hname'.trimmed.head
  obtain rfl := hb.eq_nil hhead heq
  rw [List.nil_append] at heq
  have hfront : name ++ gap = name' := by
    have := congrArg (List.takeWhile (· != '(')) heq
    rwa [takeWhile_of_not_mem (not_mem_front hname hgap),
      takeWhile_of_not_mem (hname'.not_mem (by decide))] at this
  have hgapnil : gap = [] := by
    cases gap with
    | nil => rfl
    | cons c gap =>
      have hchar := hname'.chars c (by rw [← hfront]; simp)
      have hblank := hgap c List.mem_cons_self
      rw [isBlank_of_isNameChar hchar] at hblank
      exact absurd hblank Bool.false_ne_true
  rw [hfront] at heq
  rw [hgapnil, List.append_nil] at hfront
  exact ⟨rfl, hgapnil, hfront, (List.cons.inj (List.append_cancel_left heq)).2⟩

mutual

theorem eq_render_of_exact : ∀ {place : Place} {cs : List Char} {t : Term}, Exact place cs t →
    ∀ (u : Term) (before after rest behind : List Char), Resembles t u → Blank before → Blank after →
      Ends behind → before ++ cs ++ after ++ rest = u.render.toList ++ behind →
      t = u ∧ before ++ cs ++ after = u.render.toList
  | _, _, _, .quoted hq h => by
      intro u before after rest behind hu hb ha hbehind heq
      cases hu with
      | @word _ m hm hquoted =>
        rw [render] at heq ⊢
        have hall := eq_render_of_quoted hq h hm hb ha hbehind heq
        exact ⟨congrArg Term.word hall.1, hall.2⟩
  | _, _, _, .bare h => by
      intro u before after rest behind hu hb ha hbehind heq
      cases hu with
      | @word _ m hm hquoted =>
        have hbare : m.quoted = false := by
          cases hmq : m.quoted with
          | false => rfl
          | true => exact absurd (hquoted hmq) (by simp [Literal.bare])
        rw [render] at heq ⊢
        have hall := eq_render_of_bare h hm hbare hb ha hbehind heq
        exact ⟨congrArg Term.word hall.1, hall.2⟩
  | _, _, _, @Exact.call _ name gap inside args hname hgap hargs => by
      intro u before after rest behind hu hb ha hbehind heq
      have ih := eq_render_of_arguments hargs
      cases hu with
      | @call _ name' _ us hname' hus =>
        rw [toList_render_call, List.append_nil] at heq ⊢
        have hsplit : before ++ (name ++ gap ++ '(' :: (inside ++ ')' :: (after ++ rest)))
            = name'.toList ++ '(' :: ((renderArgs us).toList ++ ')' :: behind) := by
          simpa using heq
        obtain ⟨rfl, rfl, rfl, hargseq⟩ := eq_of_call_eq hname hname' hb hgap hsplit
        obtain ⟨rfl, rfl⟩ := ih us _ _ hus hargseq
        have hrest := (List.cons.inj (List.append_cancel_left hargseq)).2
        obtain rfl := ha.eq_nil hbehind.isBlank hrest
        rw [String.ofList_toList]
        exact ⟨rfl, by simp⟩

/-- **A notation that begins as a term that looks like its own is written, is written so.** -/
theorem eq_render_of_padded : ∀ {place : Place} {cs : List Char} {t : Term}, Padded place cs t →
    ∀ (u : Term) (rest behind : List Char), Resembles t u → Ends behind →
      cs ++ rest = u.render.toList ++ behind → t = u ∧ cs = u.render.toList
  | _, _, _, .intro hb h ha => fun u rest behind hu hbehind heq =>
      eq_render_of_exact h u _ _ rest behind hu hb ha hbehind heq

theorem eq_render_of_arguments : ∀ {cs : List Char} {ts : List Term}, Arguments cs ts →
    ∀ (us : List Term) (rest behind : List Char), AllResemble ts us →
      cs ++ ')' :: rest = (renderArgs us).toList ++ ')' :: behind → ts = us ∧ cs = (renderArgs us).toList
  | _, _, .none hb => by
      intro us rest behind hus heq
      cases hus with
      | nil =>
        rw [renderArgs] at heq ⊢
        exact ⟨rfl, hb.eq_nil (ends_cons (.inr rfl) behind).isBlank heq⟩
  | _, _, .last h => by
      intro us rest behind hus heq
      have ih := eq_render_of_padded h
      cases hus with
      | @cons t u _ _ htu hrest =>
        cases hrest
        rw [renderArgs] at heq ⊢
        have hall := ih u _ _ htu (ends_cons (.inr rfl) behind) heq
        exact ⟨congrArg (fun t => [t]) hall.1, hall.2⟩
  | _, _, .cons h hrest => by
      intro us rest behind hus heq
      have ih := eq_render_of_padded h
      have ihs := eq_render_of_arguments hrest
      cases hus with
      | @cons _ t' _ us htt hus =>
        cases hus with
        | @cons u u' us us' huu hus =>
          rw [toList_renderArgs_cons, List.append_assoc, List.append_assoc] at heq
          obtain ⟨rfl, rfl⟩ := ih t' _ _ htt (ends_cons (.inl rfl) _) heq
          have htail := (List.cons.inj (List.append_cancel_left heq)).2
          obtain ⟨hts, rfl⟩ := ihs (u' :: us') _ _ (.cons huu hus) htail
          rw [hts, toList_renderArgs_cons]
          exact ⟨rfl, rfl⟩

end

end Rql.Term
