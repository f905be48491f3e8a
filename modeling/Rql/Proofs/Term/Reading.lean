import Rql.Proofs.Term.Scan

/-!
# The reader reads the grammar

`ofText` gives a term for a text exactly if the text is a notation of that term (`ofText_iff_derives`).

The reader does not follow the grammar. It takes the first parenthesis for that of a call, looks at the
last character for the one that closes it, and cuts what lies between by a scan that knows nothing of
names. So both directions go through `shapeOfTrimmed`, which takes one text apart. What it makes of a
notation is computed (`shapeOfTrimmed_call` and its like); that what it made a word or a call of is the
notation of one is read off its tests (`exact_or_isCall`). That the scan cuts where the grammar has its
commas is the matter of `piecesFrom_append` and `piecesFrom_ok`.
-/

namespace Rql.Term

open Text (Blank Trimmed isBlank)

/-! ## Quotes -/

theorem unquote?_append {quote : Char} {inside text : List Char} (hq : quote ≠ '\\')
    (h : Quoted quote inside text) (behind : List Char) :
    Literal.unquote? quote (inside ++ quote :: behind) = some (text, behind) := by
  induction h with
  | nil => rw [List.nil_append, Literal.unquote?.eq_4 _ _ _ hq, if_pos rfl]
  | escaped _ ih =>
    rw [List.cons_append, List.cons_append, Literal.unquote?, ih]
    rfl
  | plain hb hc _ ih =>
    rw [List.cons_append, Literal.unquote?.eq_4 _ _ _ hb, if_neg hc, ih]
    rfl

theorem quoted_of_unquote? {quote : Char} {cs text behind : List Char}
    (h : Literal.unquote? quote cs = some (text, behind)) :
    ∃ inside, cs = inside ++ quote :: behind ∧ Quoted quote inside text := by
  induction cs using Literal.unquote?.induct quote generalizing text with
  | case1 => exact absurd h (by simp [Literal.unquote?])
  | case2 => exact absurd h (by simp [Literal.unquote?])
  | case3 c rest ih =>
    rw [Literal.unquote?] at h
    obtain ⟨⟨found, after⟩, hfound, heq⟩ := Option.map_eq_some_iff.mp h
    obtain ⟨rfl, rfl⟩ := Prod.mk.inj heq
    obtain ⟨inside, rfl, hq⟩ := ih hfound
    exact ⟨'\\' :: c :: inside, rfl, .escaped hq⟩
  | case4 rest hb =>
    rw [Literal.unquote?.eq_4 _ _ _ hb, if_pos rfl] at h
    obtain ⟨rfl, rfl⟩ := Prod.mk.inj (Option.some.inj h)
    exact ⟨[], rfl, .nil⟩
  | case5 c rest hb hc ih =>
    rw [Literal.unquote?.eq_4 _ _ _ hb, if_neg hc] at h
    obtain ⟨⟨found, after⟩, hfound, heq⟩ := Option.map_eq_some_iff.mp h
    obtain ⟨rfl, rfl⟩ := Prod.mk.inj heq
    obtain ⟨inside, rfl, hq⟩ := ih hfound
    exact ⟨c :: inside, rfl, .plain hb hc hq⟩

/-! ## The shape of a notation -/

theorem shape_trim (cs : List Char) : shape (Text.trim cs) = shape cs := by
  rw [shape, shape, Text.trim_trim]

theorem shapeOfTrimmed_quoted {quote : Char} {inside text : List Char} (hq : isQuote quote = true)
    (h : Quoted quote inside text) :
    shapeOfTrimmed (quote :: (inside ++ [quote])) = .ok (.word (.ofQuoted (.ofList text))) := by
  rw [shapeOfTrimmed, if_neg (List.cons_ne_nil _ _), startsQuoted, if_pos hq, Literal.ofTrimmed,
    if_pos hq, unquote?_append (ne_backslash_of_isQuote hq) h]
  rfl

theorem startsQuoted_eq_false {cs : List Char} (h : ∀ c ∈ cs.head?, isQuote c = false) :
    startsQuoted cs = false := by
  cases cs with
  | nil => rfl
  | cons c cs => exact h c rfl

theorem IsName.startsQuoted_append {name : List Char} (h : IsName name) (cs : List Char) :
    startsQuoted (name ++ cs) = false := by
  refine startsQuoted_eq_false fun c hc => ?_
  obtain ⟨d, name, rfl⟩ := List.exists_cons_of_ne_nil h.ne_nil
  rw [← Option.some.inj hc]
  exact isQuote_of_isNameChar (h.chars d List.mem_cons_self)

theorem dropWhile_of_not_mem {cs : List Char} (h : '(' ∉ cs) (behind : List Char) :
    (cs ++ behind).dropWhile (· != '(') = behind.dropWhile (· != '(') := by
  refine List.dropWhile_append_of_pos fun c hc => ?_
  have : c ≠ '(' := fun he => h (he ▸ hc)
  simpa using this

theorem takeWhile_of_not_mem {cs : List Char} (h : '(' ∉ cs) (behind : List Char) :
    (cs ++ '(' :: behind).takeWhile (· != '(') = cs := by
  have hall : ∀ c ∈ cs, (c != '(') = true := by
    intro c hc
    have : c ≠ '(' := fun he => h (he ▸ hc)
    simpa using this
  rw [List.takeWhile_append_of_pos hall, List.takeWhile_cons_of_neg (by decide), List.append_nil]

theorem shapeOfTrimmed_bare {place : Place} {cs : List Char} (h : Bare place cs) :
    shapeOfTrimmed cs = .ok (.word (.bare (.ofList cs))) := by
  have hopen : behindParenthesis? cs = none := by
    have hdrop := dropWhile_of_not_mem h.no_parenthesis.1 []
    rw [List.append_nil] at hdrop
    rw [behindParenthesis?, hdrop]
    rfl
  have hclose : ¬ cs.contains ')' = true := by simpa using h.no_parenthesis.2
  rw [shapeOfTrimmed, if_neg h.ne_nil, startsQuoted_eq_false h.unquoted,
    if_neg Bool.false_ne_true, hopen]
  exact if_neg hclose

theorem not_mem_front {name gap : List Char} (hname : IsName name) (hgap : Blank gap) :
    '(' ∉ name ++ gap := by
  intro h
  rcases List.mem_append.mp h with h | h
  · exact hname.not_mem (by decide) h
  · exact absurd (hgap _ h) (by decide)

theorem ofCall_concat {cs name : List Char} (inside : List Char) (hcall : callName cs = name)
    (hname : IsName name) :
    ofCall cs (inside ++ [')']) =
      if inside.all isBlank then .ok (.call (.ofList name) [])
      else (arguments inside).map (.call (.ofList name)) := by
  have hgood : ¬ (name = [] ∨ ¬ name.all isNameChar) := by
    rintro (h | h)
    · exact hname.ne_nil h
    · exact h (List.all_eq_true.mpr hname.chars)
  have hlast : ¬ (inside ++ [')']).getLast? ≠ some ')' := fun h => h List.getLast?_concat
  rw [ofCall, hcall, if_neg hgood, if_neg hlast, List.dropLast_concat]

theorem shapeOfTrimmed_call {name gap : List Char} (inside : List Char) (hname : IsName name)
    (hgap : Blank gap) :
    shapeOfTrimmed (name ++ gap ++ '(' :: (inside ++ [')'])) =
      if inside.all isBlank then .ok (.call (.ofList name) [])
      else (arguments inside).map (.call (.ofList name)) := by
  have hfront := not_mem_front hname hgap
  have hne : name ++ gap ++ '(' :: (inside ++ [')']) ≠ [] := by simp
  have hquoted : startsQuoted (name ++ gap ++ '(' :: (inside ++ [')'])) = false := by
    rw [List.append_assoc]
    exact hname.startsQuoted_append _
  have hbehind : behindParenthesis? (name ++ gap ++ '(' :: (inside ++ [')']))
      = some (inside ++ [')']) := by
    rw [behindParenthesis?, dropWhile_of_not_mem hfront, List.dropWhile_cons_of_neg (by decide)]
  have hcall : callName (name ++ gap ++ '(' :: (inside ++ [')'])) = name := by
    rw [callName, takeWhile_of_not_mem hfront]
    exact Text.trim_padded Text.blank_nil hname.trimmed hgap
  rw [shapeOfTrimmed, if_neg hne, hquoted, if_neg Bool.false_ne_true, hbehind]
  exact ofCall_concat inside hcall hname

/-! ## The notation of a shape -/

theorem not_mem_of_behindParenthesis? {cs : List Char} (h : behindParenthesis? cs = none) :
    '(' ∉ cs := by
  rw [behindParenthesis?] at h
  split at h
  · next hdrop =>
    have hall := List.takeWhile_append_dropWhile (p := (· != '(')) (l := cs)
    rw [hdrop, List.append_nil] at hall
    intro hmem
    rw [← hall] at hmem
    have := List.all_eq_true.mp List.all_takeWhile _ hmem
    exact absurd this (by decide)
  · exact absurd h (by simp)

theorem split_of_behindParenthesis? {cs behind : List Char}
    (h : behindParenthesis? cs = some behind) :
    cs = cs.takeWhile (· != '(') ++ '(' :: behind := by
  rw [behindParenthesis?] at h
  split at h
  · exact absurd h (by simp)
  · next c rest hdrop =>
    have hc := List.head?_dropWhile_not (· != '(') cs
    rw [hdrop] at hc
    have hc : c = '(' := by simpa using hc
    have hall := List.takeWhile_append_dropWhile (p := (· != '(')) (l := cs)
    rw [hdrop, hc, Option.some.inj h] at hall
    exact hall.symm

theorem exact_of_ofTrimmed {cs : List Char} {l : Literal} (hq : startsQuoted cs = true)
    (h : Literal.ofTrimmed cs = .ok l) : Exact .alone cs (.word l) := by
  cases cs with
  | nil => exact absurd hq (by simp [startsQuoted])
  | cons quote rest =>
    rw [startsQuoted] at hq
    rw [Literal.ofTrimmed, if_pos hq] at h
    split at h
    · exact absurd h (by simp)
    · next text hun =>
      obtain ⟨inside, rfl, hinside⟩ := quoted_of_unquote? hun
      rw [← Except.ok.inj h]
      exact .quoted hq hinside
    · exact absurd h (by simp)

theorem bare_of_ofWord {cs : List Char} {s : Shape} (hne : cs ≠ []) (ht : Trimmed cs)
    (hq : ¬ startsQuoted cs = true) (hopen : '(' ∉ cs) (h : ofWord cs = .ok s) :
    Bare .alone cs ∧ s = .word (.bare (.ofList cs)) := by
  rw [ofWord] at h
  split at h
  · exact absurd h (by simp)
  · next hclose =>
    refine ⟨⟨hne, ht, ?_, ⟨hopen, by simpa using hclose⟩, nofun⟩, (Except.ok.inj h).symm⟩
    intro c hc
    obtain ⟨rest, rfl⟩ := List.head?_eq_some_iff.mp hc
    simpa [startsQuoted] using hq

/-- The text is a call, and the shape has its arguments as texts. -/
inductive IsCall (cs : List Char) : Shape → Prop where
  | intro {name gap inside : List Char} {args : List (List Char)} :
      IsName name → Blank gap → cs = name ++ gap ++ '(' :: (inside ++ [')']) →
      (Blank inside ∧ args = [] ∨ arguments inside = .ok args) → IsCall cs (.call (.ofList name) args)

theorem isCall_of_ofCall {cs behind : List Char} {s : Shape} (ht : Trimmed cs)
    (hcs : cs = cs.takeWhile (· != '(') ++ '(' :: behind) (h : ofCall cs behind = .ok s) :
    IsCall cs s := by
  rw [ofCall] at h
  split at h
  · exact absurd h (by simp)
  next hgood =>
  split at h
  · exact absurd h (by simp)
  next hlast =>
  obtain ⟨hne, hchars⟩ := not_or.mp hgood
  have hname : IsName (callName cs) :=
    ⟨hne, List.all_eq_true.mp (Decidable.of_not_not hchars)⟩
  obtain ⟨inside, rfl⟩ := List.getLast?_eq_some_iff.mp (Decidable.of_not_not hlast)
  rw [List.dropLast_concat] at h
  -- the name has no margin on its left, since the text has none
  obtain ⟨before, gap, hbefore, hgap, hfront⟩ := Text.exists_padded (cs.takeWhile (· != '('))
  rw [← callName] at hfront
  rw [hfront] at hcs
  have hnil : before = [] := by
    have hall : before ++ (callName cs ++ gap ++ '(' :: (inside ++ [')'])) = cs := by
      rw [← List.append_assoc, ← List.append_assoc]
      exact hcs.symm
    exact hbefore.eq_nil ht.head hall
  rw [hnil, List.nil_append] at hcs
  split at h
  · next hblank =>
    rw [← Except.ok.inj h]
    exact .intro hname hgap hcs (.inl ⟨Text.blank_iff_all.mp hblank, rfl⟩)
  · obtain ⟨args, hargs, rfl⟩ := map_ok h
    exact .intro hname hgap hcs (.inr hargs)

/-- **What has a shape is a notation of a word or a call.** -/
theorem exact_or_isCall {cs : List Char} {s : Shape} (ht : Trimmed cs)
    (h : shapeOfTrimmed cs = .ok s) : (∃ l, s = .word l ∧ Exact .alone cs (.word l)) ∨ IsCall cs s := by
  rw [shapeOfTrimmed] at h
  split at h
  · exact absurd h (by simp)
  next hne =>
  split at h
  · next hq =>
    obtain ⟨l, hl, rfl⟩ := map_ok h
    exact .inl ⟨l, rfl, exact_of_ofTrimmed hq hl⟩
  next hq =>
  split at h
  · next hopen =>
    obtain ⟨hbare, rfl⟩ := bare_of_ofWord hne ht hq (not_mem_of_behindParenthesis? hopen) h
    exact .inl ⟨_, rfl, .bare hbare⟩
  · next hbehind => exact .inr (isCall_of_ofCall ht (split_of_behindParenthesis? hbehind) h)

/-! ## The reader -/

theorem ofChars_eq (text : List Char) :
    ofChars text = match shape text with
      | .error fault => .error fault
      | .ok (.word l) => .ok (.word l)
      | .ok (.call name args) => (args.mapM ofChars).map (.call name) := by
  rw [ofChars]
  split
  · next h => rw [h]
  · next h => rw [h]
  · next name args h =>
    have hread : (args.attach.mapM fun arg => ofChars arg.1) = args.mapM ofChars := by
      rw [List.mapM_subtype fun _ _ => rfl, List.unattach_attach]
    refine (congrArg (Except.map (call name)) hread).trans ?_
    rw [h]

theorem ofChars_trim (cs : List Char) : ofChars (Text.trim cs) = ofChars cs := by
  rw [ofChars_eq, ofChars_eq cs, shape_trim]

/-- The margins of the pieces make no difference. -/
theorem mapM_trim (pieces : List (List Char)) :
    (pieces.map Text.trim).mapM ofChars = pieces.mapM ofChars := by
  rw [List.mapM_map]
  exact congrArg (pieces.mapM ·) (funext ofChars_trim)

theorem arguments_ok {cs : List Char} {args : List (List Char)} (h : arguments cs = .ok args) :
    ∃ pieces, piecesFrom .start cs = .ok pieces ∧ args = pieces.map Text.trim := by
  rw [arguments] at h
  split at h
  · exact absurd h (by simp)
  · next pieces hp => exact ⟨pieces, hp, (Except.ok.inj h).symm⟩

theorem arguments_eq {cs : List Char} {pieces : List (List Char)}
    (h : piecesFrom .start cs = .ok pieces) : arguments cs = .ok (pieces.map Text.trim) := by
  rw [arguments, h]

/-! ## Every notation is read -/

mutual

theorem ofChars_of_exact : ∀ {place : Place} {cs : List Char} {t : Term}, Exact place cs t →
    ofChars cs = .ok t
  | _, _, _, .quoted hq h => by
      have htrim := Text.trim_eq_self (Exact.quoted hq h : Exact .alone _ _).trimmed
      rw [ofChars_eq, shape, htrim, shapeOfTrimmed_quoted hq h]
  | _, _, _, .bare h => by
      rw [ofChars_eq, shape, Text.trim_eq_self h.trimmed, shapeOfTrimmed_bare h]
  | _, _, _, @Exact.call _ _ _ inside args hname hgap hargs => by
      have htrim := Text.trim_eq_self (Exact.call hname hgap hargs : Exact .alone _ _).trimmed
      rw [ofChars_eq, shape, htrim, shapeOfTrimmed_call inside hname hgap]
      -- blanks are not scanned, they are no arguments
      by_cases hblank : Blank inside
      · rw [if_pos (Text.blank_iff_all.mpr hblank), hargs.blank_iff.mp hblank]
        rfl
      · have hne : args ≠ [] := fun h => hblank (hargs.blank_iff.mpr h)
        obtain ⟨pieces, hpieces, hread⟩ := pieces_of_arguments hargs hne
        rw [if_neg fun h => hblank (Text.blank_iff_all.mp h), arguments_eq hpieces]
        simp only [Except.map, mapM_trim, hread]

theorem ofChars_of_padded : ∀ {place : Place} {cs : List Char} {t : Term}, Padded place cs t →
    ofChars cs = .ok t
  | _, _, _, .intro hb h ha => by
      rw [← ofChars_trim, Text.trim_padded hb h.trimmed ha]
      exact ofChars_of_exact h

theorem pieces_of_arguments : ∀ {cs : List Char} {ts : List Term}, Arguments cs ts → ts ≠ [] →
    ∃ pieces, piecesFrom .start cs = .ok pieces ∧ pieces.mapM ofChars = .ok ts
  | _, _, .none _, hne => absurd rfl hne
  | cs, _, .last h, _ => by
      have hend : piecesFrom (.text 0 false) [] = .ok [[]] := rfl
      have hpieces := piecesFrom_append (Scan.pass?_of_padded h) hend
      rw [List.append_nil] at hpieces
      refine ⟨[cs], hpieces, ?_⟩
      rw [List.mapM_cons, ofChars_of_padded h]
      rfl
  | _, _, @Arguments.cons cs rest t u us h hrest, _ => by
      obtain ⟨pieces, hpieces, hread⟩ := pieces_of_arguments hrest (List.cons_ne_nil u us)
      have hcut : piecesFrom (.text 0 false) (',' :: rest) = .ok ([] :: pieces) := by
        rw [piecesFrom, Scan.step_cut]
        simp only [hpieces]
        rfl
      have hall := piecesFrom_append (Scan.pass?_of_padded h) hcut
      rw [List.append_nil] at hall
      refine ⟨cs :: pieces, hall, ?_⟩
      rw [List.mapM_cons, ofChars_of_padded h, hread]
      rfl

end

/-! ## Whatever is read is a notation -/

/-- A word that passes is one wherever it stands. -/
theorem Exact.of_pass? {cs : List Char} {l : Literal} {next : Scan} (h : Exact .alone cs (.word l))
    (hpass : Scan.start.pass? cs = some next) (place : Place) : Exact place cs (.word l) := by
  cases h with
  | quoted hq h => exact .quoted hq h
  | bare h => exact .bare (h.of_pass? hpass place)

theorem arguments_of_pieces {cs : List Char} {pieces : List (List Char)} {ts : List Term}
    (h : piecesFrom .start cs = .ok pieces) (hts : pieces.mapM ofChars = .ok ts)
    (hread : ∀ p ∈ pieces, ∀ t, ofChars p = .ok t → Scan.start.pass? p = some (.text 0 false) →
      Padded .argument p t) : Arguments cs ts := by
  induction pieces generalizing cs ts with
  | nil =>
    obtain ⟨_, _, heq, -⟩ := piecesFrom_ok h
    exact absurd heq (by simp)
  | cons p pieces ih =>
    obtain ⟨first, rest, heq, hpass, hcs⟩ := piecesFrom_ok h
    obtain ⟨rfl, rfl⟩ := List.cons.inj heq
    obtain ⟨t, us, ht, hus, rfl⟩ := mapM_cons_ok hts
    have hfirst : Padded .argument p t := hread p List.mem_cons_self t ht hpass
    rcases hcs with ⟨rfl, rfl⟩ | ⟨behind, rfl, hbehind⟩
    · obtain rfl := Except.ok.inj hus
      exact .last hfirst
    · -- behind a comma there is at least one more piece
      have hrest := ih hbehind hus fun q hq => hread q (List.mem_cons_of_mem p hq)
      obtain ⟨q, qs, rfl, -⟩ := piecesFrom_ok hbehind
      obtain ⟨u, vs, -, -, rfl⟩ := mapM_cons_ok hus
      exact .cons hfirst hrest

theorem padded_of_ofChars {text : List Char} {t : Term} (place : Place) (h : ofChars text = .ok t)
    (hpass : place = .argument → ∃ next, Scan.start.pass? text = some next) :
    Padded place text t := by
  obtain ⟨before, after, hb, ha, htext⟩ := Text.exists_padded text
  suffices hexact : Exact place (Text.trim text) t by
    rw [htext]
    exact .intro hb hexact ha
  rw [ofChars_eq] at h
  split at h
  · exact absurd h (by simp)
  · next l hshape =>
    obtain rfl := Except.ok.inj h
    rcases exact_or_isCall (Text.trimmed_trim text) hshape with ⟨l', heq, hexact⟩ | hcall
    · obtain rfl := Shape.word.inj heq
      cases place with
      | alone => exact hexact
      | argument =>
        obtain ⟨next, hnext⟩ := hpass rfl
        rw [htext, List.append_assoc, Scan.start, Scan.pass?_append (Scan.pass?_blank hb 0 true)]
          at hnext
        obtain ⟨mid, hmid⟩ := Scan.exists_pass?_of_append hnext
        exact hexact.of_pass? hmid .argument
    · exact absurd hcall (by rintro ⟨⟩)
  · next name args hshape =>
    obtain ⟨ts, hts, rfl⟩ := map_ok h
    rcases exact_or_isCall (Text.trimmed_trim text) hshape with ⟨l, heq, -⟩ | hcall
    · exact absurd heq (by simp)
    · cases hcall with
      | @intro nm gap inside _ hname hgap hcs hargs =>
        rw [hcs]
        refine .call hname hgap ?_
        rcases hargs with ⟨hblank, rfl⟩ | hargs
        · obtain rfl := Except.ok.inj hts
          exact .none hblank
        · obtain ⟨pieces, hpieces, rfl⟩ := arguments_ok hargs
          rw [mapM_trim] at hts
          refine arguments_of_pieces hpieces hts fun p hp u hu hpass => ?_
          -- a piece is shorter than the call that it was cut from
          have hlen : p.length < text.length := by
            have h₁ := length_le_of_mem_piecesFrom hpieces p hp
            have h₂ := Text.length_trim_le text
            rw [hcs] at h₂
            simp only [List.length_append, List.length_cons, List.length_nil] at h₂
            omega
          exact padded_of_ofChars .argument hu fun _ => ⟨_, hpass⟩
termination_by text.length

/-- Whatever stands between the parentheses, what is read is a call of the name in front. -/
theorem exists_args_of_ofText {name inside : String} {t : Term} (hname : IsName name.toList)
    (h : ofText (name ++ "(" ++ inside ++ ")") = .ok t) : ∃ args, t = .call name args := by
  rw [ofText, toList_call, ofChars_eq, shape, Text.trim_eq_self (hname.trimmed_call [] inside.toList),
    shapeOfTrimmed_call inside.toList hname Text.blank_nil, String.ofList_toList] at h
  by_cases hblank : inside.toList.all isBlank = true
  · rw [if_pos hblank] at h
    obtain ⟨args, -, rfl⟩ := map_ok h
    exact ⟨args, rfl⟩
  · rw [if_neg hblank] at h
    cases hargs : arguments inside.toList with
    | error fault =>
      rw [hargs] at h
      exact absurd h (by simp [Except.map])
    | ok pieces =>
      rw [hargs] at h
      obtain ⟨args, -, rfl⟩ := map_ok h
      exact ⟨args, rfl⟩

/-- **A text is read as a term exactly if it is a notation of that term.** So no text is a notation of two
terms, and a text that is a notation of none is refused as malformed. -/
theorem ofText_iff_derives (s : String) :
    (∀ t, ofText s = .ok t ↔ Derives s t) ∧
      (∀ t u, Derives s t → Derives s u → t = u) ∧
      ((∀ t, ¬ Derives s t) →
        ∃ fault, (ofText s).mapError Error.malformed = .error (.malformed fault)) := by
  have hiff : ∀ t, ofText s = .ok t ↔ Derives s t := fun t =>
    ⟨fun h => padded_of_ofChars .alone h nofun, ofChars_of_padded⟩
  refine ⟨hiff, ?_, ?_⟩
  · intro t u ht hu
    exact Except.ok.inj (((hiff t).mpr ht).symm.trans ((hiff u).mpr hu))
  · intro hnone
    cases h : ofText s with
    | error fault => exact ⟨fault, rfl⟩
    | ok t => exact absurd ((hiff t).mp h) (hnone t)

end Rql.Term
