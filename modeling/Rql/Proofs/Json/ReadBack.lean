import Rql.Json.Document
import Rql.Proofs.Text.Alphanumeric

/-!
# Written values are read back

A value without numbers is written as a text that is read as this value again, whatever characters its
strings have (`isText_render`). Numbers are left out: what is read back of them is a matter of their
digits.

Reading goes in two steps, so there are two statements about each value: what is written lexes into some
tokens (`Lexes`), and these tokens take the reader past a document (`Parses`). Both are said of the value
in front of something else, which is how the parts of arrays and objects stand in the text.
-/

namespace Rql.Json

variable {c : Char} {cs text text' rest : List Char} {t : Token} {tokens tokens' : List Token}

/-! ## Characters of strings -/

/-- The mark that a written character is read as. Control characters without an escape of their own come
back by their numbers. -/
def markOf (c : Char) : Mark :=
  if c.toNat < 0x20 ∧ c ∉ ['\x08', '\x0c', '\n', '\r', '\t'] then .unit c.toNat else .char c

/-- The marks that a written text is read as. -/
def marksOf (s : String) : List Mark :=
  s.toList.map markOf

theorem tokensFrom?_cons (state : Lexing) (c : Char) (rest : List Char) :
    tokensFrom? state (c :: rest) = (state.next? c).bind fun (ended, state) =>
      (tokensFrom? state rest).map (ended ++ ·) := by
  cases state <;> rfl

/-- A character at which no token ends. -/
theorem tokensFrom?_of_next? {state state' : Lexing} (h : state.next? c = some ([], state'))
    (rest : List Char) : tokensFrom? state (c :: rest) = tokensFrom? state' rest := by
  rw [tokensFrom?_cons, h, Option.bind_some]
  exact Option.map_id'

/-- A character at which a token ends and nothing is open. -/
theorem tokensFrom?_of_ends {state : Lexing} (h : state.next? c = some ([t], .between))
    (rest : List Char) :
    tokensFrom? state (c :: rest) = (tokensFrom? .between rest).map ([t] ++ ·) := by
  rw [tokensFrom?_cons, h, Option.bind_some]

theorem tokensFrom?_shortEscape {e : Char} (he : shortEscape? e = some c) (sofar : List Mark)
    (rest : List Char) :
    tokensFrom? (.string sofar) ('\\' :: e :: rest)
      = tokensFrom? (.string (.char c :: sofar)) rest := by
  have hescape : (Lexing.escape sofar).next? e = some ([], .string (.char c :: sofar)) := by
    rw [Lexing.next?, if_neg (by rintro rfl; exact nomatch he), he]
    rfl
  rw [tokensFrom?_of_next? rfl, tokensFrom?_of_next? hescape]

theorem tokensFrom?_unit {high low : Char} {h l : Nat} (hhigh : Numeral.hexValue? high = some h)
    (hlow : Numeral.hexValue? low = some l) (sofar : List Mark) (rest : List Char) :
    tokensFrom? (.string sofar) ('\\' :: 'u' :: '0' :: '0' :: high :: low :: rest)
      = tokensFrom? (.string (.unit (16 * h + l) :: sofar)) rest := by
  have hzero (left : Nat) :
      (Lexing.unit sofar (left + 1) 0).next? '0' = some ([], .unit sofar left 0) := rfl
  have hthird : (Lexing.unit sofar 1 0).next? high = some ([], .unit sofar 0 h) := by
    simp [Lexing.next?, hhigh]
  have hlast : (Lexing.unit sofar 0 h).next? low
      = some ([], .string (.unit (16 * h + l) :: sofar)) := by
    rw [Lexing.next?, hlow, Option.map_some]
  have hescape : (Lexing.escape sofar).next? 'u' = some ([], .unit sofar 3 0) := rfl
  rw [tokensFrom?_of_next? rfl, tokensFrom?_of_next? hescape, tokensFrom?_of_next? (hzero 2),
    tokensFrom?_of_next? (hzero 1), tokensFrom?_of_next? hthird, tokensFrom?_of_next? hlast]

/-- **A character is read back from what it is written as.** -/
theorem tokensFrom?_escape (sofar : List Mark) (c : Char) (rest : List Char) :
    tokensFrom? (.string sofar) (escape c ++ rest)
      = tokensFrom? (.string (markOf c :: sofar)) rest := by
  unfold escape
  split
  -- the seven characters with an escape of their own
  iterate 7 exact tokensFrom?_shortEscape rfl sofar rest
  next hquote hbackslash hb hf hn hr ht =>
  split
  · next hlow =>
    have hmark : markOf c = .unit c.toNat := by
      rw [markOf, if_pos]
      simpa [hlow] using ⟨hb, hf, hn, hr, ht⟩
    have hunit := tokensFrom?_unit (Text.hexValue?_hexDigit (c.toNat / 16) (by omega))
      (Text.hexValue?_hexDigit (c.toNat % 16) (by omega)) sofar rest
    rwa [show 16 * (c.toNat / 16) + c.toNat % 16 = c.toNat by omega, ← hmark] at hunit
  · next hother =>
    have hmark : markOf c = .char c := if_neg fun h => hother h.1
    rw [hmark]
    refine tokensFrom?_of_next? ?_ rest
    rw [Lexing.next?, if_neg hquote, if_neg hbackslash, if_neg hother]

theorem chars?_map_markOf (cs : List Char) : chars? (cs.map markOf) = some cs := by
  induction cs with
  | nil => rfl
  | cons c cs ih =>
    rw [List.map_cons, markOf]
    split
    · next h =>
      have hcode : c.toNat < 0x20 := h.1
      -- a unit so small is no half of a pair, so it stands for a character by itself
      have hhigh : isHighHalf c.toNat = false := by simp [isHighHalf]; omega
      have hlow : isLowHalf c.toNat = false := by simp [isLowHalf]; omega
      rw [chars?.eq_def]
      simp [hhigh, hlow, ih, Char.ofNat_toNat]
    · rw [chars?, ih]
      rfl

/-- **The marks stand for the text that was written.** -/
theorem text?_marksOf (s : String) : text? (marksOf s) = some s := by
  rw [text?, marksOf, chars?_map_markOf, Option.map_some, String.ofList_toList]

/-! ## Tokens -/

/-- Nothing follows that could belong to the word in front of it. -/
def Breaks (rest : List Char) : Prop :=
  ∀ c ∈ rest.head?, isWordChar c = false

theorem breaks_nil : Breaks [] :=
  fun _ h => nomatch h

theorem breaks_cons (h : isWordChar c = false) (rest : List Char) : Breaks (c :: rest) := by
  intro d hd
  rw [← Option.some.inj hd]
  exact h

/-- Wherever the text stands between other tokens, it is these tokens. -/
def Lexes (text : List Char) (tokens : List Token) : Prop :=
  ∀ rest, Breaks rest →
    tokensFrom? .between (text ++ rest) = (tokensFrom? .between rest).map (tokens ++ ·)

theorem beginToken?_of_isWordChar (h : isWordChar c = true) :
    beginToken? c = some ([], .word [c]) := by
  have hgap : isGap c = false := by
    refine Bool.eq_false_iff.mpr fun hgap => ?_
    simp only [isGap, Bool.or_eq_true, beq_iff_eq] at hgap
    rcases hgap with ((rfl | rfl) | rfl) | rfl <;> exact absurd h (by decide)
  have hquote : c ≠ '"' := by rintro rfl; exact absurd h (by decide)
  rw [beginToken?, hgap, if_neg hquote, h]
  rfl

/-- A word ends where nothing follows that could belong to it. -/
theorem tokensFrom?_word {sofar rest : List Char} (hrest : Breaks rest)
    (ht : wordToken? sofar.reverse = some t) :
    tokensFrom? (.word sofar) rest = (tokensFrom? .between rest).map ([t] ++ ·) := by
  cases rest with
  | nil =>
    show (wordToken? sofar.reverse).map ([·]) = _
    rw [ht]
    rfl
  | cons c rest =>
    have hc : isWordChar c = false := hrest c rfl
    have hnext : (Lexing.word sofar).next? c
        = (beginToken? c).map fun (ended, state) => (t :: ended, state) := by
      rw [Lexing.next?, hc, ht]
      rfl
    have hbegin : Lexing.between.next? c = beginToken? c := rfl
    rw [tokensFrom?_cons, tokensFrom?_cons, hnext, hbegin]
    cases beginToken? c with
    | none => rfl
    | some next =>
      rw [Option.map_some, Option.bind_some, Option.bind_some, Option.map_map]
      rfl

/-- A word is one token. -/
theorem lexes_word {word : List Char} (hchars : ∀ c ∈ word, isWordChar c = true)
    (hne : word ≠ []) (ht : wordToken? word = some t) : Lexes word [t] := by
  intro rest hrest
  have hword : ∀ cs sofar, (∀ c ∈ cs, isWordChar c = true) →
      tokensFrom? (.word sofar) (cs ++ rest) = tokensFrom? (.word (cs.reverse ++ sofar)) rest := by
    intro cs
    induction cs with
    | nil => exact fun _ _ => rfl
    | cons c cs ih =>
      intro sofar h
      obtain ⟨hc, hcs⟩ := List.forall_mem_cons.mp h
      have hnext : (Lexing.word sofar).next? c = some ([], .word (c :: sofar)) := by
        rw [Lexing.next?, if_pos hc]
      rw [List.cons_append, tokensFrom?_of_next? hnext, ih _ hcs]
      simp
  -- the first character opens the word, and the others go on with it
  obtain ⟨c, cs, rfl⟩ := List.exists_cons_of_ne_nil hne
  obtain ⟨hc, hcs⟩ := List.forall_mem_cons.mp hchars
  have hnext : Lexing.between.next? c = some ([], .word [c]) := beginToken?_of_isWordChar hc
  rw [List.cons_append, tokensFrom?_of_next? hnext, hword cs [c] hcs]
  exact tokensFrom?_word hrest (by simpa using ht)

/-- A punctuation character is a token by itself, whatever follows. -/
theorem Lexes.mark (hc : Lexing.between.next? c = some ([t], .between)) : Lexes [c] [t] :=
  fun rest _ => tokensFrom?_of_ends hc rest

theorem Lexes.cons (hc : Lexing.between.next? c = some ([t], .between)) (h : Lexes text tokens) :
    Lexes (c :: text) (t :: tokens) := by
  intro rest hrest
  rw [List.cons_append, tokensFrom?_of_ends hc, h rest hrest, Option.map_map]
  rfl

/-- Texts one behind the other, where the second does not go on with a word of the first. -/
theorem Lexes.append (h : Lexes text tokens) (h' : Lexes text' tokens')
    (hbreaks : ∀ rest, Breaks (text' ++ rest)) : Lexes (text ++ text') (tokens ++ tokens') := by
  intro rest hrest
  rw [List.append_assoc, h _ (hbreaks rest), h' rest hrest, Option.map_map]
  refine congrArg (Option.map · _) (funext fun _ => ?_)
  exact (List.append_assoc ..).symm

theorem lexes_renderString (s : String) :
    Lexes (renderString s).toList [.string (marksOf s)] := by
  intro rest _
  -- the characters that have been read stand in reverse order
  have hchars : ∀ (cs : List Char) (sofar : List Mark),
      tokensFrom? (.string sofar) (cs.flatMap escape ++ '"' :: rest)
        = (tokensFrom? .between rest).map ([.string (sofar.reverse ++ cs.map markOf)] ++ ·) := by
    intro cs
    induction cs with
    | nil =>
      intro sofar
      rw [List.map_nil, List.append_nil]
      exact tokensFrom?_of_ends rfl rest
    | cons c cs ih =>
      intro sofar
      rw [List.flatMap_cons, List.append_assoc, tokensFrom?_escape, ih, List.reverse_cons,
        List.append_assoc]
      rfl
  have hopen : Lexing.between.next? '"' = some ([], .string []) := rfl
  rw [renderString, String.toList_ofList, List.cons_append, List.append_assoc,
    tokensFrom?_of_next? hopen]
  exact hchars s.toList []

/-! ## Documents -/

/-- The reader waits for a value inside of what is open; that an array ends instead is not excluded. -/
def Awaits (state : Reading) (frames : List Frame) : Prop :=
  ∀ t, t ≠ .closeBracket → state.next? t = Reading.begin? frames t

theorem awaits_value (frames : List Frame) : Awaits (.value frames) frames :=
  fun _ _ => rfl

theorem awaits_firstItem (frames : List Frame) : Awaits (.firstItem frames) (.array [] :: frames) := by
  intro t ht
  cases t with
  | closeBracket => exact absurd rfl ht
  | _ => rfl

theorem foldlM_next?_cons {state state' : Reading} (h : state.next? t = some state')
    (tokens : List Token) :
    (t :: tokens).foldlM Reading.next? state = tokens.foldlM Reading.next? state' := by
  rw [List.foldlM_cons, h]
  rfl

/-- Wherever a value is awaited, the tokens are this document. -/
def Parses (tokens : List Token) (doc : Document) : Prop :=
  ∀ state frames, Awaits state frames → tokens.foldlM Reading.next? state = some (.after doc frames)

/-- Wherever the text stands as a value, it is this document. -/
def Spells (text : List Char) (doc : Document) : Prop :=
  ∃ tokens, Lexes text tokens ∧ Parses tokens doc

theorem parses_singleton {doc : Document} (ht : t ≠ .closeBracket)
    (hbegin : ∀ frames, Reading.begin? frames t = some (.after doc frames)) : Parses [t] doc := by
  intro state frames hawaits
  rw [foldlM_next?_cons ((hawaits t ht).trans (hbegin frames))]
  rfl

theorem spells_word {word : List Char} {doc : Document} (hchars : ∀ c ∈ word, isWordChar c = true)
    (hne : word ≠ []) (hword : wordToken? word = some t) (ht : t ≠ .closeBracket)
    (hbegin : ∀ frames, Reading.begin? frames t = some (.after doc frames)) : Spells word doc :=
  ⟨[t], lexes_word hchars hne hword, parses_singleton ht hbegin⟩

theorem spells_null : Spells "null".toList .null :=
  spells_word (List.all_eq_true.mp (by decide)) (by decide) rfl nofun fun _ => rfl

theorem spells_bool : (b : Bool) → Spells (Json.bool b).render.toList (.bool b)
  | true => spells_word (List.all_eq_true.mp (by decide)) (by decide) rfl nofun fun _ => rfl
  | false => spells_word (List.all_eq_true.mp (by decide)) (by decide) rfl nofun fun _ => rfl

theorem spells_renderString (s : String) : Spells (renderString s).toList (.string (marksOf s)) :=
  ⟨_, lexes_renderString s, parses_singleton (nomatch ·) fun _ => rfl⟩

/-- The text is a list of items with commas between them, wherever one is awaited. -/
def SpellsItems (text : List Char) (docs : List Document) : Prop :=
  ∃ tokens, Lexes text tokens ∧ ∀ state sofar frames, Awaits state (.array sofar :: frames) →
    (tokens ++ [Token.closeBracket]).foldlM Reading.next? state
      = some (.after (.array (sofar.reverse ++ docs)) frames)

variable {doc : Document} {docs : List Document}

theorem Spells.singleton (h : Spells text doc) : SpellsItems text [doc] := by
  obtain ⟨tokens, hlexes, hparses⟩ := h
  refine ⟨tokens, hlexes, fun state sofar frames hawaits => ?_⟩
  rw [List.foldlM_append, hparses state _ hawaits]
  exact congrArg (fun items => some (Reading.after (.array items) frames)) List.reverse_cons

theorem Spells.cons (h : Spells text doc) (hrest : SpellsItems text' docs) :
    SpellsItems (text ++ ',' :: text') (doc :: docs) := by
  obtain ⟨tokens, hlexes, hparses⟩ := h
  obtain ⟨tokens', hlexes', hparses'⟩ := hrest
  refine ⟨tokens ++ .comma :: tokens',
    hlexes.append (hlexes'.cons rfl) fun rest => breaks_cons rfl _, fun state sofar frames hawaits => ?_⟩
  have hrest := hparses' _ _ _ (awaits_value (.array (doc :: sofar) :: frames))
  rw [List.reverse_cons, List.append_assoc] at hrest
  rw [List.append_assoc, List.foldlM_append, hparses state _ hawaits]
  exact hrest

theorem spells_array (h : SpellsItems text docs) : Spells ('[' :: (text ++ [']'])) (.array docs) := by
  obtain ⟨tokens, hlexes, hparses⟩ := h
  refine ⟨.openBracket :: (tokens ++ [.closeBracket]),
    (hlexes.append (.mark rfl) fun rest => breaks_cons rfl _).cons rfl, fun state frames hawaits => ?_⟩
  rw [foldlM_next?_cons (hawaits .openBracket nofun)]
  exact hparses _ _ _ (awaits_firstItem frames)

theorem spells_emptyArray : Spells ['[', ']'] (.array []) := by
  refine ⟨[.openBracket, .closeBracket], (Lexes.mark rfl).cons rfl, fun state frames hawaits => ?_⟩
  rw [foldlM_next?_cons (hawaits .openBracket nofun)]
  rfl

/-- The reader waits for the name of a member, behind those that it has read of the object. -/
def AwaitsName (state : Reading) (sofar : List (List Mark × Document)) (frames : List Frame) : Prop :=
  ∀ name, state.next? (.string name) = some (.colon sofar name frames)

/-- The text is a list of members with commas between them, wherever a name is awaited. -/
def SpellsMembers (text : List Char) (members : List (List Mark × Document)) : Prop :=
  ∃ tokens, Lexes text tokens ∧ ∀ state sofar frames, AwaitsName state sofar frames →
    (tokens ++ [Token.closeBrace]).foldlM Reading.next? state
      = some (.after (.object (sofar.reverse ++ members)) frames)

variable {members : List (List Mark × Document)}

/-- What is read of a member, from its name to the end of its value. -/
theorem Spells.exists_member (s : String) (h : Spells text doc) :
    ∃ tokens, Lexes ((renderString s).toList ++ ':' :: text) tokens ∧
      ∀ state sofar frames, AwaitsName state sofar frames →
        tokens.foldlM Reading.next? state
          = some (.after doc (.object sofar (marksOf s) :: frames)) := by
  obtain ⟨tokens, hlexes, hparses⟩ := h
  refine ⟨.string (marksOf s) :: .colon :: tokens,
    (lexes_renderString s).append (hlexes.cons rfl) fun rest => breaks_cons rfl _,
    fun state sofar frames hname => ?_⟩
  rw [foldlM_next?_cons (hname (marksOf s)), foldlM_next?_cons rfl]
  exact hparses _ _ (awaits_value (.object sofar (marksOf s) :: frames))

theorem Spells.singletonMember (s : String) (h : Spells text doc) :
    SpellsMembers ((renderString s).toList ++ ':' :: text) [(marksOf s, doc)] := by
  obtain ⟨tokens, hlexes, hparses⟩ := h.exists_member s
  refine ⟨tokens, hlexes, fun state sofar frames hname => ?_⟩
  rw [List.foldlM_append, hparses state sofar frames hname]
  exact congrArg (fun members => some (Reading.after (.object members) frames)) List.reverse_cons

theorem Spells.consMember (s : String) (h : Spells text doc) (hrest : SpellsMembers text' members) :
    SpellsMembers ((renderString s).toList ++ ':' :: text ++ ',' :: text')
      ((marksOf s, doc) :: members) := by
  obtain ⟨tokens, hlexes, hparses⟩ := h.exists_member s
  obtain ⟨tokens', hlexes', hparses'⟩ := hrest
  refine ⟨tokens ++ .comma :: tokens',
    hlexes.append (hlexes'.cons rfl) fun rest => breaks_cons rfl _, fun state sofar frames hname => ?_⟩
  have hrest := hparses' (.name ((marksOf s, doc) :: sofar) frames) _ frames fun _ => rfl
  rw [List.reverse_cons, List.append_assoc] at hrest
  rw [List.append_assoc, List.foldlM_append, hparses state sofar frames hname]
  exact hrest

theorem spells_object (h : SpellsMembers text members) :
    Spells ('{' :: (text ++ ['}'])) (.object members) := by
  obtain ⟨tokens, hlexes, hparses⟩ := h
  refine ⟨.openBrace :: (tokens ++ [.closeBrace]),
    (hlexes.append (.mark rfl) fun rest => breaks_cons rfl _).cons rfl, fun state frames hawaits => ?_⟩
  rw [foldlM_next?_cons (hawaits .openBrace nofun)]
  exact hparses (.firstMember frames) [] frames fun _ => rfl

theorem spells_emptyObject : Spells ['{', '}'] (.object []) := by
  refine ⟨[.openBrace, .closeBrace], (Lexes.mark rfl).cons rfl, fun state frames hawaits => ?_⟩
  rw [foldlM_next?_cons (hawaits .openBrace nofun)]
  rfl

/-! ## Values -/

mutual

/-- There are no numbers in the value. -/
def Numberless : Json → Prop
  | .number _ => False
  | .array items => NumberlessItems items
  | .object members => NumberlessMembers members
  | _ => True

def NumberlessItems : List Json → Prop
  | [] => True
  | item :: rest => Numberless item ∧ NumberlessItems rest

def NumberlessMembers : List (String × Json) → Prop
  | [] => True
  | (_, value) :: rest => Numberless value ∧ NumberlessMembers rest

end

theorem numberlessItems_of_forall {items : List Json} (h : ∀ j ∈ items, j.Numberless) :
    NumberlessItems items := by
  induction items with
  | nil => trivial
  | cons j items ih =>
    obtain ⟨hj, hitems⟩ := List.forall_mem_cons.mp h
    exact ⟨hj, ih hitems⟩

theorem numberless_strings (texts : List String) : (strings texts).Numberless :=
  numberlessItems_of_forall (List.forall_mem_map.mpr fun _ _ => trivial)

theorem numberless_stringOrNull (s? : Option String) : (stringOrNull s?).Numberless := by
  cases s? <;> trivial

mutual

/-- **A value is read back from what it is written as.** -/
theorem exists_spells : (j : Json) → j.Numberless →
    ∃ doc, doc.value? = some j ∧ Spells j.render.toList doc
  | .null, _ => ⟨.null, rfl, spells_null⟩
  | .bool b, _ => ⟨.bool b, rfl, spells_bool b⟩
  | .number _, h => False.elim h
  | .string s, _ =>
      ⟨.string (marksOf s), by rw [Document.value?, text?_marksOf]; rfl, spells_renderString s⟩
  | .array [], _ => ⟨.array [], rfl, spells_emptyArray⟩
  | .array (item :: rest), h => by
      obtain ⟨docs, hdocs, hspells⟩ := exists_spellsItems (item :: rest) h (List.cons_ne_nil _ _)
      refine ⟨.array docs, by rw [Document.value?, hdocs]; rfl, ?_⟩
      rw [render, String.toList_append, String.toList_append]
      exact spells_array hspells
  | .object [], _ => ⟨.object [], rfl, spells_emptyObject⟩
  | .object (member :: rest), h => by
      obtain ⟨members, hmembers, hspells⟩ :=
        exists_spellsMembers (member :: rest) h (List.cons_ne_nil _ _)
      refine ⟨.object members, by rw [Document.value?, hmembers]; rfl, ?_⟩
      rw [render, String.toList_append, String.toList_append]
      exact spells_object hspells

theorem exists_spellsItems : (items : List Json) → NumberlessItems items → items ≠ [] →
    ∃ docs, Document.values? docs = some items ∧ SpellsItems (renderItems items).toList docs
  | [], _, hne => absurd rfl hne
  | [item], h, _ => by
      obtain ⟨doc, hdoc, hspells⟩ := exists_spells item h.1
      exact ⟨[doc], by rw [Document.values?, hdoc]; rfl, hspells.singleton⟩
  | item :: next :: rest, h, _ => by
      obtain ⟨doc, hdoc, hspells⟩ := exists_spells item h.1
      obtain ⟨docs, hdocs, hrest⟩ := exists_spellsItems (next :: rest) h.2 (List.cons_ne_nil _ _)
      refine ⟨doc :: docs, by rw [Document.values?, hdoc, hdocs]; rfl, ?_⟩
      have htext : renderItems (item :: next :: rest)
          = item.render ++ "," ++ renderItems (next :: rest) := rfl
      rw [htext, String.toList_append, String.toList_append, List.append_assoc]
      exact hspells.cons hrest

theorem exists_spellsMembers : (members : List (String × Json)) → NumberlessMembers members →
    members ≠ [] →
    ∃ docs, Document.members? docs = some members ∧ SpellsMembers (renderMembers members).toList docs
  | [], _, hne => absurd rfl hne
  | [(name, value)], h, _ => by
      obtain ⟨doc, hdoc, hspells⟩ := exists_spells value h.1
      refine ⟨[(marksOf name, doc)], by rw [Document.members?, hdoc, text?_marksOf]; rfl, ?_⟩
      rw [renderMembers, String.toList_append, String.toList_append, List.append_assoc]
      exact hspells.singletonMember name
  | (name, value) :: next :: rest, h, _ => by
      obtain ⟨doc, hdoc, hspells⟩ := exists_spells value h.1
      obtain ⟨docs, hdocs, hrest⟩ := exists_spellsMembers (next :: rest) h.2 (List.cons_ne_nil _ _)
      refine ⟨(marksOf name, doc) :: docs,
        by rw [Document.members?, hdoc, hdocs, text?_marksOf]; rfl, ?_⟩
      have htext : renderMembers ((name, value) :: next :: rest)
          = renderString name ++ ":" ++ value.render ++ "," ++ renderMembers (next :: rest) := rfl
      have hspelled := hspells.consMember name hrest
      simp only [htext, String.toList_append, List.append_assoc] at hspelled ⊢
      exact hspelled

end

/-- The text is JSON for the value. -/
def IsText (text : String) (j : Json) : Prop :=
  ∃ doc, Document.read? text = some doc ∧ doc.value? = some j

theorem read?_of_spells {s : String} (h : Spells s.toList doc) : Document.read? s = some doc := by
  obtain ⟨tokens, hlexes, hparses⟩ := h
  have htokens : tokens? s = some tokens := by
    have hlex := hlexes [] breaks_nil
    rw [List.append_nil] at hlex
    rw [tokens?, hlex]
    simp [tokensFrom?]
  rw [Document.read?, htokens]
  have hparse := hparses _ _ (awaits_value [])
  simp [hparse]

/-- **A value without numbers is written as JSON for itself.** -/
theorem isText_render {j : Json} (h : j.Numberless) : IsText j.render j := by
  obtain ⟨doc, hvalue, hspells⟩ := exists_spells j h
  exact ⟨doc, read?_of_spells hspells, hvalue⟩

end Rql.Json
