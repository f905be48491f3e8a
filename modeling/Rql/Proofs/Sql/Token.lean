import Rql.Backend

/-!
# Tokens of SQL

A database does not see the characters of a query but its tokens. `lex` reads them: an identifier in
quotes is one token, whatever stands between the quotes, and a quote written twice is part of it. Only
outside of identifiers is a question mark a placeholder, a parenthesis a parenthesis and `AND` a keyword.

`bind` puts values in the places of the placeholders, from left to right, if there are as many of both.

`Spells d s ts` says that the text `s` reads as the tokens `ts` wherever it stands, given that what
follows does not run on from its last word. Longer texts are put together from shorter ones by
`Spells.append`.
-/

namespace Rql.Sql

/-- A token. A placeholder holds nothing in the text itself and its value once it is bound. -/
inductive Token (α : Type) where
  /-- An identifier, without its quotes. -/
  | name (ident : String)
  /-- A keyword, a number or a sign. -/
  | text (s : String)
  | mark (value : α)
deriving DecidableEq, Repr

namespace Token

variable {α : Type}

/-- The token as it stands in the text. -/
def erase : Token α → Token Unit
  | .name ident => .name ident
  | .text s => .text s
  | .mark _ => .mark ()

/-- The value of a placeholder. -/
def value? : Token α → Option α
  | .mark value => some value
  | .name _ | .text _ => none

/-- The token is a placeholder. -/
def isMark (t : Token α) : Bool :=
  t.value?.isSome

/-- The tokens with values in the places of the placeholders, if there are as many of both. -/
def bind : List (Token Unit) → List α → Option (List (Token α))
  | [], [] => some []
  | [], _ :: _ => none
  | .mark _ :: ts, value :: values => (bind ts values).map (.mark value :: ·)
  | .mark _ :: _, [] => none
  | .name ident :: ts, values => (bind ts values).map (.name ident :: ·)
  | .text s :: ts, values => (bind ts values).map (.text s :: ·)

/-- Binding the values of tokens in their own text gives the tokens back. -/
theorem bind_erase (ts : List (Token α)) :
    bind (ts.map erase) (ts.filterMap value?) = some ts := by
  induction ts with
  | nil => rfl
  | cons t ts ih =>
    cases t with
    | name ident => simp only [List.map_cons, erase, List.filterMap_cons, value?, bind, ih]; rfl
    | text s => simp only [List.map_cons, erase, List.filterMap_cons, value?, bind, ih]; rfl
    | mark value => simp only [List.map_cons, erase, List.filterMap_cons, value?, bind, ih]; rfl

theorem values_of_bind {us : List (Token Unit)} {values : List α} {ts : List (Token α)}
    (h : bind us values = some ts) : ts.filterMap value? = values := by
  induction us generalizing values ts with
  | nil =>
    cases values with
    | nil => rw [← Option.some.inj h]; rfl
    | cons value rest => exact absurd h (by simp [bind])
  | cons u us ih =>
    cases u with
    | name ident =>
      obtain ⟨ts', hts, rfl⟩ := Option.map_eq_some_iff.mp h
      rw [List.filterMap_cons]
      exact ih hts
    | text s =>
      obtain ⟨ts', hts, rfl⟩ := Option.map_eq_some_iff.mp h
      rw [List.filterMap_cons]
      exact ih hts
    | mark =>
      cases values with
      | nil => exact absurd h (by simp [bind])
      | cons value rest =>
        obtain ⟨ts', hts, rfl⟩ := Option.map_eq_some_iff.mp h
        rw [List.filterMap_cons]
        exact congrArg (value :: ·) (ih hts)

theorem countP_isMark_erase (ts : List (Token α)) :
    (ts.map erase).countP isMark = (ts.filterMap value?).length := by
  induction ts with
  | nil => rfl
  | cons t ts ih =>
    rw [List.map_cons, List.filterMap_cons, List.countP_cons, ih]
    cases t <;> rfl

end Token

/-! ## Reading tokens -/

/-- What a reader of SQL is in the middle of. -/
inductive Reading where
  | between
  | word (read : List Char)
  | sign (read : List Char)
  | quoted (read : List Char)
  /-- Behind a quote inside an identifier: its end, or the first of two. -/
  | quoteSeen (read : List Char)

/-- Part of a keyword or a number. -/
def isWordChar (c : Char) : Bool :=
  c.isAlphanum || c == '_'

/-- Part of the sign of a relation. -/
def isSignChar (c : Char) : Bool :=
  c == '<' || c == '=' || c == '>'

namespace Reading

/-- The token that ends here. An identifier without its closing quote is none. -/
def finish (quote : Char) : Reading → List (Token Unit)
  | .between => []
  | .word read | .sign read => [.text (.ofList read)]
  | .quoted read => [.text (.ofList (quote :: read))]
  | .quoteSeen read => [.name (.ofList read)]

/-- A character that goes on with no token. -/
def start (quote c : Char) : List (Token Unit) × Reading :=
  if c = quote then ([], .quoted [])
  else if isWordChar c then ([], .word [c])
  else if isSignChar c then ([], .sign [c])
  else if c = ' ' then ([], .between)
  else if c = '?' then ([.mark ()], .between)
  else ([.text (.singleton c)], .between)

/-- One more character: the token that it ends, if it ends one, and what is read now. -/
def step (quote : Char) (r : Reading) (c : Char) : List (Token Unit) × Reading :=
  let next := (r.finish quote ++ (start quote c).1, (start quote c).2)
  match r with
  | .between => next
  | .word read => if isWordChar c then ([], .word (read ++ [c])) else next
  | .sign read => if isSignChar c then ([], .sign (read ++ [c])) else next
  | .quoted read => if c = quote then ([], .quoteSeen read) else ([], .quoted (read ++ [c]))
  | .quoteSeen read => if c = quote then ([], .quoted (read ++ [c])) else next

end Reading

/-- The tokens of a text in the middle of which the reader is. -/
def lexFrom (quote : Char) : Reading → List Char → List (Token Unit)
  | r, [] => r.finish quote
  | r, c :: cs => (r.step quote c).1 ++ lexFrom quote (r.step quote c).2 cs

/-- The tokens of a text. -/
def lex (d : Dialect) (s : String) : List (Token Unit) :=
  lexFrom d.quote .between s.toList

/-! ## Texts that spell tokens -/

/-- A character that ends every word and every identifier. -/
def isStop (c : Char) : Bool :=
  c == ' ' || c == '.' || c == ',' || c == '(' || c == ')'

/-- The text ends here, or a character follows that ends every word and every identifier. -/
def Stops (cs : List Char) : Prop :=
  ∀ c ∈ cs.head?, isStop c = true

theorem stops_nil : Stops [] :=
  fun _ h => absurd h (by simp)

theorem eq_of_isStop {c : Char} (h : isStop c = true) :
    c = ' ' ∨ c = '.' ∨ c = ',' ∨ c = '(' ∨ c = ')' := by
  simpa [isStop, or_assoc] using h

/-- A stop ends what is being read, except an identifier that still wants its closing quote. -/
theorem step_of_isStop (d : Dialect) {r : Reading} (hr : ∀ read, r ≠ .quoted read) {c : Char}
    (h : isStop c = true) :
    r.step d.quote c = (r.finish d.quote ++ (Reading.between.step d.quote c).1,
      (Reading.between.step d.quote c).2) := by
  -- a stop is not the quote of any dialect, and no part of a word or a sign
  have hq : c ≠ d.quote := by
    rcases eq_of_isStop h with rfl | rfl | rfl | rfl | rfl <;> cases d <;> decide
  have hw : isWordChar c = false := by
    rcases eq_of_isStop h with rfl | rfl | rfl | rfl | rfl <;> decide
  have hs : isSignChar c = false := by
    rcases eq_of_isStop h with rfl | rfl | rfl | rfl | rfl <;> decide
  cases r with
  | between => rfl
  | word read => simp [Reading.step, hw, Reading.finish]
  | sign read => simp [Reading.step, hs, Reading.finish]
  | quoted read => exact absurd rfl (hr read)
  | quoteSeen read => simp [Reading.step, hq, Reading.finish]

theorem lexFrom_of_stops (d : Dialect) {r : Reading} (hr : ∀ read, r ≠ .quoted read)
    {rest : List Char} (h : Stops rest) :
    lexFrom d.quote r rest = r.finish d.quote ++ lexFrom d.quote .between rest := by
  cases rest with
  | nil => simp [lexFrom, Reading.finish]
  | cons c cs =>
    have hc : isStop c = true := h c rfl
    rw [lexFrom, step_of_isStop d hr hc, lexFrom, List.append_assoc]

/-- Wherever the text stands, it reads as these tokens, if a stop follows. -/
def Spells (d : Dialect) (s : String) (ts : List (Token Unit)) : Prop :=
  ∀ rest, Stops rest →
    lexFrom d.quote .between (s.toList ++ rest) = ts ++ lexFrom d.quote .between rest

/-- Wherever the text stands and whatever follows, it reads as these tokens. -/
def SpellsWhole (d : Dialect) (s : String) (ts : List (Token Unit)) : Prop :=
  ∀ rest, lexFrom d.quote .between (s.toList ++ rest) = ts ++ lexFrom d.quote .between rest

/-- The text reads as these tokens, and it may follow any other: it starts with a stop, or it is
empty. -/
structure Continues (d : Dialect) (s : String) (ts : List (Token Unit)) : Prop where
  spells : Spells d s ts
  stops : ∀ rest, Stops rest → Stops (s.toList ++ rest)

section

variable {d : Dialect} {s s' : String} {ts ts' : List (Token Unit)}

theorem Spells.lex (h : Spells d s ts) : lex d s = ts := by
  have := h [] stops_nil
  rw [List.append_nil] at this
  rw [Sql.lex, this]
  exact List.append_nil ts

theorem stops_of_head (hs : s.toList.head?.any isStop = true) (rest : List Char) :
    Stops (s.toList ++ rest) := by
  intro c hc
  cases h : s.toList with
  | nil => rw [h] at hs; exact absurd hs (by simp)
  | cons c' cs =>
    rw [h] at hs hc
    rw [← Option.some.inj hc]
    exact hs

theorem Spells.continues (h : Spells d s ts) (hs : s.toList.head?.any isStop = true) :
    Continues d s ts :=
  ⟨h, fun rest _ => stops_of_head hs rest⟩

theorem continues_empty : Continues d "" [] :=
  ⟨fun _ _ => rfl, fun _ h => h⟩

theorem Spells.append (h : Spells d s ts) (h' : Continues d s' ts') :
    Spells d (s ++ s') (ts ++ ts') := by
  intro rest hrest
  rw [String.toList_append, List.append_assoc, h _ (h'.stops rest hrest), h'.spells rest hrest,
    List.append_assoc]

theorem SpellsWhole.append (h : SpellsWhole d s ts) (h' : Spells d s' ts') :
    Spells d (s ++ s') (ts ++ ts') := by
  intro rest hrest
  rw [String.toList_append, List.append_assoc, h, h' rest hrest, List.append_assoc]

theorem SpellsWhole.continues (h : SpellsWhole d s ts) (hs : s.toList.head?.any isStop = true)
    (h' : Spells d s' ts') : Continues d (s ++ s') (ts ++ ts') := by
  refine ⟨h.append h', fun rest _ => ?_⟩
  rw [String.toList_append, List.append_assoc]
  exact stops_of_head hs _

theorem Spells.append_whole (h : Spells d s ts) (h' : SpellsWhole d s' ts')
    (hs' : s'.toList.head?.any isStop = true) : SpellsWhole d (s ++ s') (ts ++ ts') := by
  intro rest
  rw [String.toList_append, List.append_assoc, h _ (stops_of_head hs' rest), h' rest,
    List.append_assoc]

/-- A text behind which the reader is in the middle of `r`. -/
theorem spells_of_lexFrom {r : Reading} (hr : ∀ read, r ≠ .quoted read)
    (h : ∀ rest, lexFrom d.quote .between (s.toList ++ rest) = ts ++ lexFrom d.quote r rest) :
    Spells d s (ts ++ r.finish d.quote) := by
  intro rest hrest
  rw [h, lexFrom_of_stops d hr hrest, List.append_assoc]

end

/-! ## Identifiers and numbers -/

theorem lexFrom_quoted (quote : Char) (read : List Char) :
    ∀ (ident rest : List Char),
      lexFrom quote (.quoted read)
          (ident.flatMap (fun c => if c = quote then [c, c] else [c]) ++ quote :: rest)
        = lexFrom quote (.quoteSeen (read ++ ident)) rest := by
  intro ident
  induction ident generalizing read with
  | nil =>
    intro rest
    rw [List.flatMap_nil, List.nil_append, List.append_nil, lexFrom]
    simp [Reading.step]
  | cons c ident ih =>
    intro rest
    rw [List.flatMap_cons]
    by_cases hc : c = quote
    · -- a quote of the identifier, written twice
      rw [if_pos hc, hc, List.append_assoc]
      show lexFrom quote (.quoted read) (quote :: quote :: (_ ++ _)) = _
      rw [lexFrom, lexFrom]
      simp only [Reading.step, if_true, List.nil_append]
      rw [ih (read ++ [quote]) rest, List.append_assoc, List.singleton_append]
    · rw [if_neg hc, List.append_assoc]
      show lexFrom quote (.quoted read) (c :: (_ ++ _)) = _
      rw [lexFrom]
      simp only [Reading.step, if_neg hc, List.nil_append]
      rw [ih (read ++ [c]) rest, List.append_assoc, List.singleton_append]

/-- Behind an identifier in quotes, only another quote could still change it. -/
theorem lexFrom_quoteName (d : Dialect) (ident : String) (rest : List Char) :
    lexFrom d.quote .between ((d.quoteName ident).toList ++ rest)
      = lexFrom d.quote (.quoteSeen ident.toList) rest := by
  rw [Dialect.quoteName, String.toList_ofList, List.cons_append, lexFrom, List.append_assoc]
  simp only [Reading.step, Reading.start, Reading.finish, if_true, List.nil_append]
  exact lexFrom_quoted d.quote [] ident.toList rest

/-- **An identifier in quotes is one token**, whatever its characters are. -/
theorem spells_quoteName (d : Dialect) (ident : String) :
    Spells d (d.quoteName ident) [.name ident] := by
  have hs : Spells d (d.quoteName ident) ([] ++ (Reading.quoteSeen ident.toList).finish d.quote) :=
    spells_of_lexFrom (fun _ => Reading.noConfusion) (lexFrom_quoteName d ident)
  rwa [Reading.finish, String.ofList_toList] at hs

/-- Quotes inside an identifier do not end it, and keywords inside it are none. -/
example : lex .ansi "\"a\"\" OR ?\" = ?" = [.name "a\" OR ?", .text "=", .mark ()] := by decide

theorem spells_qualify (d : Dialect) (table column : String) :
    Spells d (d.qualify table column) [.name table, .text ".", .name column] := by
  have hdot : SpellsWhole d "." [.text "."] := by
    intro rest
    cases d <;> rfl
  have h := (spells_quoteName d table).append_whole hdot (by decide)
  exact h.append (spells_quoteName d column)

theorem lexFrom_word (quote : Char) (read : List Char) :
    ∀ (cs rest : List Char), (∀ c ∈ cs, isWordChar c = true) →
      lexFrom quote (.word read) (cs ++ rest) = lexFrom quote (.word (read ++ cs)) rest := by
  intro cs
  induction cs generalizing read with
  | nil => intro rest _; rw [List.nil_append, List.append_nil]
  | cons c cs ih =>
    intro rest h
    rw [List.cons_append, lexFrom]
    simp only [Reading.step, h c List.mem_cons_self, if_true, List.nil_append]
    rw [ih (read ++ [c]) rest fun c' hc' => h c' (List.mem_cons_of_mem c hc'), List.append_assoc,
      List.singleton_append]

/-- Letters and digits that follow one another are one token. -/
theorem spells_word (d : Dialect) {s : String} (hne : s.toList ≠ [])
    (hall : s.toList.all isWordChar = true) : Spells d s [.text s] := by
  have h : ∀ c ∈ s.toList, isWordChar c = true := List.all_eq_true.mp hall
  obtain ⟨c, cs, hcs⟩ := List.exists_cons_of_ne_nil hne
  have hc : isWordChar c = true := h c (by rw [hcs]; exact List.mem_cons_self)
  have hq : c ≠ d.quote := by
    rintro rfl
    cases d <;> exact absurd hc (by decide)
  have hlex : ∀ rest, lexFrom d.quote .between (s.toList ++ rest)
      = [] ++ lexFrom d.quote (.word s.toList) rest := by
    intro rest
    rw [hcs] at h ⊢
    rw [List.cons_append, lexFrom]
    simp only [Reading.step, Reading.start, Reading.finish, if_neg hq, hc, if_true,
      List.nil_append]
    exact lexFrom_word d.quote [c] cs rest fun c' hc' => h c' (List.mem_cons_of_mem c hc')
  have hs := spells_of_lexFrom (fun _ => Reading.noConfusion) hlex
  rwa [Reading.finish, String.ofList_toList] at hs

theorem spells_number (d : Dialect) (n : Nat) : Spells d (toString n) [.text (toString n)] := by
  have htoList : (toString n).toList = Nat.toDigits 10 n := by simp
  refine spells_word d ?_ ?_
  · rw [htoList]
    exact Nat.toDigits_ne_nil
  · rw [htoList, List.all_eq_true]
    intro c hc
    have hd : c.isDigit = true := Nat.isDigit_of_mem_toDigits (by decide) (by decide) hc
    simp [isWordChar, Char.isAlphanum, hd]

end Rql.Sql
