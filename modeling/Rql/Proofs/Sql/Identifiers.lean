import Rql.Proofs.Sql.Token

/-!
# Quoted identifiers

An identifier in quotes says itself where it ends. Behind the opening quote all characters belong to it, up
to a quote that no other quote follows; a quote that another one follows stands for one of its own.

`readName?` reads identifiers by this rule alone, from the front of a text. It undoes the writing and
reads nothing else (`readName?_eq_some_iff`): no identifier ends early, whatever its characters are, and
none takes in what follows, unless a quote follows at once. A column with its table is two identifiers and
a dot, so all of this holds of it too, and two different columns are never written alike.
-/

namespace Rql

namespace Dialect

/-! ## Reading -/

/-- The characters of an identifier, with every quote twice. -/
def doubled (quote : Char) (ident : List Char) : List Char :=
  ident.flatMap fun c => if c = quote then [c, c] else [c]

/-- What is left of an identifier behind its opening quote or behind more of it, and what follows its
closing quote. -/
def readRest? (quote : Char) : List Char → Option (List Char × List Char)
  | [] => none
  | c :: cs =>
    if c = quote then
      match cs with
      | [] => some ([], [])
      | c' :: rest =>
        if c' = quote then (readRest? quote rest).map fun read => (quote :: read.1, read.2)
        else some ([], c' :: rest)
    else (readRest? quote cs).map fun read => (c :: read.1, read.2)

/-- The identifier in quotes that a text begins with, and what follows it. -/
def readName? (d : Dialect) : List Char → Option (String × List Char)
  | [] => none
  | c :: cs =>
    if c = d.quote then (readRest? d.quote cs).map fun read => (.ofList read.1, read.2) else none

/-- The table and the column that a text begins with, and what follows them. -/
def readQualified? (d : Dialect) (cs : List Char) : Option (String × String × List Char) :=
  match d.readName? cs with
  | some (table, '.' :: behind) => (d.readName? behind).map fun read => (table, read.1, read.2)
  | _ => none

section

variable {quote c : Char} {ident cs rest : List Char}

theorem doubled_quote (quote : Char) (ident : List Char) :
    doubled quote (quote :: ident) = quote :: quote :: doubled quote ident := by
  rw [doubled, List.flatMap_cons, if_pos rfl]
  rfl

theorem doubled_of_ne (h : c ≠ quote) (ident : List Char) :
    doubled quote (c :: ident) = c :: doubled quote ident := by
  rw [doubled, List.flatMap_cons, if_neg h]
  rfl

theorem readRest?_of_ne (h : c ≠ quote) (cs : List Char) :
    readRest? quote (c :: cs) = (readRest? quote cs).map fun read => (c :: read.1, read.2) := by
  cases cs <;> simp [readRest?, h]

theorem readRest?_twice (quote : Char) (cs : List Char) :
    readRest? quote (quote :: quote :: cs)
      = (readRest? quote cs).map fun read => (quote :: read.1, read.2) := by
  simp [readRest?]

theorem readRest?_once (h : rest.head? ≠ some quote) :
    readRest? quote (quote :: rest) = some ([], rest) := by
  cases rest with
  | nil => simp [readRest?]
  | cons c cs =>
    have hc : c ≠ quote := fun hc => h (congrArg some hc)
    simp [readRest?, hc]

/-- What is written is read back. -/
theorem readRest?_doubled (h : rest.head? ≠ some quote) (ident : List Char) :
    readRest? quote (doubled quote ident ++ quote :: rest) = some (ident, rest) := by
  induction ident with
  | nil => exact readRest?_once h
  | cons c ident ih =>
    by_cases hc : c = quote
    · rw [hc, doubled_quote, List.cons_append, List.cons_append, readRest?_twice, ih]
      rfl
    · rw [doubled_of_ne hc, List.cons_append, readRest?_of_ne hc, ih]
      rfl

/-- What is read was written. -/
theorem eq_of_readRest? (h : readRest? quote cs = some (ident, rest)) :
    cs = doubled quote ident ++ quote :: rest ∧ rest.head? ≠ some quote := by
  fun_induction readRest? quote cs generalizing ident with
  | case1 => exact absurd h (by simp)
  | case2 =>
    -- a quote at the end of the text
    obtain ⟨rfl, rfl⟩ := Prod.mk.inj (Option.some.inj h)
    exact ⟨rfl, nofun⟩
  | case3 behind ih =>
    -- a quote that another one follows
    obtain ⟨read, hread, heq⟩ := Option.map_eq_some_iff.mp h
    obtain ⟨rfl, rfl⟩ := Prod.mk.inj heq
    obtain ⟨rfl, hrest⟩ := ih hread
    exact ⟨by rw [doubled_quote]; rfl, hrest⟩
  | case4 c' behind hc' =>
    -- a quote that something else follows
    obtain ⟨rfl, rfl⟩ := Prod.mk.inj (Option.some.inj h)
    exact ⟨rfl, fun hhead => hc' (Option.some.inj hhead)⟩
  | case5 c cs hc ih =>
    obtain ⟨read, hread, heq⟩ := Option.map_eq_some_iff.mp h
    obtain ⟨rfl, rfl⟩ := Prod.mk.inj heq
    obtain ⟨rfl, hrest⟩ := ih hread
    exact ⟨by rw [doubled_of_ne hc]; rfl, hrest⟩

theorem readRest?_eq_some_iff :
    readRest? quote cs = some (ident, rest)
      ↔ cs = doubled quote ident ++ quote :: rest ∧ rest.head? ≠ some quote := by
  constructor
  · exact eq_of_readRest?
  · rintro ⟨rfl, hrest⟩
    exact readRest?_doubled hrest ident

end

section

variable {d : Dialect} {table column ident : String} {cs rest : List Char}

theorem toList_quoteName (d : Dialect) (ident : String) :
    (d.quoteName ident).toList = d.quote :: (doubled d.quote ident.toList ++ [d.quote]) := by
  rw [quoteName, String.toList_ofList]
  rfl

/-- **An identifier is read exactly where it was written** and no other quote follows it. -/
theorem readName?_eq_some_iff :
    d.readName? cs = some (ident, rest)
      ↔ cs = (d.quoteName ident).toList ++ rest ∧ rest.head? ≠ some d.quote := by
  have hwritten : (d.quoteName ident).toList ++ rest
      = d.quote :: (doubled d.quote ident.toList ++ d.quote :: rest) := by
    rw [toList_quoteName, List.cons_append, List.append_assoc]
    rfl
  rw [hwritten]
  constructor
  · intro h
    cases cs with
    | nil => exact nomatch h
    | cons c cs =>
      rw [readName?] at h
      split at h
      · next hc =>
        obtain ⟨read, hread, heq⟩ := Option.map_eq_some_iff.mp h
        obtain ⟨rfl, rfl⟩ := Prod.mk.inj heq
        obtain ⟨hcs, hrest⟩ := readRest?_eq_some_iff.mp hread
        exact ⟨by rw [hc, hcs, String.toList_ofList], hrest⟩
      · exact nomatch h
  · rintro ⟨rfl, hrest⟩
    rw [readName?, if_pos rfl, readRest?_eq_some_iff.mpr ⟨rfl, hrest⟩, Option.map_some,
      String.ofList_toList]

theorem dot_ne_quote (d : Dialect) : '.' ≠ d.quote := by
  cases d <;> decide

theorem toList_qualify (d : Dialect) (table column : String) :
    (d.qualify table column).toList
      = (d.quoteName table).toList ++ '.' :: (d.quoteName column).toList := by
  rw [qualify, String.toList_append, String.toList_append, List.append_assoc]
  rfl

/-- **A column is read with its table exactly where both were written** and no other quote follows. -/
theorem readQualified?_eq_some_iff :
    d.readQualified? cs = some (table, column, rest)
      ↔ cs = (d.qualify table column).toList ++ rest ∧ rest.head? ≠ some d.quote := by
  rw [toList_qualify, List.append_assoc, List.cons_append]
  constructor
  · intro h
    rw [readQualified?] at h
    split at h
    · next name behind hread =>
      obtain ⟨read, hcolumn, heq⟩ := Option.map_eq_some_iff.mp h
      rw [Prod.mk.injEq, Prod.mk.injEq] at heq
      obtain ⟨rfl, rfl, rfl⟩ := heq
      obtain ⟨rfl, -⟩ := readName?_eq_some_iff.mp hread
      obtain ⟨rfl, hrest⟩ := readName?_eq_some_iff.mp hcolumn
      exact ⟨rfl, hrest⟩
    · exact nomatch h
  · rintro ⟨rfl, hrest⟩
    have hdot : ('.' :: ((d.quoteName column).toList ++ rest)).head? ≠ some d.quote :=
      fun h => dot_ne_quote d (Option.some.inj h)
    have hcolumn : d.readName? ((d.quoteName column).toList ++ rest) = some (column, rest) :=
      readName?_eq_some_iff.mpr ⟨rfl, hrest⟩
    rw [readQualified?, readName?_eq_some_iff.mpr ⟨rfl, hdot⟩]
    exact congrArg (Option.map _) hcolumn

/-! ## What is written alike -/

/-- Dialects with the same quotes write the same. -/
theorem qualify_congr {d d' : Dialect} (h : d.quote = d'.quote) (table column : String) :
    d.qualify table column = d'.qualify table column := by
  rw [qualify, qualify, quoteName, quoteName, quoteName, quoteName, h]

theorem head_qualify (d : Dialect) (table column : String) :
    (d.qualify table column).toList.head? = some d.quote := by
  rw [toList_qualify, toList_quoteName]
  rfl

/-- **Different columns are never written alike**, not even in different dialects. -/
theorem qualify_eq_iff (d d' : Dialect) (table column table' column' : String) :
    d.qualify table column = d'.qualify table' column'
      ↔ d.quote = d'.quote ∧ table = table' ∧ column = column' := by
  constructor
  · intro h
    have hquote : d.quote = d'.quote := by
      have hhead := head_qualify d table column
      rw [h, head_qualify d' table' column'] at hhead
      exact (Option.some.inj hhead).symm
    -- both columns are read off the one text, with nothing behind them
    have hread (table column : String) :
        d.readQualified? (d.qualify table column).toList = some (table, column, []) :=
      readQualified?_eq_some_iff.mpr ⟨(List.append_nil _).symm, nofun⟩
    have hsame := hread table column
    rw [h, ← qualify_congr hquote, hread table' column'] at hsame
    obtain ⟨htable, hrest⟩ := Prod.mk.inj (Option.some.inj hsame)
    exact ⟨hquote, htable.symm, (Prod.mk.inj hrest).1.symm⟩
  · rintro ⟨hquote, rfl, rfl⟩
    exact qualify_congr hquote table column

/-! ## What a database sees -/

open Sql in
/-- **To a database a quoted identifier is one token**, and what follows is read as if it stood alone. -/
theorem lexFrom_of_readName? (h : d.readName? cs = some (ident, rest)) :
    lexFrom d.quote .between cs = .name ident :: lexFrom d.quote .between rest := by
  obtain ⟨rfl, hrest⟩ := readName?_eq_some_iff.mp h
  rw [lexFrom_quoteName]
  cases rest with
  | nil => simp [lexFrom, Reading.finish]
  | cons c cs =>
    have hc : c ≠ d.quote := fun hc => hrest (congrArg some hc)
    simp [lexFrom, Reading.step, Reading.finish, hc]

/-- **Quoted identifiers cannot be escaped from.** An identifier in quotes with a text behind it that does
not begin with a quote is read as this identifier and leaves this text, and nothing else is read as it. The
same holds of a column with its table, so that different columns are never written alike. And where an
identifier is read, a database sees one token with its name in front of those of the rest. -/
theorem quoteName_inescapable (d : Dialect) :
    (∀ cs ident rest, d.readName? cs = some (ident, rest)
        ↔ cs = (d.quoteName ident).toList ++ rest ∧ rest.head? ≠ some d.quote)
      ∧ (∀ cs table column rest, d.readQualified? cs = some (table, column, rest)
        ↔ cs = (d.qualify table column).toList ++ rest ∧ rest.head? ≠ some d.quote)
      ∧ (∀ (d' : Dialect) table column table' column',
        d.qualify table column = d'.qualify table' column'
          ↔ d.quote = d'.quote ∧ table = table' ∧ column = column')
      ∧ ∀ cs ident rest, d.readName? cs = some (ident, rest) →
        Sql.lexFrom d.quote .between cs = .name ident :: Sql.lexFrom d.quote .between rest :=
  ⟨fun _ _ _ => readName?_eq_some_iff, fun _ _ _ _ => readQualified?_eq_some_iff, qualify_eq_iff d,
    fun _ _ _ => lexFrom_of_readName?⟩

/-- Names with quotes and dots of their own, which look like several names or like the end of one. -/
theorem quoteName_quotes :
    Dialect.ansi.readQualified? "\"a\"\".\"\"b\".\"\"\"\", \"c\"".toList
        = some ("a\".\"b", "\"", ", \"c\"".toList)
      ∧ "\"a\"\".\"\"b\".\"\"\"\", \"c\"".toList
        = (Dialect.ansi.qualify "a\".\"b" "\"").toList ++ ", \"c\"".toList
      ∧ Dialect.ansi.qualify "a\".\"b" "c" ≠ Dialect.postgres.qualify "a" "b\".\"c"
      ∧ Dialect.mysql.readName? "\x60a\"\x60\x60 OR 1=1 --\x60=?".toList
        = some ("a\"\x60 OR 1=1 --", "=?".toList)
      ∧ Sql.lex .mysql "\x60a\"\x60\x60 OR 1=1 --\x60=?"
        = .name "a\"\x60 OR 1=1 --" :: Sql.lex .mysql "=?" := by
  have hqualified : Dialect.ansi.readQualified? "\"a\"\".\"\"b\".\"\"\"\", \"c\"".toList
      = some ("a\".\"b", "\"", ", \"c\"".toList) := by
    decide +kernel
  have hname : Dialect.mysql.readName? "\x60a\"\x60\x60 OR 1=1 --\x60=?".toList
      = some ("a\"\x60 OR 1=1 --", "=?".toList) := by
    decide +kernel
  obtain ⟨-, hwritten, halike, -⟩ := quoteName_inescapable .ansi
  obtain ⟨-, -, -, hseen⟩ := quoteName_inescapable .mysql
  refine ⟨hqualified, ((hwritten _ _ _ _).mp hqualified).1, fun h => ?_, hname, hseen _ _ _ hname⟩
  exact absurd ((halike _ _ _ _ _).mp h).2.1 (by decide)

end

end Dialect

end Rql
