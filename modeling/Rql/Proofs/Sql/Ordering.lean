import Rql.Proofs.Sql.References

/-!
# What a query sorts on

`orderList?` reads the order of a query off its tokens: what stands between `ORDER BY` and `LIMIT`, an
entry between every two commas. It starts with what was asked for, and the keys that no order names stand
behind that.

A field is looked up as the first column that has its name in any case, but a key is left out as soon as
some order names it in any case. So an order can name a key and be about another column, and then the key
is missing. `orderList?_ofStatement` says exactly when: a key that is named is sorted on if and only if it
is, letter by letter, the first column with its name.
-/

namespace Rql.Sql

/-! ## Reading the order -/

/-- The tokens between `ORDER BY` and `LIMIT`. -/
def orderClause (ts : List (Token Unit)) : List (Token Unit) :=
  ((ts.takeWhile (· ≠ .text "LIMIT")).dropWhile (· ≠ .text "BY")).drop 1

/-- A column with its direction. -/
def entry? : List (Token Unit) → Option (ColumnRef × Direction)
  | [.name table, .text ".", .name column, .text "ASC"] => some (⟨table, column⟩, .asc)
  | [.name table, .text ".", .name column, .text "DESC"] => some (⟨table, column⟩, .desc)
  | _ => none

/-- The columns that rows are sorted on with their directions, the first one first, if the tokens are those
of an order. -/
def orderList? (ts : List (Token Unit)) : Option (List (ColumnRef × Direction)) :=
  let clause := orderClause ts
  if clause.isEmpty then some [] else (clause.splitOn (.text ",")).mapM entry?

section

variable {front entries back : List (Token Unit)}

theorem takeWhile_append_of_not_mem {stop : Token Unit} (h : stop ∉ front) :
    (front ++ back).takeWhile (· ≠ stop) = front ++ back.takeWhile (· ≠ stop) :=
  List.takeWhile_append_of_pos fun _ ht => decide_eq_true fun heq => h (heq ▸ ht)

theorem dropWhile_append_of_not_mem {stop : Token Unit} (h : stop ∉ front) :
    (front ++ back).dropWhile (· ≠ stop) = back.dropWhile (· ≠ stop) :=
  List.dropWhile_append_of_pos fun _ ht => decide_eq_true fun heq => h (heq ▸ ht)

theorem orderClause_append (hlimit : .text "LIMIT" ∉ front) (hby : .text "BY" ∉ front)
    (hentries : .text "LIMIT" ∉ entries) :
    orderClause (front ++ (.text "ORDER" :: .text "BY" :: (entries ++ .text "LIMIT" :: back)))
      = entries := by
  have htake : (Token.text "ORDER" :: Token.text "BY" :: (entries ++ .text "LIMIT" :: back)).takeWhile
      (· ≠ .text "LIMIT") = .text "ORDER" :: .text "BY" :: entries := by
    have hrest : (entries ++ .text "LIMIT" :: back).takeWhile (· ≠ .text "LIMIT") = entries := by
      rw [takeWhile_append_of_not_mem hentries]
      exact List.append_nil entries
    exact congrArg (fun ts => Token.text "ORDER" :: .text "BY" :: ts) hrest
  rw [orderClause, takeWhile_append_of_not_mem hlimit, htake, dropWhile_append_of_not_mem hby]
  rfl

/-- Without an order there is no clause. -/
theorem orderClause_append_limit (hlimit : .text "LIMIT" ∉ front) (hby : .text "BY" ∉ front) :
    orderClause (front ++ .text "LIMIT" :: back) = [] := by
  rw [orderClause, takeWhile_append_of_not_mem hlimit, dropWhile_append_of_not_mem hby]
  rfl

end

namespace Select

/-- Up to the order there are only the words of the table and of the filter. -/
theorem text_not_mem_front (q : Select) {w : String} (hw : w ∉ innerWords)
    (hfront : w ∉ ["SELECT", "*", "FROM", "WHERE"]) :
    Token.text w ∉ (q.tableTokens ++ q.whereTokens).map Token.erase := by
  simp only [List.mem_cons, List.not_mem_nil, or_false, not_or] at hfront
  have hdot : w ≠ "." := fun heq => hw (heq ▸ by decide)
  have htable : Token.text w ∉ q.tableTokens.map Token.erase := by
    simp [tableTokens, Token.erase, hdot, hfront]
  have hwhere : Token.text w ∉ q.whereTokens.map Token.erase := by
    rw [whereTokens]
    cases q.filter with
    | none => exact List.not_mem_nil
    | some c =>
      intro hmem
      rcases List.mem_cons.mp hmem with heq | hmem
      · exact hfront.2.2.2 (Token.text.inj heq)
      · exact c.refers_tokens.erase.text_not_mem hw hmem
  rw [List.map_append, List.mem_append]
  exact not_or.mpr ⟨htable, hwhere⟩

theorem pageTokens_erase (q : Select) :
    ∃ back, q.pageTokens.map Token.erase = .text "LIMIT" :: back :=
  ⟨_, rfl⟩

/-- **The clause of the order is that of its entries**, whatever the names in front of it are. -/
theorem orderClause_lex (d : Dialect) (q : Select) : orderClause (lex d (q.render d))
    = List.intercalate [.text ","] (q.order.map fun entry => (entryTokens entry).map Token.erase) := by
  have hlimit : .text "LIMIT" ∉ (q.tableTokens ++ q.whereTokens).map Token.erase :=
    q.text_not_mem_front (by decide) (by decide)
  have hby : .text "BY" ∉ (q.tableTokens ++ q.whereTokens).map Token.erase :=
    q.text_not_mem_front (by decide) (by decide)
  obtain ⟨back, hback⟩ := q.pageTokens_erase
  have htokens : q.tokens.map Token.erase = (q.tableTokens ++ q.whereTokens).map Token.erase
      ++ (q.orderTokens.map Token.erase ++ .text "LIMIT" :: back) := by
    rw [← hback, ← List.map_append, ← List.map_append, List.append_assoc, tokens]
  rw [lex_render, htokens, orderTokens]
  by_cases hempty : q.order.isEmpty = true
  · rw [if_pos hempty, List.isEmpty_iff.mp hempty]
    exact orderClause_append_limit hlimit hby
  · rw [if_neg hempty]
    have hentries := (refers_entries q.order).erase
    rw [map_intercalate, List.map_map] at hentries
    rw [List.map_cons, List.map_cons, map_intercalate, List.map_map]
    exact orderClause_append hlimit hby (hentries.text_not_mem (by decide))

theorem entry?_entryTokens (entry : ColumnRef × Direction) :
    entry? ((entryTokens entry).map Token.erase) = some entry := by
  obtain ⟨c, direction⟩ := entry
  cases direction <;> rfl

theorem comma_not_mem_entryTokens (entry : ColumnRef × Direction) :
    Token.text "," ∉ (entryTokens entry).map Token.erase := by
  obtain ⟨c, direction⟩ := entry
  cases direction <;>
    simp [entryTokens, ColumnRef.alone, ColumnRef.tokens, Token.erase, Direction.keyword]

/-- **The order of a query can be read off its text.** -/
theorem orderList?_lex (d : Dialect) (q : Select) : orderList? (lex d (q.render d)) = some q.order := by
  have hentries : ∀ entries : List (ColumnRef × Direction),
      (entries.map fun entry => (entryTokens entry).map Token.erase).mapM entry? = some entries := by
    intro entries
    induction entries with
    | nil => rfl
    | cons entry rest ih => rw [List.map_cons, List.mapM_cons, entry?_entryTokens, ih]; rfl
  rw [orderList?, orderClause_lex]
  cases horder : q.order with
  | nil => rfl
  | cons entry rest =>
    have hcomma : ∀ ts ∈ (entry :: rest).map fun entry => (entryTokens entry).map Token.erase,
        Token.text "," ∉ ts := by
      intro ts hts
      obtain ⟨entry, -, rfl⟩ := List.mem_map.mp hts
      exact comma_not_mem_entryTokens entry
    have hsome : (List.intercalate [.text ","]
        ((entry :: rest).map fun entry => (entryTokens entry).map Token.erase)).isEmpty = false := by
      cases rest <;> rfl
    rw [hsome, if_neg Bool.false_ne_true,
      List.splitOn_intercalate _ hcomma (List.cons_ne_nil _ _), hentries]

/-- The requested entries are the orders one by one. -/
theorem requestedOrder_ok {t : Table} {orders : List Order}
    {requested : List (ColumnRef × Direction)} (h : requestedOrder t orders = .ok requested) :
    List.Forall₂ (fun o entry => NamedBy t o.field entry.1 ∧ entry.2 = o.direction)
      orders requested := by
  refine forall₂_of_mapM h fun o _ entry hentry => ?_
  obtain ⟨r, hr, rfl⟩ := map_ok hentry
  exact ⟨namedBy_of_column hr, rfl⟩

end Select

/-! ## Keys in the order -/

variable {t : Table} {s : Statement}

/-- A field is looked up by its name without case. -/
theorem column?_congr {a b : String} (h : Text.sameName a b = true) : t.column? a = t.column? b := by
  have hsame : ∀ name, Text.sameName name a = Text.sameName name b := by
    intro name
    rw [Text.sameName, Text.sameName, Text.sameName_iff.mp h]
  rw [Table.column?, Table.column?]
  exact congrArg (t.columns.find? ·) (funext fun c => hsame c.name)

theorem namedBy_congr {a b : String} {r : ColumnRef} (h : Text.sameName a b = true) :
    NamedBy t a r ↔ NamedBy t b r := by
  rw [NamedBy, NamedBy, column?_congr h]

theorem sameName_of_namedBy {field name : String} (h : NamedBy t field ⟨t.name, name⟩) :
    Text.sameName field name = true := by
  obtain ⟨c, hc, heq⟩ := h
  have hname : Text.sameName c.name field = true := by
    have hfound := List.find?_some hc
    exact hfound
  rw [(ColumnRef.mk.inj heq).2, Text.sameName_comm]
  exact hname

theorem NamedBy.unique {field : String} {r r' : ColumnRef} (h : NamedBy t field r)
    (h' : NamedBy t field r') : r = r' := by
  obtain ⟨c, hc, rfl⟩ := h
  obtain ⟨c', hc', rfl⟩ := h'
  rw [Option.some.inj (hc.symm.trans hc')]

theorem mem_freeKeys_iff {orders : List Order} {key : String} : key ∈ freeKeys t orders
    ↔ key ∈ t.keyColumns ∧ ∀ o ∈ orders, Text.sameName o.field key = false := by
  simp [freeKeys]

/-- The requested entries have a key if an order names it and it is the first column with its name. -/
theorem mem_requested_iff {requested : List (ColumnRef × Direction)} {key : String}
    (h : Select.requestedOrder t s.order = .ok requested) :
    ⟨t.name, key⟩ ∈ requested.map Prod.fst
      ↔ (∃ o ∈ s.order, Text.sameName o.field key = true) ∧ NamedBy t key ⟨t.name, key⟩ := by
  constructor
  · intro hmem
    obtain ⟨o, ho, hnamed⟩ := Select.namedBy_of_mem_requested h _ hmem
    have hsame := sameName_of_namedBy hnamed
    exact ⟨⟨o, ho, hsame⟩, (namedBy_congr hsame).mp hnamed⟩
  · rintro ⟨⟨o, ho, hsame⟩, hnamed⟩
    obtain ⟨entry, hentry, hcolumn⟩ := exists_mem_of_mapM h ho
    obtain ⟨r, hr, rfl⟩ := map_ok hcolumn
    -- whichever order names the key, the column is the one that the key itself would be
    have hkey := (namedBy_of_column hr).unique ((namedBy_congr hsame).mpr hnamed)
    exact List.mem_map.mpr ⟨_, hentry, hkey⟩

/-- **A key that an order names is sorted on exactly if it is the first column with its name.** Any other
key stands behind the order. -/
theorem mem_order_iff {requested : List (ColumnRef × Direction)} {key : String}
    (h : Select.requestedOrder t s.order = .ok requested) (hkey : key ∈ t.keyColumns) :
    ⟨t.name, key⟩ ∈ (requested ++ Select.keyOrder t s.order).map Prod.fst
      ↔ (∀ o ∈ s.order, Text.sameName o.field key = false) ∨ NamedBy t key ⟨t.name, key⟩ := by
  have hfree : ⟨t.name, key⟩ ∈ (Select.keyOrder t s.order).map Prod.fst
      ↔ ∀ o ∈ s.order, Text.sameName o.field key = false := by
    rw [Select.map_fst_keyOrder, List.mem_map]
    constructor
    · rintro ⟨key', hkey', heq⟩
      obtain rfl := (ColumnRef.mk.inj heq).2
      exact (mem_freeKeys_iff.mp hkey').2
    · intro hnone
      exact ⟨key, mem_freeKeys_iff.mpr ⟨hkey, hnone⟩, rfl⟩
  rw [List.map_append, List.mem_append, mem_requested_iff h, hfree]
  constructor
  · rintro (⟨-, hnamed⟩ | hnone)
    · exact .inr hnamed
    · exact .inl hnone
  · rintro (hnone | hnamed)
    · exact .inr hnone
    · by_cases hnone : ∀ o ∈ s.order, Text.sameName o.field key = false
      · exact .inr hnone
      · exact .inl ⟨by simpa using hnone, hnamed⟩

/-- Where no two columns have the same name in any case, every declared key is the first of its name. -/
theorem namedBy_self (hapart : t.columns.Pairwise fun c c' => Text.sameName c.name c'.name = false)
    {key : String} (h : Declared t ⟨t.name, key⟩) : NamedBy t key ⟨t.name, key⟩ := by
  obtain ⟨c, hc, heq⟩ := h
  obtain rfl := (ColumnRef.mk.inj heq).2
  obtain ⟨front, back, hsplit⟩ := List.append_of_mem hc
  -- no column in front of the key can be found by its name
  rw [hsplit] at hapart
  have hfront : ∀ c' ∈ front, Text.sameName c'.name c.name = false := fun c' hc' =>
    (List.pairwise_append.mp hapart).2.2 c' hc' c List.mem_cons_self
  have hfirst : t.column? c.name = some c :=
    List.find?_eq_some_iff_append.mpr ⟨Text.sameName_refl c.name, front, back, hsplit,
      fun c' hc' => by rw [hfront c' hc']; rfl⟩
  exact ⟨c, hfirst, rfl⟩

/-- **Order of a query.** It starts with the requested orders in their order and directions, each on the
first column with its name, and goes on with the keys that no order names. A key is sorted on if and only
if no order names it or it is itself the first column with its name; so all declared keys are, if names of
columns differ by more than the case of letters. -/
theorem orderList?_ofStatement {d : Dialect} {glyph : Char} {q : Query}
    (h : Query.ofStatement d glyph t s = .ok q) :
    ∃ requested entries, orderList? (lex d q.sql) = some entries
      ∧ entries = requested ++ (freeKeys t s.order).map (fun key => (⟨t.name, key⟩, .asc))
      ∧ List.Forall₂ (fun o entry => NamedBy t o.field entry.1 ∧ entry.2 = o.direction)
        s.order requested
      ∧ (∀ key ∈ t.keyColumns, ⟨t.name, key⟩ ∈ entries.map Prod.fst
        ↔ (∀ o ∈ s.order, Text.sameName o.field key = false) ∨ NamedBy t key ⟨t.name, key⟩)
      ∧ (t.columns.Pairwise (fun c c' => Text.sameName c.name c'.name = false) →
        ∀ key ∈ t.keyColumns, Declared t ⟨t.name, key⟩ →
          ⟨t.name, key⟩ ∈ entries.map Prod.fst) := by
  obtain ⟨select, hselect, rfl⟩ := map_ok h
  obtain ⟨filter, requested, -, horder, rfl⟩ := Select.ofStatement_ok hselect
  have hkeys : ∀ key ∈ t.keyColumns, _ := fun key hkey => mem_order_iff horder hkey
  refine ⟨requested, _, Select.orderList?_lex d _, rfl, Select.requestedOrder_ok horder, hkeys,
    fun hapart key hkey hdeclared => ?_⟩
  exact (hkeys key hkey).mpr (.inr (namedBy_self hapart hdeclared))

/-- A table with two columns whose names differ in case alone. The second one is its key. -/
def lockers : Table where
  name := "lockers"
  backend := .sql .postgres
  columns := [{ name := "ID" }, { name := "size" }, .key "id" "BIGINT"]

/-- An order by a size and by a name that both columns have. -/
def bySizeAndId : Statement where
  table := "lockers"
  order := [⟨"Size", .desc⟩, ⟨"id", .asc⟩]

/-- The order is on the column that is no key, and the key is left out. -/
theorem orderList?_bySizeAndId :
    ∃ q entries, Query.ofStatement .postgres '*' lockers bySizeAndId = .ok q
      ∧ orderList? (lex .postgres q.sql) = some entries
      ∧ "id" ∈ lockers.keyColumns
      ∧ (⟨"lockers", "id"⟩ ∈ entries.map Prod.fst
        ↔ (∀ o ∈ bySizeAndId.order, Text.sameName o.field "id" = false)
          ∨ NamedBy lockers "id" ⟨"lockers", "id"⟩) := by
  have hok : (Query.ofStatement .postgres '*' lockers bySizeAndId).toOption.isSome = true := by
    decide +kernel
  obtain ⟨q, hq⟩ := Option.isSome_iff_exists.mp hok
  have hquery := ok_of_toOption hq
  obtain ⟨requested, entries, hentries, -, -, hkeys, -⟩ := orderList?_ofStatement hquery
  have hkey : "id" ∈ lockers.keyColumns := by decide
  exact ⟨q, entries, hquery, hentries, hkey, hkeys "id" hkey⟩

/-- The table is without flaws and the statement is accepted, but its order has no place for the key. -/
theorem unsorted_bySizeAndId : lockers.validate = .ok ()
    ∧ "id" ∈ lockers.keyColumns
    ∧ ∃ q entries, Query.ofStatement .postgres '*' lockers bySizeAndId = .ok q
      ∧ orderList? (lex .postgres q.sql) = some entries
      ∧ ⟨"lockers", "id"⟩ ∉ entries.map Prod.fst := by
  have hlist : (Query.ofStatement .postgres '*' lockers bySizeAndId).toOption.map
      (fun q => orderList? (lex .postgres q.sql))
      = some (some [(⟨"lockers", "size"⟩, .desc), (⟨"lockers", "ID"⟩, .asc)]) := by decide +kernel
  obtain ⟨q, hq, hentries⟩ := Option.map_eq_some_iff.mp hlist
  exact ⟨rfl, by decide, q, _, ok_of_toOption hq, hentries, by decide⟩

end Rql.Sql
