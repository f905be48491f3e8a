import Rql.Sql.Condition

/-!
# SQL queries

A statement becomes one `SELECT` on its table. The rows are in the order that was asked for and, so
that pages do not overlap, in the order of the key columns behind it, those left out that were asked
for by name.
-/

namespace Rql.Sql

/-- A query with placeholders, and their values. -/
structure Query where
  sql : String
  params : List Json

/-- What a query asks of a table. -/
structure Select where
  table : String
  filter : Option Condition
  order : List (ColumnRef × Direction)
  limit : Nat
  offset : Nat

namespace Select

/-- The columns that were asked for in an order. -/
def requestedOrder (t : Table) (orders : List Order) :
    Except Error (List (ColumnRef × Direction)) :=
  orders.mapM fun o => (column t o.field).map (·, o.direction)

/-- The key columns that no order names. -/
def keyOrder (t : Table) (orders : List Order) : List (ColumnRef × Direction) :=
  let free := t.keyColumns.filter fun key => !orders.any fun o => Text.sameName o.field key
  free.map fun key => (⟨t.name, key⟩, .asc)

/-- The query of a statement. -/
def ofStatement (glyph : Char) (t : Table) (s : Statement) : Except Error Select := do
  let filter ← Condition.ofStatement glyph t s
  let requested ← requestedOrder t s.order
  return {
    table := t.name
    filter
    order := requested ++ keyOrder t s.order
    limit := s.page.maxRows
    offset := s.page.offset }

/-- One entry of the order. -/
def renderOrder (d : Dialect) (entry : ColumnRef × Direction) : String :=
  entry.1.render d ++ " " ++ entry.2.keyword

/-- The text of the filter, empty if there is none. -/
def renderFilter (d : Dialect) (q : Select) : String :=
  (q.filter.map (Condition.render d)).getD ""

/-- The values of the placeholders. -/
def params (q : Select) : List Json :=
  (q.filter.map Condition.params).getD []

/-- The text of the query. -/
def render (d : Dialect) (q : Select) : String :=
  "SELECT " ++ d.quoteName q.table ++ ".* FROM " ++ d.quoteName q.table
    ++ (if q.filter.isSome then " WHERE " ++ q.renderFilter d else "")
    ++ (if q.order.isEmpty then "" else
      " ORDER BY " ++ Text.join ", " (q.order.map (renderOrder d)))
    ++ " LIMIT " ++ toString q.limit
    ++ (if q.offset = 0 then "" else " OFFSET " ++ toString q.offset)

end Select

namespace Query

/-- The query of a statement in a dialect. -/
def ofStatement (d : Dialect) (glyph : Char) (t : Table) (s : Statement) : Except Error Query :=
  (Select.ofStatement glyph t s).map fun q => ⟨q.render d, q.params⟩

/-- The filter of a statement in a dialect, as a query has it behind `WHERE`. -/
def filterOfStatement (d : Dialect) (glyph : Char) (t : Table) (s : Statement) :
    Except Error Query :=
  (Condition.ofStatement glyph t s).map fun filter =>
    ⟨(filter.map (Condition.render d)).getD "", (filter.map Condition.params).getD []⟩

/-- How many question marks there are in the text. -/
def placeholderCount (q : Query) : Nat :=
  q.sql.toList.count '?'

/-- The query as a JSON value. -/
def toJson (q : Query) : Json :=
  .object [("sql", .string q.sql), ("params", .array q.params)]

end Query

end Rql.Sql
