import Rql.Json.Document
import Rql.Table.Basic

/-!
# Tables as JSON

Columns, indexes and tables are records. A descriptor text holds one table or an array of tables; it
is read as one table if it can be, so an array of a name and a backend is a table.
-/

namespace Rql

namespace Column

/-- The column as a JSON value. -/
def toJson (c : Column) : Json :=
  .object [
    ("name", .string c.name),
    ("type", .string c.type),
    ("nullable", .bool c.nullable),
    ("is_key", .bool c.isKey)]

/-- The column that a document holds. -/
def ofDocument? (doc : Json.Document) : Option Column := do
  match ← doc.fields? ["name", "type", "nullable", "is_key"] with
  | [name, type, nullable, isKey] =>
    return {
      name := ← (← name).string?
      type := ← Json.Document.orElse "" Json.Document.string? type
      nullable := ← Json.Document.orElse true Json.Document.bool? nullable
      isKey := ← Json.Document.orElse false Json.Document.bool? isKey }
  | _ => none

end Column

namespace IndexKind

/-- The kind that a document holds: its name, or an object with its name in front of null. -/
def ofDocument? : Json.Document → Option IndexKind
  | .string marks => (Json.text? marks).bind ofName?
  | .object [(name, .null)] => (Json.text? name).bind ofName?
  | _ => none

end IndexKind

namespace Index

/-- The index as a JSON value. -/
def toJson (i : Index) : Json :=
  .object [
    ("name", .string i.name),
    ("kind", .string i.kind.name),
    ("partition_key", .string i.partitionKey),
    ("sort_key", .stringOrNull i.sortKey),
    ("columns", .strings i.columns)]

/-- The index that a document holds. -/
def ofDocument? (doc : Json.Document) : Option Index := do
  match ← doc.fields? ["name", "kind", "partition_key", "sort_key", "columns"] with
  | [name, kind, partitionKey, sortKey, columns] =>
    return {
      name := ← (← name).string?
      kind := ← IndexKind.ofDocument? (← kind)
      partitionKey := ← (← partitionKey).string?
      sortKey := ← Json.Document.orElse none Json.Document.stringOrNull? sortKey
      columns := ← Json.Document.orElse [] (Json.Document.list? Json.Document.string?) columns }
  | _ => none

end Index

namespace Backend

/-- The backend that a document names. -/
def ofDocument? (doc : Json.Document) : Option Backend := do
  (ofName (← doc.string?)).toOption

end Backend

namespace Table

/-- The table as a JSON value. -/
def toJson (t : Table) : Json :=
  .object [
    ("name", .string t.name),
    ("backend", .string t.backend.name),
    ("columns", .array (t.columns.map Column.toJson)),
    ("indexes", .array (t.indexes.map Index.toJson))]

/-- The table that a document holds. -/
def ofDocument? (doc : Json.Document) : Option Table := do
  match ← doc.fields? ["name", "backend", "columns", "indexes"] with
  | [name, backend, columns, indexes] =>
    return {
      name := ← (← name).string?
      backend := ← Backend.ofDocument? (← backend)
      columns := ← Json.Document.orElse [] (Json.Document.list? Column.ofDocument?) columns
      indexes := ← Json.Document.orElse [] (Json.Document.list? Index.ofDocument?) indexes }
  | _ => none

/-- The table that a text holds. -/
def read? (text : String) : Option Table :=
  (Json.Document.read? text).bind ofDocument?

/-- Arrays and objects of a descriptor lie at most this deep inside one another. -/
def maxDescriptorDepth : Nat := 127

/-- The tables that a document holds, one or an array. Unlike a single record, a descriptor has to
have a value in every part, those that are not looked at included. -/
def descriptor? (doc : Json.Document) : Option (List Table) :=
  if doc.depth ≤ maxDescriptorDepth ∧ doc.value?.isSome then
    match ofDocument? doc with
    | some table => some [table]
    | none => Json.Document.list? ofDocument? doc
  else none

/-- The tables that a descriptor text holds. -/
def readDescriptor? (text : String) : Option (List Table) :=
  (Json.Document.read? text).bind descriptor?

end Table

end Rql
