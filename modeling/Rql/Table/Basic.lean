import Rql.Backend

/-!
# Tables

What is known of a table: its backend, its columns with their types, its indexes with their keys.
Names of columns and keys are found in any case. `Table.bind` gives the value that a literal stands
for in a column of a declared type.
-/

namespace Rql

/-- A column of a table. -/
structure Column where
  name : String
  /-- The name of the type in the backend, empty if it is not known. -/
  type : String := ""
  nullable : Bool := true
  isKey : Bool := false
deriving DecidableEq, Repr

namespace Column

/-- A column that is part of the primary key. -/
def key (name type : String) : Column :=
  { name, type, nullable := false, isKey := true }

/-- The types whose values are numbers. -/
def numericTypes : List String :=
  ["n", "number", "int", "integer", "bigint", "smallint", "long", "decimal", "numeric", "float",
    "double", "real"]

/-- The types whose values are true and false. -/
def boolTypes : List String :=
  ["bool", "boolean"]

/-- The type is one of these, whatever the case. -/
def hasTypeIn (types : List String) (c : Column) : Bool :=
  types.contains (Text.foldCase c.type)

/-- A text does not fit the type. -/
def mismatch (c : Column) (text : String) : Error :=
  .malformed (.typeMismatch text c.type c.name)

/-- The value of a literal in this column. The bare word `null` is null in every column. Otherwise a
column for numbers takes a number, a column for truth values takes `true` or `false`, both quoted or
not, and a column of any other type takes the text. Without a type the literal decides itself. -/
def bind (c : Column) (l : Literal) : Except Error Json :=
  if l.isNull then .ok .null
  else if c.type = "" then .ok l.toJson
  else if c.hasTypeIn numericTypes then
    match Literal.number? l.text with
    | some n => .ok (.number n)
    | none => .error (c.mismatch l.text)
  else if c.hasTypeIn boolTypes then
    if Text.sameName l.text "true" then .ok (.bool true)
    else if Text.sameName l.text "false" then .ok (.bool false)
    else .error (c.mismatch l.text)
  else .ok (.string l.text)

end Column

/-- What an index is to its table. -/
inductive IndexKind where
  | primary
  | localSecondary
  | globalSecondary
deriving DecidableEq, Repr

namespace IndexKind

/-- The name that the kind is written with. -/
def name : IndexKind → String
  | .primary => "primary"
  | .localSecondary => "local_secondary"
  | .globalSecondary => "global_secondary"

/-- All names with their kinds. The case matters here. -/
def names : List (String × IndexKind) :=
  [("primary", .primary), ("PRIMARY", .primary), ("local_secondary", .localSecondary),
    ("localsecondary", .localSecondary), ("global_secondary", .globalSecondary),
    ("globalsecondary", .globalSecondary)]

/-- The kind with a name. -/
def ofName? (name : String) : Option IndexKind :=
  names.lookup name

end IndexKind

/-- An index of a table. -/
structure Index where
  name : String
  kind : IndexKind
  /-- The key that picks the partition. -/
  partitionKey : String
  /-- The key that orders a partition. -/
  sortKey : Option String := none
  columns : List String := []
deriving DecidableEq, Repr

namespace Index

/-- An index that holds its keys. -/
def ofKeys (name : String) (kind : IndexKind) (partitionKey : String) (sortKey : Option String) :
    Index :=
  { name, kind, partitionKey, sortKey, columns := partitionKey :: sortKey.toList }

/-- The primary index with these keys. -/
def ofPrimaryKeys (partitionKey : String) (sortKey : Option String) : Index :=
  ofKeys "primary" .primary partitionKey sortKey

/-- The index is the primary one. -/
def isPrimary (i : Index) : Bool :=
  i.kind == .primary

/-- The index sorts on a field. -/
def sortsOn (i : Index) (field : String) : Bool :=
  i.sortKey.any (Text.sameName · field)

end Index

/-- A table. -/
structure Table where
  name : String
  backend : Backend
  columns : List Column := []
  indexes : List Index := []
deriving DecidableEq, Repr

namespace Table

/-- The first column with a name. -/
def column? (t : Table) (name : String) : Option Column :=
  t.columns.find? fun c => Text.sameName c.name name

/-- The value of a literal that is compared with a field. A field without a column has no type. -/
def bind (t : Table) (field : String) (l : Literal) : Except Error Json :=
  match t.column? field with
  | some c => c.bind l
  | none => .ok l.toJson

/-- The first primary index. -/
def primaryIndex? (t : Table) : Option Index :=
  t.indexes.find? Index.isPrimary

/-- The names of the columns that are marked as part of the key, or else the keys of the primary
index. -/
def keyColumns (t : Table) : List String :=
  match (t.columns.filter Column.isKey).map Column.name with
  | [] =>
    match t.primaryIndex? with
    | some i => i.partitionKey :: i.sortKey.toList
    | none => []
  | marked => marked

/-- The name that the flaw of a table without a name is told of. -/
def unnamed : String := "<unnamed>"

/-- Refuses a table without a name, with the wrong number of primary indexes, or with an index
without partition key. -/
def validate (t : Table) : Except Error Unit :=
  let primaries := t.indexes.countP Index.isPrimary
  if Text.allBlank t.name then .error (.invalidMetadata unnamed .noName)
  else if t.backend = .partitionKey ∧ primaries ≠ 1 then
    .error (.invalidMetadata t.name (.primaryCount primaries))
  else if 1 < primaries then .error (.invalidMetadata t.name .severalPrimaries)
  else match t.indexes.find? fun i => Text.allBlank i.partitionKey with
    | some i => .error (.invalidMetadata t.name (.noPartitionKey i.name))
    | none => .ok ()

end Table

end Rql
