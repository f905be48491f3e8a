import Rql.Error

/-!
# Backends

The stores that a table can live in: SQL databases of three dialects, a store of partitions with sort
keys, and a search engine. Every backend has several names, found in any case, and one that it is
written with.
-/

namespace Rql

/-- A flavour of SQL. -/
inductive Dialect where
  | ansi
  | postgres
  | mysql
deriving DecidableEq, Repr

namespace Dialect

/-- The name that the dialect is written with as a backend. -/
def name : Dialect → String
  | .ansi => "sql"
  | .postgres => "postgres"
  | .mysql => "mysql"

/-- The name of the flavour itself. -/
def flavour : Dialect → String
  | .ansi => "ansi"
  | .postgres => "postgres"
  | .mysql => "mysql"

/-- All names with their dialects. -/
def names : List (String × Dialect) :=
  [("sql", .ansi), ("ansi", .ansi), ("postgres", .postgres), ("postgresql", .postgres),
    ("pg", .postgres), ("mysql", .mysql), ("mariadb", .mysql)]

/-- The dialect with a name. -/
def ofName (name : String) : Except Error Dialect :=
  match names.find? fun entry => Text.sameName entry.1 name with
  | some (_, dialect) => .ok dialect
  | none => .error (.unsupportedBackend name)

/-- What identifiers are quoted with: double quotes, and grave accents in MySQL. -/
def quote : Dialect → Char
  | .ansi | .postgres => '"'
  | .mysql => '\x60'

/-- An identifier in quotes; a quote inside is written twice. -/
def quoteName (d : Dialect) (ident : String) : String :=
  .ofList (d.quote ::
    (ident.toList.flatMap (fun c => if c = d.quote then [c, c] else [c]) ++ [d.quote]))

/-- A column with its table, both in quotes. -/
def qualify (d : Dialect) (table column : String) : String :=
  d.quoteName table ++ "." ++ d.quoteName column

end Dialect

/-- A store, which decides what statements are compiled to. -/
inductive Backend where
  | sql (dialect : Dialect)
  | partitionKey
  | search
deriving DecidableEq, Repr

namespace Backend

/-- The name that the backend is written with. -/
def name : Backend → String
  | .sql dialect => dialect.name
  | .partitionKey => "partition_key"
  | .search => "search"

/-- The names of the backends other than SQL. -/
def names : List (String × Backend) :=
  [("partition_key", .partitionKey), ("dynamo", .partitionKey), ("dynamodb", .partitionKey),
    ("search", .search), ("elastic", .search), ("elasticsearch", .search)]

/-- The backend with a name. -/
def ofName (name : String) : Except Error Backend :=
  match names.find? fun entry => Text.sameName entry.1 name with
  | some (_, backend) => .ok backend
  | none => (Dialect.ofName name).map .sql

end Backend

end Rql
