import Rql.Config
import Rql.Partition.Plan
import Rql.Search.Request
import Rql.Sql.Select

/-!
# Compilers

Every backend has a compiler of its own, and a registry holds at most one for each. A statement is
compiled by the one that is registered for the backend of its table.
-/

namespace Rql

/-- What a statement is compiled to. -/
inductive Compiled where
  | sql (q : Sql.Query)
  | keyCondition (p : Partition.Plan)
  | search (r : Search.Request)

namespace Compiled

/-- The kind of the result. -/
def kind : Compiled → String
  | .sql _ => "sql"
  | .keyCondition _ => "key_condition"
  | .search _ => "search"

/-- The result without its kind. -/
def queryJson : Compiled → Json
  | .sql q => q.toJson
  | .keyCondition p => p.toJson
  | .search r => r.toJson

/-- The result as a JSON value. -/
def toJson (c : Compiled) : Json :=
  .object [("kind", .string c.kind), ("query", c.queryJson)]

end Compiled

/-- A compiler with its settings. -/
inductive Compiler where
  | sql (dialect : Dialect) (wildcard : Char)
  | partition (wildcard : Char)
  | search (settings : Search.Settings)

namespace Compiler

/-- The backend that the compiler works for. -/
def backend : Compiler → Backend
  | .sql dialect _ => .sql dialect
  | .partition _ => .partitionKey
  | .search _ => .search

/-- Compiles a statement on a table. -/
def compile (t : Table) (s : Statement) : Compiler → Except Error Compiled
  | .sql dialect wildcard => (Sql.Query.ofStatement dialect wildcard t s).map .sql
  | .partition wildcard => (Partition.Plan.ofStatement wildcard t s).map .keyCondition
  | .search settings => (Search.Request.ofStatement settings s).map .search

/-- The compiler for a backend. -/
def forBackend (wildcard : Char) (identityField : String) : Backend → Compiler
  | .sql dialect => .sql dialect wildcard
  | .partitionKey => .partition wildcard
  | .search => .search { wildcard, identityField }

end Compiler

/-- The compilers that can be used, at most one for each backend. -/
structure Registry where
  compilers : List Compiler := []

namespace Registry

/-- No compilers. -/
def empty : Registry := {}

/-- Puts in a compiler; one that was there for the same backend goes. -/
def register (r : Registry) (c : Compiler) : Registry :=
  ⟨c :: r.compilers.filter fun other => other.backend ≠ c.backend⟩

/-- The compiler for a backend. -/
def find? (r : Registry) (b : Backend) : Option Compiler :=
  r.compilers.find? fun c => c.backend = b

/-- There is a compiler for the backend. -/
def supports (r : Registry) (b : Backend) : Bool :=
  (r.find? b).isSome

/-- All backends. -/
def backends : List Backend :=
  [.sql .ansi, .sql .postgres, .sql .mysql, .partitionKey, .search]

/-- A compiler for every backend. -/
def standard (config : Config) : Registry :=
  (backends.map (Compiler.forBackend config.wildcard config.identityField)).foldl register empty

/-- Compiles a statement with the compiler for the backend of its table. -/
def compile (r : Registry) (t : Table) (s : Statement) : Except Error Compiled :=
  match r.find? t.backend with
  | some c => c.compile t s
  | none => .error (.unsupportedBackend t.backend.name)

end Registry

end Rql
