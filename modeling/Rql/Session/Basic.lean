import Rql.Catalog
import Rql.Partition.Explanation
import Rql.Registry
import Rql.Request.Statement

/-!
# Sessions

A session answers requests about the tables of a catalog. A request is a line of JSON that names a
table, with a query string and keys of entities if it likes; the answer is a line of JSON as well.
Every answer depends on its own request and the session alone.

What a request or a whole run fails with, as the outside sees it, is a code and a message. An error
of the library keeps its own code where a single request fails with it; where it ends a run, its
code says which part of the run it ended.
-/

namespace Rql

/-! ## Failures -/

/-- What ends a run or spoils a request before the request is compiled. -/
inductive RunError where
  /-- The settings cannot be read. -/
  | settings (reason : String)
  /-- The tables cannot be loaded. -/
  | tables (reason : String)
  /-- The input cannot be read. -/
  | stream (reason : String)
  /-- A line is no request. -/
  | request (reason : String)
  | unknownTable (name : String)

namespace RunError

/-- The name of the kind of error, which never changes. -/
def code : RunError → String
  | settings _ => "RQL_CLI_CONFIG_ERROR"
  | tables _ => "RQL_CLI_METADATA_ERROR"
  | stream _ => "RQL_CLI_IO_ERROR"
  | request _ => "RQL_CLI_INVALID_REQUEST"
  | unknownTable _ => "RQL_CLI_UNKNOWN_TABLE"

/-- The error in words. -/
def message : RunError → String
  | settings reason | tables reason | stream reason | request reason => reason
  | unknownTable name => "Table '" ++ name ++ "' is not defined"

/-- Code and message. -/
def display (e : RunError) : String :=
  e.code ++ ": " ++ e.message

/-- An error of the library that ends a run. -/
def ofError (e : Error) : RunError :=
  match e with
  | .invalidMetadata .. => .tables e.message
  | _ => .request e.message

/-- A line that is no JSON, or no request. -/
def badRequest : RunError :=
  .request "Invalid request"

/-- A line that is not UTF-8. -/
def badLine : RunError :=
  .stream "stream did not contain valid UTF-8"

end RunError

/-- What a single request fails with. -/
structure Failure where
  code : String
  message : String
deriving DecidableEq, Repr

namespace Failure

/-- The failure that an error of the library is. -/
def ofError (e : Error) : Failure := ⟨e.code, e.message⟩

/-- The failure that an error in front of the compilation is. -/
def ofRunError (e : RunError) : Failure := ⟨e.code, e.message⟩

end Failure

/-! ## Requests and responses -/

/-- A request about a table. -/
structure Request where
  table : String
  query : String := ""
  keys : Option String := none
deriving DecidableEq, Repr

namespace Request

/-- The request that a document holds. -/
def ofDocument? (doc : Json.Document) : Option Request := do
  match ← doc.fields? ["table", "query", "keys"] with
  | [table, query, keys] =>
    return {
      table := ← (← table).string?
      query := ← Json.Document.orElse "" Json.Document.string? query
      keys := ← Json.Document.orElse none Json.Document.stringOrNull? keys }
  | _ => none

/-- The request of a line. -/
def ofLine (line : String) : Except Failure Request :=
  match (Json.Document.read? line).bind ofDocument? with
  | some r => .ok r
  | none => .error (.ofRunError .badRequest)

/-- The keys, if there are any but blanks. -/
def significantKeys (r : Request) : Option String :=
  r.keys.filter fun keys => !Text.allBlank keys

end Request

/-- The answer to a request. -/
inductive Response where
  | ok (data : Json)
  | error (f : Failure)

namespace Response

/-- The answer as a JSON value. -/
def toJson : Response → Json
  | .ok data => .object [("status", .string "ok"), ("data", data)]
  | .error f =>
    .object [("status", .string "error"), ("code", .string f.code), ("message", .string f.message)]

/-- The line of an answer. -/
def line (r : Response) : String :=
  r.toJson.render

end Response

/-! ## Answers -/

/-- Tables, settings and compilers. -/
structure Session where
  config : Config
  catalog : Catalog
  registry : Registry

namespace Session

/-- The session with a compiler for every backend. -/
def new (config : Config) (catalog : Catalog) : Session :=
  ⟨config, catalog, .standard config⟩

/-- The table that a request names. -/
def table (s : Session) (name : String) : Except Failure Table :=
  match s.catalog.find? name with
  | some t => .ok t
  | none => .error (.ofRunError (.unknownTable name))

/-- The statement of a request on its table: that of the query string, restricted to the entities
with the keys, if there are keys. -/
def statementOn (s : Session) (t : Table) (r : Request) : Except Error Statement := do
  let statement ← QueryString.statement s.config t r.query
  match r.significantKeys with
  | none => return statement
  | some keys => return statement.restrict (← t.keyPredicate keys)

/-- The table and the statement of a request. -/
def statement (s : Session) (r : Request) : Except Failure (Table × Statement) := do
  let t ← s.table r.table
  match s.statementOn t r with
  | .ok statement => return (t, statement)
  | .error e => throw (.ofError e)

/-- What the request of a line is compiled to. -/
def compileLine (s : Session) (line : String) : Except Failure Compiled := do
  let (t, statement) ← s.statement (← Request.ofLine line)
  (s.registry.compile t statement).mapError .ofError

/-- The answer to a line that is to be compiled. -/
def answerCompile (s : Session) (line : String) : Response :=
  match s.compileLine line with
  | .ok compiled => .ok compiled.toJson
  | .error f => .error f

/-- Only partition tables have plans to explain. -/
def explainable (t : Table) : Except Failure Unit :=
  if t.backend = .partitionKey then .ok ()
  else .error (.ofError (.unsupportedBackend
    ("explain needs a partition_key table, '" ++ t.name ++ "' is " ++ t.backend.name)))

/-- What comes of planning the request of a line: a plan or the reason why there is none. -/
def planLine (s : Session) (line : String) : Except Failure (Except Error Partition.Plan) := do
  let (t, statement) ← s.statement (← Request.ofLine line)
  explainable t
  return Partition.Plan.ofStatement s.config.wildcard t statement

/-- What is said about a plan or its refusal. -/
def explanation (outcome : Except Error Partition.Plan) : Json :=
  let (plan, explained) := match outcome with
    | .ok p => (p.toJson, Partition.Explanation.ofPlan p)
    | .error e => (.null, Partition.Explanation.ofError e)
  .object [
    ("accepted", .bool explained.accepted),
    ("plan", plan),
    ("explain", .string explained.render)]

/-- The answer to a line that is to be explained. A refusal is explained, it is no failure. -/
def answerExplain (s : Session) (line : String) : Response :=
  match s.planLine line with
  | .ok outcome => .ok (explanation outcome)
  | .error f => .error f

/-- What is to be done with the lines of a run. -/
inductive Task where
  | compile
  | explain
deriving DecidableEq, Repr

/-- The answer to a line. -/
def answer (s : Session) : Task → String → Response
  | .compile, line => s.answerCompile line
  | .explain, line => s.answerExplain line

end Session

end Rql
