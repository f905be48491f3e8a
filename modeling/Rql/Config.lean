import Rql.Error
import Rql.Json.Document

/-!
# Settings

Page sizes, the field that makes an order of search results complete, and the glyph that stands for
any text in a value. As JSON they are a record in which every field may be missing. Reading
validates them.
-/

namespace Rql

/-- The settings of a session. -/
structure Config where
  /-- Rows of a page if the request does not say. -/
  defaultPageSize : Nat := 100
  /-- The greatest page that a request may ask for. -/
  maxPageSize : Nat := 1000
  identityField : String := "id"
  wildcard : Char := '*'
deriving DecidableEq, Repr

namespace Config

/-- The table that flaws of the settings are told of. -/
def origin : String := "<config>"

/-- Refuses settings that no session can work with. -/
def validate (c : Config) : Except Error Unit :=
  if c.defaultPageSize = 0 then .error (.invalidMetadata origin .zeroDefaultPageSize)
  else if c.maxPageSize < c.defaultPageSize then
    .error (.invalidMetadata origin (.defaultPageSizeAbove c.defaultPageSize c.maxPageSize))
  else if Text.allBlank c.identityField then .error (.invalidMetadata origin .noIdentityField)
  else .ok ()

/-! ## Settings as JSON -/

/-- The names of the fields, in declared order. -/
def fieldNames : List String :=
  ["default_page_size", "max_page_size", "identity_field", "wildcard"]

/-- The settings that a document holds, not validated yet. -/
def ofDocument? (doc : Json.Document) : Option Config := do
  match ← doc.fields? fieldNames with
  | [defaultPageSize, maxPageSize, identityField, wildcard] =>
    return {
      defaultPageSize := ← Json.Document.orElse 100 Json.Document.count? defaultPageSize
      maxPageSize := ← Json.Document.orElse 1000 Json.Document.count? maxPageSize
      identityField := ← Json.Document.orElse "id" Json.Document.string? identityField
      wildcard := ← Json.Document.orElse '*' Json.Document.char? wildcard }
  | _ => none

/-- The settings that a text holds. -/
def read (text : String) : Except Error Config :=
  match (Json.Document.read? text).bind ofDocument? with
  | none => .error (.invalidMetadata origin .badSettings)
  | some config => config.validate.map fun _ => config

/-- The settings as a JSON value. -/
def toJson (c : Config) : Json :=
  .object [
    ("default_page_size", .nat c.defaultPageSize),
    ("max_page_size", .nat c.maxPageSize),
    ("identity_field", .string c.identityField),
    ("wildcard", .string (.singleton c.wildcard))]

end Config

end Rql
