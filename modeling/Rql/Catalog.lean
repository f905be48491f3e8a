import Rql.Table.Json

/-!
# Catalogs

A catalog holds the tables that requests may name. A name is found in any case, so no two tables
have names that differ in case alone. The tables stand in the order of their names in small letters.

Descriptors are the files of a directory whose names end in `.json`. They are loaded one after the
other in the order of their names, whatever order the directory lists them in. Loading stops at the
first flaw; tables that have been added before it stay.
-/

namespace Rql

/-- The tables that are known. -/
structure Catalog where
  tables : List Table := []
deriving DecidableEq, Repr

namespace Catalog

/-- No tables. -/
def empty : Catalog := {}

/-- The name that a table is found by. -/
def key (t : Table) : String :=
  Text.foldCase t.name

/-- The table with a name. -/
def find? (c : Catalog) (name : String) : Option Table :=
  c.tables.find? fun t => key t = Text.foldCase name

/-- Puts a table in front of the first one with a greater name. -/
def insertTable (t : Table) : List Table → List Table
  | [] => [t]
  | other :: rest => if key t < key other then t :: other :: rest else other :: insertTable t rest

/-- Adds a table that is valid and whose name is free. -/
def register (c : Catalog) (t : Table) : Except Error Catalog :=
  match t.validate with
  | .error e => .error e
  | .ok () =>
    if (c.find? t.name).isSome then .error (.invalidMetadata t.name .definedTwice)
    else .ok ⟨insertTable t c.tables⟩

/-! ## Loading tables from a directory -/

/-- A file of a directory. What cannot be read as text, a directory for instance, has no text. -/
structure File where
  name : String
  text : Option String
deriving DecidableEq, Repr

/-- A directory: where it is, and its files, none if it cannot be read. -/
structure Directory where
  path : String
  files : Option (List File)

/-- The path of a file in a directory. -/
def Directory.pathOf (dir : Directory) (name : String) : String :=
  if dir.path.toList.getLast? = some '/' then dir.path ++ name else dir.path ++ "/" ++ name

/-- The name has an ending `.json` with something in front of it. -/
def isDescriptorName (name : String) : Bool :=
  match Text.splitLast? '.' name.toList with
  | some (_ :: _, ending) => ending == "json".toList
  | _ => false

/-- The descriptors among some files, in the order of their names. -/
def descriptors (files : List File) : List File :=
  (files.filter fun f => isDescriptorName f.name).mergeSort fun a b => a.name ≤ b.name

/-- The tables of a descriptor. -/
def tablesOf (dir : Directory) (f : File) : Except Error (List Table) :=
  match f.text with
  | none => .error (.invalidMetadata (dir.pathOf f.name) .unreadableFile)
  | some text =>
    match Table.readDescriptor? text with
    | none => .error (.invalidMetadata (dir.pathOf f.name) .badDescriptor)
    | some tables => .ok tables

/-- A catalog, and the error that ended the loading, if one did. -/
abbrev Loaded := Catalog × Option Error

/-- Adds tables up to the first that cannot be added. -/
def registerAll (c : Catalog) : List Table → Loaded
  | [] => (c, none)
  | t :: rest =>
    match c.register t with
    | .error e => (c, some e)
    | .ok c => registerAll c rest

/-- Adds the tables of a descriptor. -/
def loadFile (dir : Directory) (c : Catalog) (f : File) : Loaded :=
  match tablesOf dir f with
  | .error e => (c, some e)
  | .ok tables => c.registerAll tables

/-- Adds the tables of descriptors up to the first flaw. -/
def loadFiles (dir : Directory) (c : Catalog) : List File → Loaded
  | [] => (c, none)
  | f :: rest =>
    match loadFile dir c f with
    | (c, none) => loadFiles dir c rest
    | (c, some e) => (c, some e)

/-- Adds the tables of a directory. -/
def load (c : Catalog) (dir : Directory) : Loaded :=
  match dir.files with
  | none => (c, some (.invalidMetadata dir.path .unreadableDirectory))
  | some files => loadFiles dir c (descriptors files)

end Catalog

end Rql
