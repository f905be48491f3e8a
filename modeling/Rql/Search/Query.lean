import Rql.Comparison

/-!
# Search queries

The queries of a search engine. The leaves ask something of one field. A `bool` query has four lists
of clauses: those that must match, those that filter, those that must not match, and those of which
one should match. A `nested` query asks its query of each of the objects at a path.
-/

namespace Rql.Search

/-- A bound of a range. -/
inductive Bound where
  | gt
  | gte
  | lt
  | lte
deriving DecidableEq, Repr

/-- The keyword of the bound. -/
def Bound.keyword : Bound → String
  | .gt => "gt"
  | .gte => "gte"
  | .lt => "lt"
  | .lte => "lte"

/-- A query. -/
inductive Query where
  | bool (must filter mustNot should : List Query)
  | term (field value : String)
  | terms (field : String) (values : List String)
  | range (field : String) (bound : Bound) (value : String)
  | wildcard (field pattern : String)
  | fuzzy (field value : String)
  | present (field : String)
  | nested (path : String) (query : Query)
deriving Inhabited

namespace Query

/-- The query that every document matches. -/
def all : Query := .bool [] [] [] []

/-- All of the queries have to match. -/
def must (queries : List Query) : Query := .bool queries [] [] []

/-- None of the queries may match. -/
def mustNot (queries : List Query) : Query := .bool [] [] queries []

/-- One of the queries has to match. -/
def should (queries : List Query) : Query := .bool [] [] [] queries

mutual

/-- The paths of the nested queries, outer ones in front of inner ones. -/
def nestedPaths : Query → List String
  | .bool must filter mustNot should =>
    nestedPathsOf must ++ nestedPathsOf filter ++ nestedPathsOf mustNot ++ nestedPathsOf should
  | .nested path query => path :: nestedPaths query
  | _ => []

/-- The paths of the nested queries of all clauses. -/
def nestedPathsOf : List Query → List String
  | [] => []
  | q :: rest => nestedPaths q ++ nestedPathsOf rest

end

/-- An object with a single member. -/
def entry (name : String) (value : Json) : Json :=
  .object [(name, value)]

/-- The lists of clauses that are not empty, with their names. -/
def clauseMembers (lists : List (String × List Json)) : List (String × Json) :=
  (lists.filter (!·.2.isEmpty)).map fun (name, clauses) => (name, .array clauses)

mutual

/-- The query as a JSON value. -/
def toJson : Query → Json
  | .bool must filter mustNot should =>
    entry "bool" (.object (clauseMembers [("must", toJsons must), ("filter", toJsons filter),
      ("must_not", toJsons mustNot), ("should", toJsons should)]))
  | .term field value => entry "term" (entry field (.string value))
  | .terms field values => entry "terms" (entry field (.strings values))
  | .range field bound value =>
    entry "range" (entry field (entry bound.keyword (.string value)))
  | .wildcard field pattern => entry "wildcard" (entry field (.string pattern))
  | .fuzzy field value => entry "fuzzy" (entry field (.string value))
  | .present field => entry "exists" (entry "field" (.string field))
  | .nested path query =>
    entry "nested" (.object [("path", .string path), ("query", toJson query)])

/-- The queries as JSON values. -/
def toJsons : List Query → List Json
  | [] => []
  | q :: rest => toJson q :: toJsons rest

end

end Query

end Rql.Search
