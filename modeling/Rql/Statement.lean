import Rql.Predicate

/-!
# Statements

A statement is what one request asks of one table: predicates and how they combine, the order of the
rows, and which page of them. It is the same for every backend.
-/

namespace Rql

/-- Which way an order goes. -/
inductive Direction where
  | asc
  | desc
deriving DecidableEq, Repr

namespace Direction

/-- The keyword of the direction. -/
def keyword : Direction → String
  | .asc => "ASC"
  | .desc => "DESC"

end Direction

/-- An order on one field. -/
structure Order where
  field : String
  direction : Direction
deriving DecidableEq, Repr

namespace Order

/-- Field and direction. -/
def render (o : Order) : String :=
  o.field ++ " " ++ o.direction.keyword

end Order

/-- A page of the rows. -/
structure Page where
  /-- At most this many rows. -/
  maxRows : Nat := 100
  /-- Rows that are passed over. -/
  offset : Nat := 0
  /-- Where the page before this one ended, in the words of the backend. -/
  marker : Option String := none
deriving DecidableEq, Repr

/-- A request for rows of a table. -/
structure Statement where
  table : String
  conjunction : Conjunction := .and
  predicates : List Predicate := []
  order : List Order := []
  page : Page := {}
deriving DecidableEq, Repr

namespace Statement

/-- The predicates that every row has to satisfy: under `and` those of the statement, with inner
`and` groups taken apart and `or` groups left whole; under `or` none. -/
def conjuncts (s : Statement) : List Predicate :=
  match s.conjunction with
  | .and => Predicate.flattenMembers .and s.predicates
  | .or => []

/-- How deep groups lie inside one another, where several predicates form a group of their own. -/
def depth (s : Statement) : Nat :=
  let inner := Predicate.depthOfMembers s.predicates
  if 1 < s.predicates.length then inner + 1 else inner

/-- The comparisons of the statement from left to right. -/
def comparisons (s : Statement) : List Comparison :=
  Predicate.comparisonsOfMembers s.predicates

end Statement

end Rql
