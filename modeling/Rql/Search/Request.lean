import Rql.Search.Nesting
import Rql.Statement

/-!
# Search requests

A statement becomes a query, the part of the hits to return, and an order. The order ends with the
identity field, so that pages do not overlap. Missing values come first in ascending and last in
descending order.
-/

namespace Rql.Search

/-- What the compiler is set up with. -/
structure Settings where
  /-- The glyph that stands for any text in a value. -/
  wildcard : Char := '*'
  identityField : String := "id"

/-- The first value of a comparison. -/
def firstText (c : Comparison) : Except Error Literal :=
  match c.value? with
  | some l => .ok l
  | none => .error (.malformed (.noValue c))

/-- The clause for equality with a value. Null asks for a missing field, and a value with wildcards
is a pattern. -/
def equality (glyph : Char) (field : String) (l : Literal) : Clause :=
  if l.isNull then .negative (.present field)
  else if l.hasWildcard glyph then .positive (.wildcard field (Text.replaceChar glyph '*' l.text))
  else .positive (.term field l.text)

/-- The clause for the contrary of equality. -/
def inequality (glyph : Char) (field : String) (l : Literal) : Clause :=
  match equality glyph field l with
  | .positive q => .negative q
  | .negative q => .positive (.must [q])

/-- A pattern for each of the values. -/
def patterns (field before after : String) (values : List Literal) : List Query :=
  values.map fun l => .wildcard field (before ++ l.text ++ after)

/-- The clause of a comparison. -/
def leaf (glyph : Char) (c : Comparison) : Except Error Clause :=
  let range (bound : Bound) : Except Error Clause :=
    (firstText c).map fun l => .positive (.range c.field bound l.text)
  let texts := c.values.map Literal.text
  match c.op with
  | .eq => (firstText c).map (equality glyph c.field)
  | .ne => (firstText c).map (inequality glyph c.field)
  | .gt => range .gt
  | .ge => range .gte
  | .lt => range .lt
  | .le => range .lte
  | .sw => .ok (.positive (.should (patterns c.field "" "*" c.values)))
  | .ew => .ok (.positive (.should (patterns c.field "*" "" c.values)))
  | .w => .ok (.positive (.should (patterns c.field "*" "*" c.values)))
  | .wo => .ok (.positive (.mustNot (patterns c.field "*" "*" c.values)))
  | .isIn => .ok (.positive (.terms c.field texts))
  | .out => .ok (.negative (.terms c.field texts))
  | .n => .ok (.negative (.present c.field))
  | .nn => .ok (.positive (.must [.present c.field]))
  | .emp => .ok (.positive (.should [.term c.field "", .mustNot [.present c.field]]))
  | .nemp => .ok (.positive (.must [.mustNot [.term c.field ""], .must [.present c.field]]))
  | .search => (firstText c).map fun l => .positive (.fuzzy c.field l.text)

mutual

/-- A predicate among others. A group is a query of its own and lies in no nested object. -/
def memberOf (glyph : Char) : Predicate → Member
  | .compare c => ⟨some c.field.toList, leaf glyph c⟩
  | .group conjunction members =>
    ⟨none, (clausesBelow conjunction [] (membersOf glyph members)).map fun clauses =>
      .positive (combine conjunction clauses)⟩

/-- Predicates side by side. -/
def membersOf (glyph : Char) : List Predicate → List Member
  | [] => []
  | p :: rest => memberOf glyph p :: membersOf glyph rest

end

/-- The query of predicates side by side. -/
def queryOf (glyph : Char) (conjunction : Conjunction) (ps : List Predicate) :
    Except Error Query :=
  (clausesBelow conjunction [] (membersOf glyph ps)).map
    (combineOrAlone conjunction (ps.length == 1))

/-- The query of a single predicate. -/
def Query.ofPredicate (glyph : Char) (p : Predicate) : Except Error Query :=
  queryOf glyph .and [p]

/-- The query of a statement. -/
def Query.ofStatement (glyph : Char) (s : Statement) : Except Error Query :=
  match s.predicates with
  | [] => .ok .all
  | ps => queryOf glyph s.conjunction ps

/-- A field of the order. -/
structure SortField where
  field : String
  ascending : Bool
deriving DecidableEq, Repr

namespace SortField

/-- Where documents without the field come. -/
def missing (s : SortField) : String :=
  if s.ascending then "_first" else "_last"

/-- The keyword of the direction. -/
def order (s : SortField) : String :=
  if s.ascending then "asc" else "desc"

/-- The field as a JSON value. -/
def toJson (s : SortField) : Json :=
  Query.entry s.field (.object [("missing", .string s.missing), ("order", .string s.order)])

end SortField

/-- The order of the hits, with the identity field at its end unless it is in it already. -/
def sortFields (identityField : String) (orders : List Order) : List SortField :=
  let requested := orders.map fun o => SortField.mk o.field (o.direction == .asc)
  if requested.any fun s => Text.sameName s.field identityField then requested
  else requested ++ [⟨identityField, true⟩]

/-- A request to the search engine. -/
structure Request where
  size : Nat
  query : Query
  offset : Nat
  sort : List SortField

namespace Request

/-- The request of a statement. -/
def ofStatement (settings : Settings) (s : Statement) : Except Error Request :=
  (Query.ofStatement settings.wildcard s).map fun query =>
    { size := s.page.maxRows
      query
      offset := s.page.offset
      sort := sortFields settings.identityField s.order }

/-- The request as a JSON value. -/
def toJson (r : Request) : Json :=
  .object [
    ("size", .nat r.size),
    ("query", r.query.toJson),
    ("from", .nat r.offset),
    ("sort", .array (r.sort.map SortField.toJson))]

end Request

end Rql.Search
