import Rql.Partition.Condition

/-!
# Plans

A plan says how the rows that a statement asks for are got from a partition table: over which index,
with which key condition, and what is left to test.

An index is a candidate if some comparison that every row has to satisfy names its partition key. A
candidate serves the request if its sort key is the field that the rows are to be ordered by or,
where no order is asked for, a field that such a comparison names. The last candidate that serves is
taken, or else the last candidate at all, unless the primary index has the same partition key and so
does as well. Without candidates the whole table has to be scanned.

Of the predicates that every row has to satisfy, the first comparison that names the partition key
and the first that names the sort key go into the key condition. All others are excluded from it and
stay in their order; a filter stands for them if the store knows one.
-/

namespace Rql.Partition

/-! ## Choosing an index -/

/-- How rows are got at. -/
inductive Access where
  /-- From one partition. -/
  | query
  /-- From the whole table. -/
  | scan
deriving DecidableEq, Repr

/-- The keyword of the access. -/
def Access.keyword : Access → String
  | .query => "QUERY"
  | .scan => "SCAN"

/-- Some comparison names the field. -/
def covers (comparisons : List Comparison) (field : String) : Bool :=
  comparisons.any (Comparison.names field)

/-- The indexes whose partition key is covered. -/
def candidates (t : Table) (comparisons : List Comparison) : List Index :=
  t.indexes.filter fun i => covers comparisons i.partitionKey

/-- The sort key of the index is of use. -/
def serves (comparisons : List Comparison) (order : Option Order) (i : Index) : Bool :=
  match i.sortKey, order with
  | none, _ => false
  | some key, some o => Text.sameName o.field key
  | some key, none => covers comparisons key

/-- The last of some indexes to serve. -/
def lastServing (comparisons : List Comparison) (order : Option Order) (indexes : List Index) :
    Option Index :=
  indexes.foldl (fun found i => if serves comparisons order i then some i else found) none

/-- The index to take; `primary` is the primary index of the table. -/
def chooseIndex (t : Table) (comparisons : List Comparison) (order : Option Order)
    (primary : Index) : Index :=
  let found := candidates t comparisons
  match lastServing comparisons order found with
  | some i => i
  | none =>
    match found.getLast? with
    | some i => if Text.sameName i.partitionKey primary.partitionKey then primary else i
    | none => primary

/-! ## Making a plan -/

/-- How a statement is carried out. -/
structure Plan where
  index : Index
  access : Access
  keyCondition : Option KeyCondition
  /-- What the key condition does not cover. -/
  excluded : List Predicate
  /-- How the excluded predicates combine. -/
  conjunction : Conjunction
  filter : Option Filter
  /-- The order that the rows come in. -/
  order : Option Order
  limit : Nat
  marker : Option String

/-- The place of the first predicate that is a comparison with a field. -/
def positionOf (field : String) (ps : List Predicate) : Option Nat :=
  ps.findIdx? fun p => p.comparison?.any (Comparison.names field)

/-- The predicates without those at some places. -/
def dropPositions (positions : List Nat) (ps : List Predicate) : List Predicate :=
  (ps.zipIdx.filter fun (_, n) => !positions.contains n).map (·.1)

/-- The first of the comparisons with the partition key, all of which have to be equalities. -/
def partitionComparison (t : Table) (index : Index) (comparisons : List Comparison) :
    Except Error Comparison :=
  let named := comparisons.filter (Comparison.names index.partitionKey)
  match named.find? fun c => c.op != .eq with
  | some c => .error (.unsupportedOperator c.op c.field .partitionKeyEquality)
  | none =>
    match named with
    | c :: _ => .ok c
    | [] => .error (.invalidMetadata t.name .partitionKeyNotCovered)

/-- A comparison that a key condition can state of a sort key. -/
def fitsSortKey (c : Comparison) : Bool :=
  c.op.isSortKeyOperator && c.values.length == 1

/-- The first of the comparisons with the sort key, all of which have to fit one. -/
def sortComparison (index : Index) (comparisons : List Comparison) :
    Except Error (Option Comparison) :=
  match index.sortKey with
  | none => .ok none
  | some key =>
    let named := comparisons.filter (Comparison.names key)
    match named.find? fun c => !fitsSortKey c with
    | some c => .error (.unsupportedOperator c.op c.field .sortKeyOperators)
    | none => .ok named.head?

/-- The order that the rows come in. An order that was asked for has to be that of the index; an
index that is narrowed by its sort key gives its rows in ascending order. -/
def resolveOrder (index : Index) (requested : Option Order) (narrowed : Bool) :
    Except Error (Option Order) :=
  match requested, index.sortKey with
  | some o, some key =>
    if Text.sameName o.field key then .ok (some o)
    else .error (.unsupportedSort o.field (.indexOrder index.name (some key)))
  | some o, none => .error (.unsupportedSort o.field (.indexOrder index.name none))
  | none, some key => .ok (if narrowed then some ⟨key, .asc⟩ else none)
  | none, none => .ok none

/-- The value of the first literal of a comparison. -/
def keyValue (t : Table) (c : Comparison) : Except Error Json :=
  match c.value? with
  | some l => t.bind c.field l
  | none => .error (.malformed (.noValue c))

/-- The condition that a comparison with the sort key states. The text that a sort key starts with is
a text whatever the type of the column. -/
def sortCondition (t : Table) (c : Comparison) : Except Error SortCondition :=
  match c.op, c.value? with
  | .sw, some l => .ok ⟨c.field, .sw, .string l.text⟩
  | op, _ => (keyValue t c).map fun value => ⟨c.field, op, value⟩

/-- The key condition of a comparison with the partition key and perhaps one with the sort key. -/
def KeyCondition.ofComparisons (t : Table) (index : Index) (partition : Comparison)
    (sort : Option Comparison) : Except Error KeyCondition := do
  let sortKey ← match sort with
    | some c => (sortCondition t c).map some
    | none => .ok none
  return { partitionKey := index.partitionKey, partitionValue := ← keyValue t partition, sortKey }

namespace Plan

/-- The plan that reads the whole table. -/
def scan (glyph : Char) (t : Table) (s : Statement) (primary : Index) : Except Error Plan := do
  let filter ← Filter.ofPredicates glyph t s.conjunction s.predicates
  return {
    index := primary
    access := .scan
    keyCondition := none
    excluded := s.predicates
    conjunction := s.conjunction
    filter
    order := none
    limit := s.page.maxRows
    marker := s.page.marker }

/-- The plan that reads one partition of an index. -/
def query (glyph : Char) (t : Table) (s : Statement) (comparisons : List Comparison)
    (index : Index) : Except Error Plan := do
  let partition ← partitionComparison t index comparisons
  let sort ← sortComparison index comparisons
  let order ← resolveOrder index s.order.head? sort.isSome
  let condition ← KeyCondition.ofComparisons t index partition sort
  let absorbed := [some index.partitionKey, index.sortKey].filterMap fun key =>
    key.bind fun field => positionOf field s.conjuncts
  let excluded := dropPositions absorbed s.conjuncts
  let filter ← Filter.ofPredicates glyph t .and excluded
  return {
    index
    access := .query
    keyCondition := some condition
    excluded
    conjunction := .and
    filter
    order
    limit := s.page.maxRows
    marker := s.page.marker }

/-- The plan of a statement. -/
def ofStatement (glyph : Char) (t : Table) (s : Statement) : Except Error Plan :=
  match t.primaryIndex?, s.order with
  | none, _ => .error (.invalidMetadata t.name .noPrimaryIndex)
  | some _, _ :: second :: _ => .error (.unsupportedSort second.field .singleKey)
  | some primary, orders =>
    let comparisons := s.conjuncts.filterMap Predicate.comparison?
    if (candidates t comparisons).isEmpty then
      match orders.head? with
      | some o => .error (.unsupportedSort o.field .scan)
      | none => scan glyph t s primary
    else query glyph t s comparisons (chooseIndex t comparisons orders.head? primary)

/-- The plan as a JSON value. -/
def toJson (p : Plan) : Json :=
  .object [
    ("index", .string p.index.name),
    ("access", .string p.access.keyword),
    ("key_condition", (p.keyCondition.map KeyCondition.toJson).getD .null),
    ("excluded", .strings (p.excluded.map Predicate.render)),
    ("filter", (p.filter.map Filter.toJson).getD .null),
    ("order", .stringOrNull (p.order.map Order.render)),
    ("limit", .nat p.limit),
    ("marker", .stringOrNull p.marker)]

end Plan

end Rql.Partition
