import Rql.Statement
import Rql.Table.Basic

/-!
# Key conditions and filters

A query of a partition table names one partition by the value of its key and may narrow it by a
condition on the sort key. Names and values stand behind placeholders, `#hk` and `:hk` for the
partition key, `#sk` and `:sk` for the sort key.

What a key condition does not cover the store can still test row by row, if the predicates have a
form that it knows. Patterns, endings, emptiness and full-text search have none, and one predicate
without a form leaves the whole list without a filter. Names and values stand behind placeholders
again: `#f0`, `#f1`, … for the fields in the order in which they first occur, each once, and `:v0`,
`:v1`, … for the values in the order in which they are written.
-/

namespace Rql.Partition

/-! ## Key conditions -/

/-- The symbol of an operator in a condition; the operators without a symbol of their own are
written as equality. -/
def symbol : Operator → String
  | .ne => "<>"
  | .gt => ">"
  | .ge => ">="
  | .lt => "<"
  | .le => "<="
  | _ => "="

/-- A condition on the sort key. -/
structure SortCondition where
  field : String
  op : Operator
  value : Json

/-- A condition that picks a partition, or a range of one. -/
structure KeyCondition where
  partitionKey : String
  partitionValue : Json
  sortKey : Option SortCondition := none

namespace SortCondition

/-- The condition with a name and a value in their places. -/
def render (s : SortCondition) (name value : String) : String :=
  if s.op = .sw then "begins_with(" ++ name ++ ", " ++ value ++ ")"
  else name ++ " " ++ symbol s.op ++ " " ++ value

end SortCondition

namespace KeyCondition

/-- The condition with placeholders. -/
def expression (k : KeyCondition) : String :=
  "#hk = :hk" ++ ((k.sortKey.map fun s => " AND " ++ s.render "#sk" ":sk").getD "")

/-- The names behind the placeholders. -/
def names (k : KeyCondition) : List (String × String) :=
  ("#hk", k.partitionKey) :: (k.sortKey.map fun s => ("#sk", s.field)).toList

/-- The values behind the placeholders. -/
def values (k : KeyCondition) : List (String × Json) :=
  (":hk", k.partitionValue) :: (k.sortKey.map fun s => (":sk", s.value)).toList

/-- The condition with names and values in place of the placeholders. -/
def display (k : KeyCondition) : String :=
  k.partitionKey ++ " = " ++ k.partitionValue.render
    ++ ((k.sortKey.map fun s => " AND " ++ s.render s.field s.value.render).getD "")

/-- The condition as a JSON value. -/
def toJson (k : KeyCondition) : Json :=
  .object [
    ("expression", .string k.expression),
    ("names", .sortedObject (k.names.map fun (mark, name) => (mark, .string name))),
    ("values", .sortedObject k.values),
    ("display", .string k.display)]

end KeyCondition

/-! ## Filters -/

/-- What a store can test of a row. -/
inductive Condition where
  | absent (field : String)
  | present (field : String)
  | test (field : String) (op : Operator) (value : Json)
  /-- Begins with one of the texts. -/
  | beginsWith (field : String) (texts : List String)
  /-- Contains one of the texts. -/
  | contains (field : String) (texts : List String)
  /-- Contains none of the texts. -/
  | lacks (field : String) (texts : List String)
  | isIn (field : String) (values : List Json)
  | notIn (field : String) (values : List Json)
  /-- Conditions in parentheses. -/
  | group (conjunction : Conjunction) (parts : List Condition)
deriving Inhabited

namespace Condition

mutual

/-- The fields of a condition from left to right. -/
def fields : Condition → List String
  | .absent field | .present field | .test field .. | .beginsWith field _ | .contains field _
  | .lacks field _ | .isIn field _ | .notIn field _ => [field]
  | .group _ parts => fieldsOfParts parts

/-- The fields of all parts. -/
def fieldsOfParts : List Condition → List String
  | [] => []
  | part :: rest => fields part ++ fieldsOfParts rest

end

mutual

/-- The values of a condition from left to right. -/
def values : Condition → List Json
  | .absent _ | .present _ => []
  | .test _ _ value => [value]
  | .beginsWith _ texts | .contains _ texts | .lacks _ texts => texts.map .string
  | .isIn _ values | .notIn _ values => values
  | .group _ parts => valuesOfParts parts

/-- The values of all parts. -/
def valuesOfParts : List Condition → List Json
  | [] => []
  | part :: rest => values part ++ valuesOfParts rest

end

/-- The placeholder of the name with a number. -/
def namePlaceholder (n : Nat) : String := "#f" ++ toString n

/-- The placeholder of the value with a number. -/
def valuePlaceholder (n : Nat) : String := ":v" ++ toString n

/-- The placeholder of a field, by its place among all fields. -/
def nameIn (names : List String) (field : String) : String :=
  namePlaceholder (names.idxOf field)

/-- As many placeholders of values, from the number `next` on. -/
def placeholders (next count : Nat) : List String :=
  (List.range' next count).map valuePlaceholder

/-- Texts with a conjunction between them, in parentheses unless there is just one. -/
def wrap (conjunction : Conjunction) : List String → String
  | [text] => text
  | texts => "(" ++ Text.join conjunction.keyword texts ++ ")"

/-- A function of a field and a value. -/
def call (function name value : String) : String :=
  function ++ "(" ++ name ++ ", " ++ value ++ ")"

/-- Membership in a list of values. -/
def renderIn (name : String) (marks : List String) : String :=
  name ++ " IN (" ++ Text.join ", " marks ++ ")"

mutual

/-- The text of a condition, where the placeholders of values start at the number `next`. -/
def render (names : List String) (next : Nat) : Condition → String
  | .absent field => "attribute_not_exists(" ++ nameIn names field ++ ")"
  | .present field => "attribute_exists(" ++ nameIn names field ++ ")"
  | .test field op _ => nameIn names field ++ " " ++ symbol op ++ " " ++ valuePlaceholder next
  | .beginsWith field texts =>
    wrap .or ((placeholders next texts.length).map (call "begins_with" (nameIn names field)))
  | .contains field texts =>
    wrap .or ((placeholders next texts.length).map (call "contains" (nameIn names field)))
  | .lacks field texts =>
    wrap .and ((placeholders next texts.length).map fun mark =>
      "NOT " ++ call "contains" (nameIn names field) mark)
  | .isIn field values => renderIn (nameIn names field) (placeholders next values.length)
  | .notIn field values =>
    "NOT (" ++ renderIn (nameIn names field) (placeholders next values.length) ++ ")"
  | .group conjunction parts => "(" ++ renderParts names conjunction next parts ++ ")"

/-- The texts of conditions with a conjunction between them. -/
def renderParts (names : List String) (conjunction : Conjunction) (next : Nat) :
    List Condition → String
  | [] => ""
  | [part] => render names next part
  | part :: rest =>
    render names next part ++ conjunction.keyword
      ++ renderParts names conjunction (next + part.values.length) rest

end

end Condition

/-- Why a predicate becomes no condition. -/
inductive Obstacle where
  /-- The store knows no form of it. -/
  | noForm
  /-- A value does not fit its column. -/
  | error (e : Error)

/-- The value of a literal that is compared with a field. -/
def bindValue (t : Table) (field : String) (l : Literal) : Except Obstacle Json :=
  (t.bind field l).mapError .error

/-- The first value of a comparison. -/
def firstValue (c : Comparison) : Except Obstacle Literal :=
  match c.value? with
  | some l => .ok l
  | none => .error .noForm

namespace Condition

/-- Equality with a value, or the contrary. -/
def equality (glyph : Char) (t : Table) (c : Comparison) (null : Condition) :
    Except Obstacle Condition := do
  let l ← firstValue c
  if l.hasWildcard glyph then throw .noForm
  else if l.isNull then return null
  else return .test c.field c.op (← bindValue t c.field l)

/-- The condition of a comparison. -/
def ofComparison (glyph : Char) (t : Table) (c : Comparison) : Except Obstacle Condition :=
  let texts := c.values.map Literal.text
  match c.op with
  | .eq => equality glyph t c (.absent c.field)
  | .ne => equality glyph t c (.present c.field)
  | .gt | .ge | .lt | .le => do
    return .test c.field c.op (← bindValue t c.field (← firstValue c))
  | .sw => .ok (.beginsWith c.field texts)
  | .w => .ok (.contains c.field texts)
  | .wo => .ok (.lacks c.field texts)
  | .isIn => (c.values.mapM (bindValue t c.field)).map (.isIn c.field)
  | .out => (c.values.mapM (bindValue t c.field)).map (.notIn c.field)
  | .n => .ok (.absent c.field)
  | .nn => .ok (.present c.field)
  | .ew | .search | .emp | .nemp => .error .noForm

mutual

/-- The condition of a predicate. -/
def ofPredicate (glyph : Char) (t : Table) : Predicate → Except Obstacle Condition
  | .compare c => ofComparison glyph t c
  | .group conjunction members =>
    match ofPredicates glyph t members with
    | .error e => .error e
    | .ok parts => .ok (.group conjunction parts)

/-- The conditions of predicates, up to the first that has none. -/
def ofPredicates (glyph : Char) (t : Table) : List Predicate → Except Obstacle (List Condition)
  | [] => .ok []
  | p :: rest =>
    match ofPredicate glyph t p with
    | .error e => .error e
    | .ok part =>
      match ofPredicates glyph t rest with
      | .error e => .error e
      | .ok parts => .ok (part :: parts)

end

end Condition

/-- Conditions with a conjunction between them, which need no parentheses around them. -/
structure Filter where
  conjunction : Conjunction
  parts : List Condition

namespace Filter

/-- The filter of predicates, none if there are no predicates or one of them has no form. A value
that does not fit its column is an error only if no predicate before it lacks a form. -/
def ofPredicates (glyph : Char) (t : Table) (conjunction : Conjunction) (ps : List Predicate) :
    Except Error (Option Filter) :=
  match ps with
  | [] => .ok none
  | _ =>
    match Condition.ofPredicates glyph t ps with
    | .ok parts => .ok (some ⟨conjunction, parts⟩)
    | .error .noForm => .ok none
    | .error (.error e) => .error e

/-- Adds a field that is not there yet. -/
def addField (names : List String) (field : String) : List String :=
  if names.contains field then names else names ++ [field]

/-- The fields in the order in which they first occur. -/
def fields (f : Filter) : List String :=
  (Condition.fieldsOfParts f.parts).foldl addField []

/-- The values in the order in which they are written. -/
def boundValues (f : Filter) : List Json :=
  Condition.valuesOfParts f.parts

/-- The filter with placeholders. -/
def expression (f : Filter) : String :=
  Condition.renderParts f.fields f.conjunction 0 f.parts

/-- The names behind the placeholders. -/
def names (f : Filter) : List (String × String) :=
  f.fields.zipIdx.map fun (field, n) => (Condition.namePlaceholder n, field)

/-- The values behind the placeholders. -/
def values (f : Filter) : List (String × Json) :=
  f.boundValues.zipIdx.map fun (value, n) => (Condition.valuePlaceholder n, value)

/-- The filter as a JSON value. -/
def toJson (f : Filter) : Json :=
  .object [
    ("expression", .string f.expression),
    ("names", .sortedObject (f.names.map fun (mark, name) => (mark, .string name))),
    ("values", .sortedObject f.values)]

end Filter

end Rql.Partition
