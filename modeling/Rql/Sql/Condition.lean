import Rql.Statement
import Rql.Table.Basic

/-!
# SQL conditions

A predicate becomes a condition on columns, and the condition is written with a placeholder wherever
a value stands. Text and values come from the same tree: `render` writes the placeholders from left
to right and `params` lists their values in that order. No literal is part of the text.
-/

namespace Rql.Sql

/-- A column of a table, by their declared names. -/
structure ColumnRef where
  table : String
  column : String
deriving DecidableEq, Repr

/-- The column with its table, quoted. -/
def ColumnRef.render (d : Dialect) (c : ColumnRef) : String :=
  d.qualify c.table c.column

/-- How a column is compared with a value. -/
inductive Relation where
  | eq
  | ne
  | gt
  | ge
  | lt
  | le
  | like
  | notLike
deriving DecidableEq, Repr

/-- The symbol of the relation. -/
def Relation.symbol : Relation → String
  | .eq => "="
  | .ne => "<>"
  | .gt => ">"
  | .ge => ">="
  | .lt => "<"
  | .le => "<="
  | .like => "LIKE"
  | .notLike => "NOT LIKE"

/-- A condition on the columns of a row. -/
inductive Condition where
  | isNull (c : ColumnRef)
  | isNotNull (c : ColumnRef)
  | test (c : ColumnRef) (relation : Relation) (value : Json)
  | isIn (c : ColumnRef) (values : List Json)
  | notIn (c : ColumnRef) (values : List Json)
  /-- Conditions in parentheses. -/
  | group (conjunction : Conjunction) (parts : List Condition)
deriving Inhabited

namespace Condition

/-- A placeholder for each of the values, in parentheses. -/
def placeholders (values : List Json) : String :=
  "(" ++ Text.join ", " (values.map fun _ => "?") ++ ")"

mutual

/-- The text of a condition. -/
def render (d : Dialect) : Condition → String
  | .isNull c => c.render d ++ " IS NULL"
  | .isNotNull c => c.render d ++ " IS NOT NULL"
  | .test c relation _ => c.render d ++ " " ++ relation.symbol ++ " ?"
  | .isIn c values => c.render d ++ " IN " ++ placeholders values
  | .notIn c values => c.render d ++ " NOT IN " ++ placeholders values
  | .group conjunction parts => "(" ++ renderParts d conjunction parts ++ ")"

/-- The texts of conditions with a conjunction between them. -/
def renderParts (d : Dialect) (conjunction : Conjunction) : List Condition → String
  | [] => ""
  | [part] => render d part
  | part :: rest => render d part ++ conjunction.keyword ++ renderParts d conjunction rest

end

mutual

/-- The values of the placeholders from left to right. -/
def params : Condition → List Json
  | .isNull _ | .isNotNull _ => []
  | .test _ _ value => [value]
  | .isIn _ values | .notIn _ values => values
  | .group _ parts => paramsOfParts parts

/-- The values of the placeholders of all parts. -/
def paramsOfParts : List Condition → List Json
  | [] => []
  | part :: rest => params part ++ paramsOfParts rest

end

/-- A condition that stands alone needs no parentheses. -/
def combine (conjunction : Conjunction) : List Condition → Condition
  | [part] => part
  | parts => .group conjunction parts

end Condition

/-- The column that a field names. -/
def column (t : Table) (field : String) : Except Error ColumnRef :=
  match t.column? field with
  | some c => .ok ⟨t.name, c.name⟩
  | none => .error (.unknownField t.name field)

/-- The first value of a comparison. -/
def firstValue (c : Comparison) : Except Error Literal :=
  match c.value? with
  | some l => .ok l
  | none => .error (.malformed (.noValue c))

/-- The pattern that a value with wildcards stands for. -/
def likePattern (glyph : Char) (l : Literal) : Json :=
  .string (Text.replaceChar glyph '%' l.text)

/-- Equality with a value, or the contrary. Null asks whether there is a value at all, and a value
with wildcards is a pattern. -/
def equality (glyph : Char) (col : ColumnRef) (equal : Bool) (l : Literal) : Condition :=
  if l.isNull then if equal then .isNull col else .isNotNull col
  else if l.hasWildcard glyph then
    .test col (if equal then .like else .notLike) (likePattern glyph l)
  else .test col (if equal then .eq else .ne) l.toJson

/-- A comparison with each of the values as part of a pattern. -/
def patterns (col : ColumnRef) (relation : Relation) (before after : String)
    (values : List Literal) : List Condition :=
  values.map fun l => .test col relation (.string (before ++ l.text ++ after))

/-- The condition of a comparison on a column. -/
def Condition.ofColumn (glyph : Char) (col : ColumnRef) (c : Comparison) :
    Except Error Condition :=
  let ordering (relation : Relation) : Except Error Condition :=
    (firstValue c).map fun l => .test col relation l.toJson
  match c.op with
  | .eq => (firstValue c).map (equality glyph col true)
  | .ne => (firstValue c).map (equality glyph col false)
  | .gt => ordering .gt
  | .ge => ordering .ge
  | .lt => ordering .lt
  | .le => ordering .le
  | .isIn => .ok (.isIn col (c.values.map Literal.toJson))
  | .out => .ok (.notIn col (c.values.map Literal.toJson))
  | .sw => .ok (.combine .or (patterns col .like "" "%" c.values))
  | .ew => .ok (.combine .or (patterns col .like "%" "" c.values))
  | .w => .ok (.combine .or (patterns col .like "%" "%" c.values))
  | .wo => .ok (.combine .and (patterns col .notLike "%" "%" c.values))
  | .n => .ok (.isNull col)
  | .nn => .ok (.isNotNull col)
  | .emp => .ok (.group .or [.isNull col, .test col .eq (.string "")])
  | .nemp => .ok (.group .and [.isNotNull col, .test col .ne (.string "")])
  | .search => .error (.unsupportedOperator .search c.field .noFullText)

/-- The condition of a comparison. -/
def Condition.ofComparison (glyph : Char) (t : Table) (c : Comparison) : Except Error Condition :=
  match column t c.field with
  | .error e => .error e
  | .ok col => ofColumn glyph col c

namespace Condition

mutual

/-- The condition of a predicate. -/
def ofPredicate (glyph : Char) (t : Table) : Predicate → Except Error Condition
  | .compare c => ofComparison glyph t c
  | .group conjunction members =>
    match ofPredicates glyph t members with
    | .error e => .error e
    | .ok parts => .ok (.group conjunction parts)

/-- The conditions of predicates, up to the first that has none. -/
def ofPredicates (glyph : Char) (t : Table) : List Predicate → Except Error (List Condition)
  | [] => .ok []
  | p :: rest =>
    match ofPredicate glyph t p with
    | .error e => .error e
    | .ok part =>
      match ofPredicates glyph t rest with
      | .error e => .error e
      | .ok parts => .ok (part :: parts)

end

/-- The condition of a statement, none if every row will do. -/
def ofStatement (glyph : Char) (t : Table) (s : Statement) : Except Error (Option Condition) :=
  match ofPredicates glyph t s.predicates with
  | .error e => .error e
  | .ok [] => .ok none
  | .ok parts => .ok (some (combine s.conjunction parts))

end Condition

end Rql.Sql
