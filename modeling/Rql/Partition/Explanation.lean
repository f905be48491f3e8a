import Rql.Partition.Plan

/-!
# Explanations

What became of a statement, in lines for a reader: the parts of its plan one by one, or the error
that it was refused with.
-/

namespace Rql.Partition

/-- What a line is about. -/
inductive Label where
  | index
  | access
  | key
  | excluded
  | filter
  | order
  | limit
  | marker
  | code
  | reason
deriving DecidableEq, Repr

/-- The word in front of the line. -/
def Label.word : Label → String
  | .index => "index"
  | .access => "access"
  | .key => "key"
  | .excluded => "excluded"
  | .filter => "filter"
  | .order => "order"
  | .limit => "limit"
  | .marker => "marker"
  | .code => "code"
  | .reason => "reason"

/-- A statement that was planned or refused, with what there is to say about it. -/
structure Explanation where
  accepted : Bool
  rows : List (Label × String)
deriving DecidableEq, Repr

namespace Explanation

/-- The explanation of a plan. -/
def ofPlan (p : Plan) : Explanation where
  accepted := true
  rows :=
    [(.index, p.index.name), (.access, p.access.keyword)]
      ++ (p.keyCondition.map fun k => (Label.key, k.display)).toList
      ++ p.excluded.map (fun e => (.excluded, e.render))
      ++ (p.filter.map fun f => (Label.filter, f.expression)).toList
      ++ (p.order.map fun o => (Label.order, o.render)).toList
      ++ [(.limit, toString p.limit)]
      ++ (p.marker.map fun m => (Label.marker, m)).toList

/-- The explanation of a refusal. -/
def ofError (e : Error) : Explanation where
  accepted := false
  rows := [(.code, e.code), (.reason, e.message)]

/-- What the first line about a matter says of an accepted statement. -/
def row? (x : Explanation) (label : Label) : Option String :=
  if x.accepted then x.rows.lookup label else none

/-- Lines start with a label that takes up this many characters at least. -/
def labelWidth : Nat := 9

/-- One line. -/
def renderRow (row : Label × String) : String :=
  let word := row.1.word
  "  " ++ word ++ .ofList (List.replicate (labelWidth - word.length) ' ') ++ row.2 ++ "\n"

/-- All lines, with one about the outcome in front. -/
def render (x : Explanation) : String :=
  (if x.accepted then "plan: accepted\n" else "plan: rejected\n")
    ++ Text.join "" (x.rows.map renderRow)

end Explanation

end Rql.Partition
