import Rql.Term.Basic

/-!
# Comparisons

A comparison asks one thing of one field. It is written as a call of its operator with the field as
the first argument and the values behind it. There are seventeen operators and two conjunctions that
combine comparisons to groups. Their tokens are found in any case and written in small letters. The
number of values that an operator takes behind its field is its arity.
-/

namespace Rql

/-! ## Operators -/

/-- How many values an operator takes. -/
inductive Arity where
  | exactly (n : Nat)
  | atLeast (n : Nat)
deriving DecidableEq, Repr

namespace Arity

/-- The arity allows for this many values. -/
def accepts : Arity → Nat → Bool
  | .exactly n, count => count == n
  | .atLeast n, count => n ≤ count

/-- The arity in words. -/
def render : Arity → String
  | .exactly n => "exactly " ++ toString n
  | .atLeast n => "at least " ++ toString n

end Arity

/-- What a comparison asks of its field. -/
inductive Operator where
  /-- Is equal. -/
  | eq
  /-- Is not equal. -/
  | ne
  /-- Is greater. -/
  | gt
  /-- Is greater or equal. -/
  | ge
  /-- Is less. -/
  | lt
  /-- Is less or equal. -/
  | le
  /-- Starts with one of the values. -/
  | sw
  /-- Ends with one of the values. -/
  | ew
  /-- Contains one of the values. -/
  | w
  /-- Contains none of the values. -/
  | wo
  /-- Is one of the values. -/
  | isIn
  /-- Is none of the values. -/
  | out
  /-- Is null. -/
  | n
  /-- Is not null. -/
  | nn
  /-- Is null or the empty text. -/
  | emp
  /-- Is neither null nor the empty text. -/
  | nemp
  /-- Resembles the value. -/
  | search
deriving DecidableEq, Repr

namespace Operator

/-- All operators, in the order of their declaration. -/
def all : List Operator :=
  [.eq, .ne, .gt, .ge, .lt, .le, .sw, .ew, .w, .wo, .isIn, .out, .n, .nn, .emp, .nemp, .search]

/-- The name of the operator in a query. -/
def token : Operator → String
  | .eq => "eq"
  | .ne => "ne"
  | .gt => "gt"
  | .ge => "ge"
  | .lt => "lt"
  | .le => "le"
  | .sw => "sw"
  | .ew => "ew"
  | .w => "w"
  | .wo => "wo"
  | .isIn => "in"
  | .out => "out"
  | .n => "n"
  | .nn => "nn"
  | .emp => "emp"
  | .nemp => "nemp"
  | .search => "search"

/-- The operator with a name. -/
def ofToken? (name : String) : Option Operator :=
  all.find? fun op => Text.sameName op.token name

/-- How many values the operator takes. -/
def arity : Operator → Arity
  | .eq | .ne | .gt | .ge | .lt | .le | .search => .exactly 1
  | .sw | .ew | .w | .wo | .isIn | .out => .atLeast 1
  | .n | .nn | .emp | .nemp => .exactly 0

/-- Compares for equality or order. -/
def isRelational : Operator → Bool
  | .eq | .ne | .gt | .ge | .lt | .le => true
  | _ => false

/-- Compares for order. -/
def isRange : Operator → Bool
  | .gt | .ge | .lt | .le => true
  | _ => false

/-- A condition on a sort key may use the operator. -/
def isSortKeyOperator : Operator → Bool
  | .eq | .gt | .ge | .lt | .le | .sw => true
  | _ => false

end Operator

/-! ## Conjunctions -/

/-- How the members of a group combine. -/
inductive Conjunction where
  | and
  | or
deriving DecidableEq, Repr, Inhabited

namespace Conjunction

/-- The name of the conjunction in a query. -/
def token : Conjunction → String
  | .and => "and"
  | .or => "or"

/-- The conjunction with a name. -/
def ofToken? (name : String) : Option Conjunction :=
  [.and, .or].find? fun c => Text.sameName (token c) name

/-- The keyword between two conditions, with its blanks. -/
def keyword : Conjunction → String
  | .and => " AND "
  | .or => " OR "

end Conjunction

/-! ## Comparisons -/

/-- An operator with its field and values. -/
structure Comparison where
  op : Operator
  /-- The field, in the case it was written in. -/
  field : String
  values : List Literal
deriving DecidableEq, Repr

namespace Comparison

/-- The comparison as it stands in a query. -/
def render (c : Comparison) : String :=
  c.op.token ++ "(" ++ Text.join "," (c.field :: c.values.map Literal.render) ++ ")"

/-- The first value. -/
def value? (c : Comparison) : Option Literal :=
  c.values.head?

/-- The comparison names a field, whatever the case of its letters. -/
def names (field : String) (c : Comparison) : Bool :=
  Text.sameName c.field field

end Comparison

end Rql
