import Rql.Config
import Rql.Statement
import Rql.Term.Reader

/-!
# Parameters of a request

A parameter is a key with a value. Some keys are reserved, in any case, for the order and the page
of the rows and for what becomes of them later; each of these is read on its own. Every other
parameter is a predicate, in one of three notations:

* `op(field,value)` without a value: the predicate itself;
* `field=op(value)`: the operator with the field put in front of its arguments;
* `field=value`: equality.

The value of an order parameter is a list of fields with commas between them. The direction is a
sign in front of the field, `+` or `-`, or one of the endings `.asc` and `.desc` in any case; a sign
is looked for first. A field with neither is in ascending order. Empty entries are passed over, but
an entry that has a direction has a field.
-/

namespace Rql

/-! ## Lists of orders -/

namespace Order

/-- The order that an entry without sign stands for. -/
def ofSuffixed (cs : List Char) : Order :=
  match Text.splitLast? '.' cs with
  | some (field, ending) =>
    if Text.sameName (.ofList ending) "desc" then ⟨.ofList field, .desc⟩
    else if Text.sameName (.ofList ending) "asc" then ⟨.ofList field, .asc⟩
    else ⟨.ofList cs, .asc⟩
  | none => ⟨.ofList cs, .asc⟩

/-- The order that an entry stands for. -/
def ofEntry (cs : List Char) : Order :=
  match cs with
  | '-' :: rest => ⟨.ofList (Text.trim rest), .desc⟩
  | '+' :: rest => ⟨.ofList (Text.trim rest), .asc⟩
  | _ => ofSuffixed cs

/-- The entries of a list that are not empty. -/
def entries (value : String) : List (List Char) :=
  ((Text.splitOn ',' value.toList).map Text.trim).filter (!·.isEmpty)

/-- The orders of a list. -/
def readList (value : String) : Except Fault (List Order) :=
  (entries value).mapM fun entry =>
    let order := ofEntry entry
    if order.field = "" then .error (.emptyOrderField value) else .ok order

end Order

/-! ## Parameters -/

/-- What a parameter says. -/
inductive Parameter where
  | order (orders : List Order)
  | pageSize (size : Nat)
  | offset (rows : Nat)
  | page (number : Nat)
  | marker (text : String)
  /-- Meant for whoever writes the response. -/
  | response
  | predicate (p : Predicate)

namespace Parameter

/-- A count. -/
def readCount (what value : String) : Except Fault Nat :=
  match Numeral.count? value with
  | some n => .ok n
  | none => .error (.badCount what value)

/-- The size of a page, at least one and at most `greatest`. -/
def readPageSize (greatest : Nat) (value : String) : Except Fault Nat := do
  let size ← readCount "page size" value
  if size = 0 then throw .zeroPageSize
  else if greatest < size then throw (.pageSizeAbove size greatest)
  else return size

/-- The number of a page. Pages are counted from one. -/
def readPage (value : String) : Except Fault Nat := do
  let number ← readCount "page" value
  if number = 0 then throw .zeroPage else return number

/-- The predicate `field=value`. -/
def readEquality (field value : String) : Except Fault Predicate := do
  Predicate.ofOperatorCall .eq [.word (.bare field), .word (← Literal.ofText value)]

/-- The predicate of a key that is no call with a value that is not empty. A value that looks like a
call but is no call of an operator is compared with as it is. -/
def readShorthand (field value : String) : Except Fault Predicate := do
  if Term.looksLikeCall value then
    match ← Term.ofText value with
    | .call name args =>
      match Operator.ofToken? name with
      | some op => Predicate.ofOperatorCall op (.word (.bare field) :: args)
      | none => readEquality field value
    | .word _ => readEquality field value
  else readEquality field value

/-- The predicate that a parameter stands for. -/
def readPredicate (key value : String) : Except Fault Predicate := do
  if Term.looksLikeCall key then
    if value = "" then Predicate.ofTerm (← Term.ofText key)
    else throw (.valueBehindCall key value)
  else if value = "" then throw (.parameterWithoutValue key)
  else readShorthand (← Literal.ofText key).text value

/-- The keys that stand for something else than a predicate. -/
inductive Reserved where
  | order
  | pageSize
  | offset
  | page
  | marker
  | response
deriving DecidableEq, Repr

/-- The names of the reserved keys. -/
def reservedNames : List (String × Reserved) :=
  [("order", .order), ("sort", .order), ("pagesize", .pageSize), ("limit", .pageSize),
    ("offset", .offset), ("page", .page), ("marker", .marker), ("after", .marker),
    ("includes", .response), ("excludes", .response), ("expands", .response)]

/-- What a key is reserved for. -/
def reserved? (key : String) : Option Reserved :=
  reservedNames.lookup (Text.foldCase key)

/-- What a parameter says; key and value have no blanks at their ends. -/
def read (config : Config) (key value : String) : Except Fault Parameter :=
  match reserved? key with
  | some .order => (Order.readList value).map .order
  | some .pageSize => (readPageSize config.maxPageSize value).map .pageSize
  | some .offset => (readCount "offset" value).map .offset
  | some .page => (readPage value).map .page
  | some .marker => .ok (.marker value)
  | some .response => .ok .response
  | none => (readPredicate key value).map .predicate

/-- The orders that a parameter adds. -/
def orders : Parameter → List Order
  | .order orders => orders
  | _ => []

/-- The size that a parameter gives a page. -/
def pageSize? : Parameter → Option Nat
  | .pageSize size => some size
  | _ => none

/-- The rows that a parameter passes over. -/
def offset? : Parameter → Option Nat
  | .offset rows => some rows
  | _ => none

/-- The page that a parameter asks for. -/
def page? : Parameter → Option Nat
  | .page number => some number
  | _ => none

/-- The marker that a parameter holds. -/
def marker? : Parameter → Option String
  | .marker text => some text
  | _ => none

/-- The predicate that a parameter is. -/
def predicate? : Parameter → Option Predicate
  | .predicate p => some p
  | _ => none

end Parameter

end Rql
