import Rql.Request.Parameter
import Rql.Table.Basic

/-!
# The statement of a request

Every parameter of a request is read first, from left to right. Then orders and predicates add up in
their order, and of parameters that say the same thing twice the last one counts. A page number,
wherever it stands, decides how many rows are passed over, and no `offset` beside it matters. If the
predicates are a single group, its members are the predicates of the statement, and its conjunction
is how they combine.

A query string holds parameters with `&` between them, each a key and a value with `=` between them.
An equals sign behind an opening parenthesis belongs to the call that begins there, and the
parameter is all key. In keys and values `%` and two hexadecimal digits stand for a byte, and the
bytes have to be UTF-8. The plus sign has no meaning of its own.

A request may also name the rows it is about by their keys, as an argument list of literals. The
predicate that stands for them compares the one key column of the table with all of the literals.
`restrict` puts it in front of what the request asks for anyway, so that both have to hold.
-/

namespace Rql

/-! ## Statements from parameters -/

namespace Statement

/-- The last thing that parameters say about one matter. -/
def last? {α : Type} (what : Parameter → Option α) (params : List Parameter) : Option α :=
  (params.filterMap what).getLast?

/-- The rows before a page; their number stays below `Numeral.countBound`. -/
def rowsBefore (page size : Nat) : Except Fault Nat :=
  let rows := (page - 1) * size
  if rows < Numeral.countBound then .ok rows else .error (.pageOutOfRange page)

/-- The page that parameters ask for. -/
def pageOf (config : Config) (params : List Parameter) : Except Fault Page := do
  let maxRows := (last? Parameter.pageSize? params).getD config.defaultPageSize
  let offset ← match last? Parameter.page? params with
    | some number => rowsBefore number maxRows
    | none => .ok ((last? Parameter.offset? params).getD 0)
  return { maxRows, offset, marker := last? Parameter.marker? params }

/-- A group that stands alone gives its place to its members. -/
def openGroup : List Predicate → Conjunction × List Predicate
  | [.group conjunction members] => (conjunction, members)
  | predicates => (.and, predicates)

/-- The statement that parameters make up. -/
def assemble (config : Config) (table : String) (params : List Parameter) :
    Except Fault Statement := do
  let page ← pageOf config params
  let (conjunction, predicates) := openGroup (params.filterMap Parameter.predicate?)
  return { table, conjunction, predicates, order := params.flatMap Parameter.orders, page }

/-- Keys and values without the blanks at their ends, where the key is not empty. -/
def significant (params : List (String × String)) : List (String × String) :=
  (params.map fun (key, value) => (Text.trimmed key, Text.trimmed value)).filter (·.1 ≠ "")

/-- The statement that a list of keys with values stands for. -/
def ofParameters (config : Config) (table : Table) (params : List (String × String)) :
    Except Error Statement :=
  let statement : Except Fault Statement := do
    assemble config table.name
      (← (significant params).mapM fun (key, value) => Parameter.read config key value)
  statement.mapError .malformed

end Statement

/-! ## Query strings -/

namespace QueryString

/-- The byte that the two characters behind a percent sign stand for. As in every number written by
its digits, a plus sign may stand in front of them. -/
def escapedByte? (a b : Char) : Option UInt8 :=
  match Numeral.hexValue? b with
  | none => none
  | some low =>
    if a = '+' then some (UInt8.ofNat low)
    else (Numeral.hexValue? a).map fun high => UInt8.ofNat (16 * high + low)

/-- The bytes that a text stands for. -/
def bytes? : List Char → Option (List UInt8)
  | [] => some []
  | c :: rest =>
    if c = '%' then
      match rest with
      | a :: b :: rest =>
        match escapedByte? a b with
        | some byte => (bytes? rest).map (byte :: ·)
        | none => none
      | _ => none
    else (bytes? rest).map (String.utf8EncodeChar c ++ ·)

/-- The text of some bytes. -/
def ofBytes? (bytes : List UInt8) : Option String :=
  String.fromUTF8? ⟨bytes.toArray⟩

/-- The text that a key or a value stands for. -/
def decode (cs : List Char) : Except Fault String :=
  match bytes? cs with
  | none => .error (.badPercentEscape (.ofList cs))
  | some bytes =>
    match ofBytes? bytes with
    | none => .error (.notUtf8 (.ofList cs))
    | some s => .ok s

/-- Key and value of a parameter, as they are written. -/
def splitPair (pair : List Char) : List Char × List Char :=
  match Text.splitFirst? '=' pair with
  | some (key, value) => if key.contains '(' then (pair, []) else (key, value)
  | none => (pair, [])

/-- The parameters of a query string, as they are written. Question marks in front are no part of
them. -/
def pairs (query : String) : List (List Char × List Char) :=
  let pieces := Text.splitOn '&' (query.toList.dropWhile (· == '?'))
  (pieces.filter (!·.isEmpty)).map splitPair

/-- The keys and values of a query string. -/
def parameters (query : String) : Except Fault (List (String × String)) :=
  (pairs query).mapM fun (key, value) => do return (← decode key, ← decode value)

/-- The statement that a query string stands for. -/
def statement (config : Config) (table : Table) (query : String) : Except Error Statement :=
  match parameters query with
  | .error fault => .error (.malformed fault)
  | .ok params => Statement.ofParameters config table params

end QueryString

/-! ## Entity keys -/

namespace Table

/-- The literals of a list of keys. -/
def keyLiterals (keys : String) : Except Fault (List Literal) := do
  (← Term.arguments keys.toList).mapM Literal.ofTrimmed

/-- The predicate of a list of keys. -/
def keyPredicate (t : Table) (keys : String) : Except Error Predicate :=
  match t.keyColumns with
  | [key] =>
    let predicate : Except Fault Predicate := do
      return .compare (← Comparison.make .isIn key (← keyLiterals keys))
    predicate.mapError .malformed
  | columns => .error (.invalidMetadata t.name (.keyColumnCount columns.length))

end Table

namespace Statement

/-- Lets a predicate hold beside those of the statement. Alternatives become one group first. -/
def restrict (s : Statement) (p : Predicate) : Statement :=
  match s.conjunction with
  | .and => { s with predicates := p :: s.predicates }
  | .or => { s with conjunction := .and, predicates := [p, .group .or s.predicates] }

end Statement

end Rql
