import Rql.Json.Basic
import Rql.Json.Token

/-!
# JSON documents

A document is JSON text taken apart: the tree of its values with numbers and strings as they are
written. `Document.read?` accepts exactly one value with nothing but gaps around it. The tree is
built in one pass over the tokens with a stack of the arrays and objects that are still open.

`Document.value?` evaluates the whole tree. It fails where a string has half of a surrogate pair or
a number is past the greatest one, so a reader that needs only some members does better to ask for
those.

A record is an object with its fields as members, or an array of its fields in their declared order.
An object may have further members, which are not looked at, but no field twice. An array may leave
out fields at its end and has no further items. Which fields may be missing is up to the reader of
each field: `orElse` puts a default in the place of a missing one.
-/

namespace Rql

namespace Json

/-- The tree of a JSON text. -/
inductive Document where
  | null
  | bool (b : Bool)
  | number (n : Numeral)
  | string (marks : List Mark)
  | array (items : List Document)
  | object (members : List (List Mark × Document))
deriving Repr, Inhabited

/-- An array or an object that is still open. What it holds so far is in reverse order. -/
inductive Frame where
  | array (sofar : List Document)
  /-- An object with the name of the member that is being read. -/
  | object (sofar : List (List Mark × Document)) (name : List Mark)

/-- What has to come next, with what is open around it, innermost first. -/
inductive Reading where
  /-- A value. -/
  | value (frames : List Frame)
  /-- The first item of an array, or its end. -/
  | firstItem (frames : List Frame)
  /-- The first member of an object, or its end. -/
  | firstMember (frames : List Frame)
  /-- The name of a further member. -/
  | name (sofar : List (List Mark × Document)) (frames : List Frame)
  /-- The colon behind the name of a member. -/
  | colon (sofar : List (List Mark × Document)) (name : List Mark) (frames : List Frame)
  /-- Whatever may follow a value. -/
  | after (value : Document) (frames : List Frame)

/-- Reads the token at which a value begins. -/
def Reading.begin? (frames : List Frame) : Token → Option Reading
  | .null => some (.after .null frames)
  | .bool b => some (.after (.bool b) frames)
  | .number n => some (.after (.number n) frames)
  | .string marks => some (.after (.string marks) frames)
  | .openBracket => some (.firstItem frames)
  | .openBrace => some (.firstMember frames)
  | _ => none

/-- Reads one token. -/
def Reading.next? : Reading → Token → Option Reading
  | .value frames, t => begin? frames t
  | .firstItem frames, .closeBracket => some (.after (.array []) frames)
  | .firstItem frames, t => begin? (.array [] :: frames) t
  | .firstMember frames, .closeBrace => some (.after (.object []) frames)
  | .firstMember frames, .string key => some (.colon [] key frames)
  | .name sofar frames, .string key => some (.colon sofar key frames)
  | .colon sofar key frames, .colon => some (.value (.object sofar key :: frames))
  | .after v (.array sofar :: frames), .comma => some (.value (.array (v :: sofar) :: frames))
  | .after v (.array sofar :: frames), .closeBracket =>
    some (.after (.array (v :: sofar).reverse) frames)
  | .after v (.object sofar key :: frames), .comma => some (.name ((key, v) :: sofar) frames)
  | .after v (.object sofar key :: frames), .closeBrace =>
    some (.after (.object ((key, v) :: sofar).reverse) frames)
  | _, _ => none

namespace Document

/-- The document of a text that holds one value and nothing else. -/
def read? (s : String) : Option Document := do
  match ← (← tokens? s).foldlM Reading.next? (.value []) with
  | .after value [] => some value
  | _ => none

mutual

/-- How deep arrays and objects lie inside one another; a number or a string counts nothing. -/
def depth : Document → Nat
  | .array items => 1 + depthOfItems items
  | .object members => 1 + depthOfMembers members
  | _ => 0

/-- The greatest depth of the items. -/
def depthOfItems : List Document → Nat
  | [] => 0
  | item :: rest => max (depth item) (depthOfItems rest)

/-- The greatest depth of the values of the members. -/
def depthOfMembers : List (List Mark × Document) → Nat
  | [] => 0
  | (_, value) :: rest => max (depth value) (depthOfMembers rest)

end

/-- The longest run of digits, behind what has been read before it, whose value is below
`Numeral.countBound`: the value, and how many digits it takes. -/
def fittingDigits (before : Nat) : List Char → Nat × Nat
  | [] => (before, 0)
  | c :: cs =>
    let next := 10 * before + Numeral.digitValue c
    if next < Numeral.countBound then
      let (value, taken) := fittingDigits next cs
      (value, taken + 1)
    else (before, 0)

/-- Scales a number by a power of ten, rounding once for each factor. Only `10 ^ 308` and smaller
powers are numbers themselves, so a smaller scale takes two steps, and after these nothing is left. -/
def scaled? (x : Binary64) (scale : Int) : Option Binary64 :=
  let shrink (x : Binary64) (steps : Nat) : Option Binary64 :=
    (Binary64.ofDecimal? false 1 steps).bind x.div?
  if x.significand = 0 ∨ scale < -616 then some (.zero x.negative)
  else if 308 < scale then none
  else if 0 ≤ scale then (Binary64.ofDecimal? false 1 scale).bind x.mul?
  else if -308 ≤ scale then shrink x (-scale).toNat
  else (shrink x 308).bind fun y => shrink y (-scale - 308).toNat

/-- The number that is read from a numeral. Whole numbers of 64 bits are integers. Every other
numeral is a binary64 number: the digits that fit into 64 bits, scaled. -/
def number? (n : Numeral) : Option Number :=
  let negative := n.sign == .minus
  let value := Numeral.ofDigits n.whole
  if n.isWhole && !negative && value < Numeral.countBound then some (.int value)
  else if n.isWhole && negative && 0 < value && value ≤ Nat.pow 2 63 then some (.int (-value))
  else
    let (whole, kept) := fittingDigits 0 n.whole
    let (digits, places) := fittingDigits whole (n.fraction.getD [])
    let scale := n.writtenExponent + (n.whole.length - kept : Nat) - places
    ((Binary64.ofRatio? negative digits 1).bind fun x => scaled? x scale).map .real

mutual

/-- The value of a document, none if a string or a number in it has none. -/
def value? : Document → Option Json
  | .null => some .null
  | .bool b => some (.bool b)
  | .number n => (number? n).map .number
  | .string marks => (text? marks).map .string
  | .array items => (values? items).map .array
  | .object members => (members? members).map .object

/-- The values of the items. -/
def values? : List Document → Option (List Json)
  | [] => some []
  | item :: rest => do return (← value? item) :: (← values? rest)

/-- The names and values of the members. -/
def members? : List (List Mark × Document) → Option (List (String × Json))
  | [] => some []
  | (name, value) :: rest => do return (← text? name, ← value? value) :: (← members? rest)

end

/-! ## Records -/

/-- The names of the members in front of their values, none if a name is no text. -/
def namedMembers? (members : List (List Mark × Document)) : Option (List (String × Document)) :=
  members.mapM fun (name, value) => (text? name).map (·, value)

/-- The value of the one member with a name; a name that comes twice is refused. -/
def uniqueMember? (members : List (String × Document)) (name : String) :
    Option (Option Document) :=
  match members.filter (·.1 == name) with
  | [] => some none
  | [(_, value)] => some (some value)
  | _ => none

/-- The fields of a record, in declared order. -/
def fields? (names : List String) : Document → Option (List (Option Document))
  | .object members => do
    let members ← namedMembers? members
    names.mapM (uniqueMember? members)
  | .array items =>
    if items.length ≤ names.length then
      some (items.map some ++ List.replicate (names.length - items.length) none)
    else none
  | _ => none

/-- A text. -/
def string? : Document → Option String
  | .string marks => text? marks
  | _ => none

/-- True or false. -/
def bool? : Document → Option Bool
  | .bool b => some b
  | _ => none

/-- A count, written without a sign, a point or an exponent. -/
def count? : Document → Option Nat
  | .number n =>
    if n.isWhole && n.sign == .none then
      some (Numeral.ofDigits n.whole) |>.filter (· < Numeral.countBound)
    else none
  | _ => none

/-- A text of one character. -/
def char? (doc : Document) : Option Char := do
  match (← doc.string?).toList with
  | [c] => some c
  | _ => none

/-- A text or null. -/
def stringOrNull? : Document → Option (Option String)
  | .null => some none
  | doc => doc.string?.map some

/-- An array of things that are all read alike. -/
def list? {α : Type} (read : Document → Option α) : Document → Option (List α)
  | .array items => items.mapM read
  | _ => none

/-- A field that may be missing. -/
def orElse {α : Type} (default : α) (read : Document → Option α) : Option Document → Option α
  | none => some default
  | some doc => read doc

end Document

end Json

end Rql
