import Rql.Binary64

/-!
# JSON values

The values that are bound to placeholders and that results are written as. A number is an integer or
a binary64 number, and the two stay apart: `1` and `1.0` are different values with different texts.
The members of an object keep the order they are given in.

A value is written on one line without blanks (`render`). Of the characters of a string only the
quote, the backslash and the control characters below U+0020 are escaped, so no written value holds
a line feed.
-/

namespace Rql

/-- A number of a JSON value. -/
inductive Number where
  | int (n : Int)
  | real (x : Binary64)
deriving DecidableEq, Repr

/-- A JSON value. -/
inductive Json where
  | null
  | bool (b : Bool)
  | number (n : Number)
  | string (s : String)
  | array (items : List Json)
  | object (members : List (String × Json))
deriving Repr, Inhabited

namespace Json

/-- A natural number as a value. -/
def nat (n : Nat) : Json :=
  .number (.int n)

/-- The text, or null in its absence. -/
def stringOrNull : Option String → Json
  | some s => .string s
  | none => .null

/-- A list of texts. -/
def strings (texts : List String) : Json :=
  .array (texts.map .string)

/-- Puts a member before the first one with a greater name. -/
def insertMember (m : String × Json) : List (String × Json) → List (String × Json)
  | [] => [m]
  | other :: rest => if m.1 < other.1 then m :: other :: rest else other :: insertMember m rest

/-- An object whose members stand in the order of their names. Names compare by code points, as
their UTF-8 bytes do. -/
def sortedObject (members : List (String × Json)) : Json :=
  .object (members.foldl (fun sorted m => insertMember m sorted) [])

/-! ## Writing -/

/-- Numbers from `1e-5` up to `1e16` are written without an exponent. -/
def numberLayout : Binary64.Layout := ⟨-5, 16⟩

/-- The digits of an integer after its sign. -/
def renderInt (n : Int) : String :=
  .ofList ((if n < 0 then ['-'] else []) ++ Binary64.decimalDigits n.natAbs)

/-- The text of a number. -/
def renderNumber : Number → String
  | .int n => renderInt n
  | .real x => x.render numberLayout

/-- One hexadecimal digit, in small letters. -/
def hexDigit (n : Nat) : Char :=
  if n < 10 then Char.ofNat ('0'.toNat + n) else Char.ofNat ('a'.toNat + (n - 10))

/-- A character as it stands between the quotes of a string. -/
def escape (c : Char) : List Char :=
  match c with
  | '"' => ['\\', '"']
  | '\\' => ['\\', '\\']
  | '\x08' => ['\\', 'b']
  | '\x0c' => ['\\', 'f']
  | '\n' => ['\\', 'n']
  | '\r' => ['\\', 'r']
  | '\t' => ['\\', 't']
  | c =>
    if c.toNat < 0x20 then ['\\', 'u', '0', '0', hexDigit (c.toNat / 16), hexDigit (c.toNat % 16)]
    else [c]

/-- The text of a string, quotes included. -/
def renderString (s : String) : String :=
  .ofList ('"' :: (s.toList.flatMap escape ++ ['"']))

mutual

/-- The text of a value. -/
def render : Json → String
  | .null => "null"
  | .bool true => "true"
  | .bool false => "false"
  | .number n => renderNumber n
  | .string s => renderString s
  | .array items => "[" ++ renderItems items ++ "]"
  | .object members => "\x7b" ++ renderMembers members ++ "\x7d"

/-- The texts of the items with commas between them. -/
def renderItems : List Json → String
  | [] => ""
  | [item] => render item
  | item :: rest => render item ++ "," ++ renderItems rest

/-- The texts of the members with commas between them. -/
def renderMembers : List (String × Json) → String
  | [] => ""
  | [(name, value)] => renderString name ++ ":" ++ render value
  | (name, value) :: rest => renderString name ++ ":" ++ render value ++ "," ++ renderMembers rest

end

end Json

end Rql
