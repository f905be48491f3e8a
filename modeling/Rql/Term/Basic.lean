import Rql.Json.Basic
import Rql.Text

/-!
# Words and calls

A literal is a word as a query gives it: its text, with quotes and escapes already taken off, and
whether it was quoted. The flag matters, since only a bare word can stand for null, a truth value or
a number (`toJson`). A number with a superfluous zero in front stays a text, so that codes such as
`02134` survive.

A term is the shape of a query expression before its names are looked at: a word, or a call of a
name with terms as arguments. `render` writes literals and terms without blanks.
-/

namespace Rql

/-! ## Literals -/

/-- A word of a query. -/
structure Literal where
  text : String
  quoted : Bool
deriving DecidableEq, Repr, Inhabited

namespace Literal

/-- A word without quotes. -/
def bare (text : String) : Literal := ⟨text, false⟩

/-- A word in quotes, which is always a text. -/
def ofQuoted (text : String) : Literal := ⟨text, true⟩

/-- The bare word `null`, in any case. -/
def isNull (l : Literal) : Bool :=
  !l.quoted && Text.sameName l.text "null"

/-- The text holds the wildcard glyph. -/
def hasWildcard (glyph : Char) (l : Literal) : Bool :=
  l.text.toList.contains glyph

/-- A character as it stands between quotes. -/
def escape (c : Char) : List Char :=
  if c = '\\' ∨ c = '"' then ['\\', c] else [c]

/-- The literal as it stands in a query: a quoted one in double quotes, a bare one as it is. -/
def render (l : Literal) : String :=
  if l.quoted then .ofList ('"' :: (l.text.toList.flatMap escape ++ ['"'])) else l.text

/-! ## The value of a literal -/

/-- Starts, behind a minus sign, with a zero that neither is the number nor stands before a point. -/
def hasLeadingZero (cs : List Char) : Bool :=
  let unsigned := match cs with
    | '-' :: rest => rest
    | cs => cs
  match unsigned with
  | '0' :: c :: _ => c != '.'
  | _ => false

/-- Not empty, and nothing but what decimal numbers are made of. This keeps names of numbers such as
`inf` out. -/
def looksNumeric (cs : List Char) : Bool :=
  !cs.isEmpty && cs.all fun c =>
    c.isDigit || c == '.' || c == '-' || c == '+' || c == 'e' || c == 'E'

/-- The number that a text reads as: an integer of 64 bits, or else a finite number. -/
def number? (s : String) : Option Number :=
  match Numeral.integer? s with
  | some n => some (.int n)
  | none => (Binary64.ofText? s).map .real

/-- The value of a literal. -/
def toJson (l : Literal) : Json :=
  if l.quoted then .string l.text
  else
    let word := Text.foldCase l.text
    if word = "null" then .null
    else if word = "true" then .bool true
    else if word = "false" then .bool false
    else if hasLeadingZero l.text.toList || !looksNumeric l.text.toList then .string l.text
    else match number? l.text with
      | some n => .number n
      | none => .string l.text

end Literal

/-! ## Terms -/

/-- A word or a call. -/
inductive Term where
  | word (l : Literal)
  | call (name : String) (args : List Term)
deriving Repr, Inhabited

namespace Term

mutual

/-- The term as it stands in a query. -/
def render : Term → String
  | .word l => l.render
  | .call name args => name ++ "(" ++ renderArgs args ++ ")"

/-- The arguments with commas between them. -/
def renderArgs : List Term → String
  | [] => ""
  | [arg] => render arg
  | arg :: rest => render arg ++ "," ++ renderArgs rest

end

/-- The word that a term is. -/
def word? : Term → Option Literal
  | .word l => some l
  | .call .. => none

/-- The term is a call. -/
def isCall : Term → Bool
  | .word _ => false
  | .call .. => true

end Term

end Rql
