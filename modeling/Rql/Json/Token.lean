import Rql.Numeral

/-!
# The tokens of JSON text

Reading goes in two steps, and this is the first: the text becomes a list of tokens, one character at
a time. A string is kept as its marks, because an escape for half of a surrogate pair is well formed
and yet stands for no character; whether that matters depends on who asks for the text (`text?`).
-/

namespace Rql.Json

/-- A mark of a string: a character, or a code unit of 16 bits given by its number. -/
inductive Mark where
  | char (c : Char)
  | unit (n : Nat)
deriving DecidableEq, Repr

/-- The first half of a surrogate pair. -/
def isHighHalf (n : Nat) : Bool := 0xD800 ≤ n && n < 0xDC00

/-- The second half of a surrogate pair. -/
def isLowHalf (n : Nat) : Bool := 0xDC00 ≤ n && n < 0xE000

/-- The characters that the marks stand for, none if half of a surrogate pair is alone. -/
def chars? : List Mark → Option (List Char)
  | [] => some []
  | .char c :: rest => (chars? rest).map (c :: ·)
  | .unit n :: rest =>
    if isHighHalf n then
      match rest with
      | .unit m :: rest =>
        if isLowHalf m then
          (chars? rest).map (Char.ofNat (0x10000 + (n - 0xD800) * 0x400 + (m - 0xDC00)) :: ·)
        else none
      | _ => none
    else if isLowHalf n then none
    else (chars? rest).map (Char.ofNat n :: ·)

/-- The text that the marks stand for. -/
def text? (marks : List Mark) : Option String :=
  (chars? marks).map .ofList

/-- A token of JSON text. -/
inductive Token where
  | openBracket
  | closeBracket
  | openBrace
  | closeBrace
  | colon
  | comma
  | null
  | bool (b : Bool)
  | number (n : Numeral)
  | string (marks : List Mark)
deriving DecidableEq, Repr

/-- Where in a token the lexer stands. What a token holds so far is in reverse order. -/
inductive Lexing where
  /-- Between two tokens. -/
  | between
  /-- In a keyword or a number. -/
  | word (sofar : List Char)
  /-- In a string. -/
  | string (sofar : List Mark)
  /-- In a string, behind a backslash. -/
  | escape (sofar : List Mark)
  /-- In a string, `left` digits before the end of the number of a code unit. -/
  | unit (sofar : List Mark) (left value : Nat)
deriving Repr

/-- What may stand between tokens. -/
def isGap (c : Char) : Bool :=
  c == ' ' || c == '\n' || c == '\r' || c == '\t'

/-- What keywords and numbers are made of. -/
def isWordChar (c : Char) : Bool :=
  c.isAlphanum || c == '+' || c == '-' || c == '.'

/-- The token of a keyword or a number. -/
def wordToken? (word : List Char) : Option Token :=
  if word = ['n', 'u', 'l', 'l'] then some .null
  else if word = ['t', 'r', 'u', 'e'] then some (.bool true)
  else if word = ['f', 'a', 'l', 's', 'e'] then some (.bool false)
  else (Numeral.ofChars? word).bind fun n => if n.isJson then some (.number n) else none

/-- The token of a punctuation character. -/
def punctuation? : Char → Option Token
  | '[' => some .openBracket
  | ']' => some .closeBracket
  | '{' => some .openBrace
  | '}' => some .closeBrace
  | ':' => some .colon
  | ',' => some .comma
  | _ => none

/-- The character that a short escape stands for. -/
def shortEscape? : Char → Option Char
  | '"' => some '"'
  | '\\' => some '\\'
  | '/' => some '/'
  | 'b' => some '\x08'
  | 'f' => some '\x0c'
  | 'n' => some '\n'
  | 'r' => some '\r'
  | 't' => some '\t'
  | _ => none

/-- What the lexer does with a character between tokens: the tokens it ends, and where it stands. -/
def beginToken? (c : Char) : Option (List Token × Lexing) :=
  if isGap c then some ([], .between)
  else if c = '"' then some ([], .string [])
  else if isWordChar c then some ([], .word [c])
  else (punctuation? c).map fun t => ([t], .between)

/-- What the lexer does with a character: the tokens it ends, and where it stands then. -/
def Lexing.next? : Lexing → Char → Option (List Token × Lexing)
  | .between, c => beginToken? c
  | .word sofar, c =>
    if isWordChar c then some ([], .word (c :: sofar))
    else (wordToken? sofar.reverse).bind fun t =>
      (beginToken? c).map fun (ended, state) => (t :: ended, state)
  | .string sofar, c =>
    if c = '"' then some ([.string sofar.reverse], .between)
    else if c = '\\' then some ([], .escape sofar)
    else if c.toNat < 0x20 then none
    else some ([], .string (.char c :: sofar))
  | .escape sofar, c =>
    if c = 'u' then some ([], .unit sofar 3 0)
    else (shortEscape? c).map fun e => ([], .string (.char e :: sofar))
  | .unit sofar left value, c =>
    (Numeral.hexValue? c).map fun digit =>
      match left with
      | 0 => ([], .string (.unit (16 * value + digit) :: sofar))
      | left + 1 => ([], .unit sofar left (16 * value + digit))

/-- The tokens from where the lexer stands to the end of the text. -/
def tokensFrom? : Lexing → List Char → Option (List Token)
  | .between, [] => some []
  | .word sofar, [] => (wordToken? sofar.reverse).map ([·])
  | _, [] => none
  | state, c :: cs =>
    (state.next? c).bind fun (ended, state) => (tokensFrom? state cs).map (ended ++ ·)

/-- The tokens of a text. -/
def tokens? (s : String) : Option (List Token) :=
  tokensFrom? .between s.toList

end Rql.Json
