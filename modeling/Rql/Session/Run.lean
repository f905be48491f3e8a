import Rql.Session.Basic

/-!
# Runs

A run opens a session and answers line after line. Unreadable settings or tables end it before the
first line, and a line that is not UTF-8 ends it where it stands; the answers up to there are given.

Input comes as bytes. A line ends with a line feed, in front of which a carriage return may stand;
the last line may do without. Every line is read as UTF-8 by itself, and lines of nothing but blanks
are passed over.
-/

namespace Rql

/-! ## Lines of input -/

namespace Lines

/-- A line feed. -/
def lineFeed : UInt8 := 10

/-- A carriage return. -/
def carriageReturn : UInt8 := 13

/-- A line without the carriage return at its end. -/
def dropReturn (line : List UInt8) : List UInt8 :=
  if line.getLast? = some carriageReturn then line.dropLast else line

/-- The lines that are complete, without their ends, and what is left behind the last of them. -/
def split : List UInt8 → List (List UInt8) × List UInt8
  | [] => ([], [])
  | b :: bytes =>
    let (lines, rest) := split bytes
    if b = lineFeed then ([] :: lines, rest)
    else match lines with
      | [] => ([], b :: rest)
      | line :: lines => ((b :: line) :: lines, rest)

/-- All lines without their ends. -/
def splitAll (bytes : List UInt8) : List (List UInt8) :=
  let (lines, rest) := split bytes
  lines.map dropReturn ++ (if rest.isEmpty then [] else [rest])

/-- The text of a line. -/
def decode (line : List UInt8) : Except RunError String :=
  match String.fromUTF8? ⟨line.toArray⟩ with
  | some s => .ok s
  | none => .error .badLine

/-- The line holds something, be it readable or not. -/
def isSignificant : Except RunError String → Bool
  | .ok s => !Text.allBlank s
  | .error _ => true

/-- Of some lines those that hold something, as texts. -/
def texts (lines : List (List UInt8)) : List (Except RunError String) :=
  (lines.map decode).filter isSignificant

/-- The lines that hold something. -/
def read (bytes : List UInt8) : List (Except RunError String) :=
  texts (splitAll bytes)

/-- The same of input that may go on: the lines that are complete, and what is left behind them. -/
def readComplete (bytes : List UInt8) : List (Except RunError String) × List UInt8 :=
  let (lines, rest) := split bytes
  (texts (lines.map dropReturn), rest)

end Lines

/-! ## Answering the lines -/

namespace Session

/-- The settings of a run: the standard ones, or those of a text, none if it cannot be read. -/
def settings : Option (Option String) → Except Error Config
  | none => .ok {}
  | some none => .error (.invalidMetadata Config.origin .unreadableSettings)
  | some (some text) => Config.read text

/-- Opens a session. Settings come before tables. -/
def openWith (config : Option (Option String)) (dir : Catalog.Directory) :
    Except RunError Session :=
  match settings config with
  | .error e => .error (.settings e.message)
  | .ok config =>
    match Catalog.load .empty dir with
    | (_, some e) => .error (.tables e.message)
    | (catalog, none) => .ok (.new config catalog)

end Session

/-- What a run comes to: the lines of its answers, and the error that ended it, if one did. -/
structure Outcome where
  answers : List String
  error : Option RunError

namespace Outcome

/-- What is written: every answer with an end of line behind it. -/
def written (o : Outcome) : String :=
  .ofList (o.answers.flatMap fun answer => answer.toList ++ ['\n'])

end Outcome

namespace Session

/-- Answers lines up to the first that cannot be read. -/
def answerAll (s : Session) (task : Task) : List (Except RunError String) → Outcome
  | [] => ⟨[], none⟩
  | .error e :: _ => ⟨[], some e⟩
  | .ok line :: rest =>
    let outcome := answerAll s task rest
    { outcome with answers := (s.answer task line).line :: outcome.answers }

/-- Answers the lines of an input. -/
def answerInput (s : Session) (task : Task) (input : List UInt8) : Outcome :=
  s.answerAll task (Lines.read input)

/-- A whole run. -/
def run (task : Task) (config : Option (Option String)) (dir : Catalog.Directory)
    (input : List UInt8) : Outcome :=
  match openWith config dir with
  | .error e => ⟨[], some e⟩
  | .ok s => s.answerInput task input

end Session

end Rql
