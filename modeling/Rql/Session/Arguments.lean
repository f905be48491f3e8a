import Rql.Session.Basic

/-!
# Command lines

A command line names a task and the directory of the tables, and perhaps a file of settings and a
filter for what is logged. An option stands in front of its value or is joined to it by an equals
sign, and is given at most once. What starts with a dash is no value, a single dash apart.
-/

namespace Rql.CommandLine

/-- What is to be done. -/
structure Command where
  task : Session.Task
  /-- The directory of the tables. -/
  tables : String
  /-- The file of the settings. -/
  config : Option String
deriving DecidableEq, Repr

/-- What help can be asked about. -/
inductive Topic where
  | program
  | task (t : Session.Task)
  /-- The word that asks for help. -/
  | help
deriving DecidableEq, Repr

/-- What a command line asks for. -/
inductive Request where
  | run (c : Command)
  | help (about : Topic)
  | version
  /-- No command line of this program. -/
  | invalid
deriving DecidableEq, Repr

/-- The options with a value. -/
inductive Flag where
  | tables
  | config
  | log
deriving DecidableEq, Repr

/-- The name of an option. -/
def Flag.name : Flag → String
  | .tables => "--tables"
  | .config => "--config"
  | .log => "--log"

/-- The options in front of a task. -/
def commonFlags : List Flag :=
  [.log]

/-- The options of a task. -/
def taskFlags : List Flag :=
  [.log, .tables, .config]

/-- The word for a task. -/
def taskName : Session.Task → String
  | .compile => "compile"
  | .explain => "explain"

/-- The tasks. -/
def tasks : List Session.Task :=
  [.compile, .explain]

/-- The task that a word names. -/
def task? (word : String) : Option Session.Task :=
  tasks.find? fun task => taskName task = word

/-- The word that asks for help, in front of the word for what the help is about. -/
def helpName : String :=
  "help"

/-- Starts with a dash and is more than that. -/
def isDashed (arg : String) : Bool :=
  match arg.toList with
  | '-' :: _ :: _ => true
  | _ => false

/-- An option that has its value joined to it. -/
def splitJoined (arg : String) : String × Option String :=
  match Text.splitFirst? '=' arg.toList with
  | some (name, value) => (.ofList name, some (.ofList value))
  | none => (arg, none)

/-- Paths are not empty. -/
def isValueOf (value : String) : Flag → Bool
  | .log => true
  | .tables | .config => value ≠ ""

/-- What one step along a command line finds. -/
inductive Item where
  /-- An option and its value, which is joined to it or stands behind it. -/
  | flag (f : Flag) (value : String) (joined : Bool)
  | word (w : String)
  /-- The mark behind which there are only words. -/
  | endOfFlags
  | help
  | version
  | invalid

/-- The first item of a command line, and what comes behind it. -/
def nextItem (flags : List Flag) (arg : String) (rest : List String) : Item × List String :=
  if arg = "--" then (.endOfFlags, rest)
  else if !isDashed arg then (.word arg, rest)
  else if arg = "--help" || "-h".toList.isPrefixOf arg.toList then (.help, rest)
  else if arg = "--version" || "-V".toList.isPrefixOf arg.toList then (.version, rest)
  else
    let (name, joined) := splitJoined arg
    match flags.find? (·.name = name), joined, rest with
    | none, _, _ => (.invalid, rest)
    | some f, some value, _ =>
      if isValueOf value f then (.flag f value true, rest) else (.invalid, rest)
    | some _, none, [] => (.invalid, [])
    | some f, none, value :: rest =>
      if !isDashed value && isValueOf value f then (.flag f value false, rest)
      else (.invalid, rest)

theorem length_nextItem_le (flags : List Flag) (arg : String) (rest : List String) :
    (nextItem flags arg rest).2.length ≤ rest.length := by
  unfold nextItem
  repeat' split
  all_goals simp

/-- Reads the options of a task. The values that have been given stand in `given`. -/
def readTask (task : Session.Task) (given : List (Flag × String)) : List String → Request
  | [] =>
    match given.lookup .tables with
    | some tables => .run ⟨task, tables, given.lookup .config⟩
    | none => .invalid
  | arg :: rest =>
    have := length_nextItem_le taskFlags arg rest
    match h : nextItem taskFlags arg rest with
    | (.flag f value _, behind) =>
      have : behind.length ≤ rest.length := by simpa [h] using this
      if (given.lookup f).isSome then .invalid else readTask task ((f, value) :: given) behind
    | (.endOfFlags, []) => readTask task given []
    | (.help, _) => .help (.task task)
    | _ => .invalid
termination_by args => args.length

/-- Reads what help is asked about. -/
def readTopic : List String → Request
  | [] => .help .program
  | [word] =>
    match task? word with
    | some task => .help (.task task)
    | none => if word = helpName then .help .help else .invalid
  | _ => .invalid

/-- How often the common option has been given. That it is there again with a value of its own is
noticed at the next option or when the task begins, whichever comes first; a task that is only asked
for its help does not begin. -/
inductive Count where
  | never
  | once
  | again
deriving DecidableEq, Repr

/-- What is asked for, unless an option that was given again is noticed. -/
def Count.check (n : Count) (r : Request) : Request :=
  if n = .again then .invalid else r

/-- Reads what stands in front of a task, and then its options. -/
def readArgs (logged : Count) : List String → Request
  | [] => .invalid
  | arg :: rest =>
    have := length_nextItem_le commonFlags arg rest
    match h : nextItem commonFlags arg rest with
    | (.flag _ _ joined, behind) =>
      have : behind.length ≤ rest.length := by simpa [h] using this
      match logged, joined with
      | .never, _ => readArgs .once behind
      | .once, false => readArgs .again behind
      | _, _ => .invalid
    | (.word w, behind) =>
      match task? w with
      | some task =>
        match readTask task [] behind with
        | .run c => logged.check (.run c)
        | r => r
      | none => if w = helpName then readTopic behind else .invalid
    | (.help, _) => logged.check (.help .program)
    | (.version, _) => logged.check .version
    | _ => .invalid
termination_by args => args.length

/-- What a command line asks for. -/
def read (args : List String) : Request :=
  readArgs .never args

end Rql.CommandLine
