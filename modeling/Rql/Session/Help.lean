import Rql.Session.Arguments

/-!
# Help

What the command line says about itself. A text of help says what its subject is for, how it is
called, and what may stand in the call. The last part is in lists of two columns, and in each list
the second column begins two places behind the longest entry of the first.
-/

namespace Rql.CommandLine

/-- What can be written, and what it is for. -/
structure Entry where
  form : String
  purpose : String

/-- Entries under a heading. -/
structure Listing where
  heading : String
  entries : List Entry

namespace Listing

/-- The width of the first column. -/
def width (l : Listing) : Nat :=
  l.entries.foldl (fun w e => max w e.form.length) 0

/-- The line of an entry in a column of a width. -/
def line (width : Nat) (e : Entry) : String :=
  "  " ++ e.form ++ String.ofList (List.replicate (width - e.form.length) ' ') ++ "  " ++ e.purpose

/-- The heading and the entries below it. -/
def lines (l : Listing) : List String :=
  (l.heading ++ ":") :: l.entries.map (line l.width)

end Listing

/-- A text of help. -/
structure Help where
  purpose : String
  /-- How the subject is called. -/
  call : String
  listings : List Listing

namespace Help

/-- The line that shows the call. -/
def usage (h : Help) : String :=
  "Usage: " ++ h.call

/-- The lines of the text. An empty line stands in front of each part but the first. -/
def lines (h : Help) : List String :=
  [h.purpose, "", h.usage] ++ h.listings.flatMap fun l => "" :: l.lines

end Help

/-- The name of the program. -/
def programName : String :=
  "rql"

/-- The line that tells the version. -/
def versionLine : String :=
  programName ++ " 0.1.0"

/-- How an option is written with its value. -/
def Flag.form : Flag → String
  | .tables => Flag.name .tables ++ " <TABLES>"
  | .config => Flag.name .config ++ " <CONFIG>"
  | .log => Flag.name .log ++ " <LOG>"

/-- What an option is for. -/
def Flag.purpose : Flag → String
  | .tables => "Directory of table descriptor files"
  | .config => "Path to compiler configuration file"
  | .log => "Log filter used when RUST_LOG is unset [default: warn]"

/-- The entry of an option. It has no name of one letter, and its place is left free. -/
def Flag.entry (f : Flag) : Entry :=
  ⟨"    " ++ f.form, f.purpose⟩

/-- The entry of the option that asks for help. -/
def helpEntry : Entry :=
  ⟨"-h, --help", "Print help"⟩

/-- The entry of the option that asks for the version. -/
def versionEntry : Entry :=
  ⟨"-V, --version", "Print version"⟩

/-- What a task is for. -/
def taskPurpose : Session.Task → String
  | .compile => "Compile one request per stdin line"
  | .explain => "Explain partition-key plans, one request per stdin line"

/-- What the word that asks for help is for. -/
def helpPurpose : String :=
  "Print this message or the help of the given subcommand(s)"

/-- The help about a topic. -/
def Help.about : Topic → Help
  | .program => {
      purpose := "RQL query compiler: one query-string language, SQL, partition-key and search backends"
      call := programName ++ " [OPTIONS] <COMMAND>"
      listings := [
        ⟨"Commands", tasks.map (fun task => ⟨taskName task, taskPurpose task⟩) ++
          [⟨helpName, helpPurpose⟩]⟩,
        ⟨"Options", commonFlags.map Flag.entry ++ [helpEntry, versionEntry]⟩] }
  | .task t => {
      purpose := taskPurpose t
      call := programName ++ " " ++ taskName t ++ " [OPTIONS] " ++ Flag.form .tables
      listings := [⟨"Options", taskFlags.map Flag.entry ++ [helpEntry]⟩] }
  | .help => {
      purpose := helpPurpose
      call := programName ++ " " ++ helpName ++ " [COMMAND]..."
      listings := [⟨"Arguments", [⟨"[COMMAND]...", "Print help for the subcommand(s)"⟩]⟩] }

end Rql.CommandLine
