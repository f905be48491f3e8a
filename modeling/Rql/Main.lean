import Rql.Session.Help
import Rql.Session.Run

/-!
# The command line

Reads the tables and the settings that the command line names, opens a session, and answers the lines
of standard input on standard output, each as soon as it is there.
-/

namespace Rql.CommandLine

/-- The text of a file, none if it cannot be read as text. -/
def readText (path : String) : IO (Option String) := do
  try return some (← IO.FS.readFile path) catch _ => return none

/-- The descriptors of a directory with their texts. No other file is opened. -/
def readDirectory (path : String) : IO Catalog.Directory := do
  let files ← try
      let entries ← (← IO.FS.realPath path).readDir
      let entries := entries.toList.filter fun entry => Catalog.isDescriptorName entry.fileName
      let files ← entries.mapM fun entry => do
        return ({ name := entry.fileName, text := ← readText entry.path.toString } : Catalog.File)
      pure (some files)
    catch _ => pure none
  return { path, files }

/-- Writes lines. -/
def printLines (lines : List String) : IO UInt32 := do
  for line in lines do
    IO.println line
  return 0

/-- Says what ended a run. -/
def fail (e : RunError) : IO UInt32 := do
  IO.eprintln e.display
  return 1

/-- Answers the lines that are still to come, each as soon as it is complete. `pending` is what there is
of the first one. -/
partial def serve (s : Session) (task : Session.Task) (pending : List UInt8) : IO UInt32 := do
  let chunk ← (← IO.getStdin).read 65536
  let atEnd := chunk.isEmpty
  let (ready, rest) :=
    if atEnd then (Lines.read pending, []) else Lines.readComplete (pending ++ chunk.toList)
  let outcome := s.answerAll task ready
  let stdout ← IO.getStdout
  stdout.putStr outcome.written
  stdout.flush
  match outcome.error with
  | some e => fail e
  | none => if atEnd then return 0 else serve s task rest

/-- Carries out a command. -/
def execute (c : Command) : IO UInt32 := do
  let config ← c.config.mapM fun path => readText path
  match Session.openWith config (← readDirectory c.tables) with
  | .error e => fail e
  | .ok s => serve s c.task []

end Rql.CommandLine

/-- Exit codes are 0, 1 for a run that was ended by an error, and 2 for a wrong command line. -/
def main (args : List String) : IO UInt32 := do
  match Rql.CommandLine.read args with
  | .run c => Rql.CommandLine.execute c
  | .help topic => Rql.CommandLine.printLines (Rql.CommandLine.Help.about topic).lines
  | .version => Rql.CommandLine.printLines [Rql.CommandLine.versionLine]
  | .invalid => do
    IO.eprintln (Rql.CommandLine.Help.about .program).usage
    return 2
