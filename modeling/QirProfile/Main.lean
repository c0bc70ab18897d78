import QirProfile.CommandLine.Run

/-!
# The program

The run itself is a function on a folder of files. This module fills the folder from the disk,
prints what the run prints, and writes the files that it changes.
-/

namespace QirProfile.Main

/-- Whether the disk has a folder at a path. -/
def isFolder (path : String) : IO Bool :=
  try (← IO.FS.realPath path).isDir catch _ => pure false

/-- Adds the folders on the way of a path, and the file at its end. -/
def load (folder : Folder) (path : String) : IO Folder := do
  let steps := path.splitOn "/"
  let ways := (List.range (steps.length + 1)).map fun n => "/".intercalate (steps.take n)
  let folder := { folder with folders := (← ways.filterM isFolder) ++ folder.folders }
  try
    return { folder with files := (path, ← IO.FS.readFile path) :: folder.files }
  catch _ => return folder

/-- Adds what the disk holds at each path that a run may touch and that is not known yet. -/
def loadAll (args : List String) (folder : Folder) : IO Folder :=
  ((CommandLine.paths args folder).filter fun p => !folder.exists? p).foldlM load folder

/-- The message about a refused command line. -/
def usageMessage : CommandLine.UsageError → String
  | .unknownArgument => "error: unexpected argument"
  | .argumentConflict => "error: an argument cannot be used here"
  | .invalidValue => "error: a value is missing or invalid"
  | .tooManyValues => "error: unexpected value for an argument"
  | .displayHelp => "Usage: qir-profile [OPTIONS] [INPUT]"
  | .displayVersion => "qir-profile"

/-- Writes the files that are new or have changed. -/
def store (before after : Folder) : IO Unit :=
  (after.files.filter fun f => !before.files.contains f).forM fun (path, text) =>
    IO.FS.writeFile path text

end QirProfile.Main

open QirProfile in
/-- Runs the command line on the files of the disk. -/
def main (args : List String) : IO UInt32 := do
  -- The settings are among the files, and they may name another one.
  let folder ← Main.loadAll args (← Main.loadAll args {})
  let (outcome, session) := CommandLine.run args folder
  Main.store folder session.folder
  IO.print session.stdout
  IO.eprint session.stderr
  match outcome with
  | .done => pure ()
  | .failed message => IO.eprintln ("Error: " ++ message)
  | .usage e => IO.eprintln (Main.usageMessage e)
  return outcome.exitCode.toUInt32
