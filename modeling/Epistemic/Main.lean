import Epistemic.Convert
/-!
# Command line

With two arguments, a domain file and a problem file are converted to mAp and to PDKB. Behind `--groups`, a problem
file is converted to mAp in a folder, and the domain file is the one that the problem file asks for.
-/
namespace Epistemic
namespace CommandLine

/-- The text of a file, if it can be read. -/
def textOf? (path : String) : IO (Option String) := do
  try
    return some (← IO.FS.readFile path)
  catch _ =>
    return none

/-- The files that are given or asked for, with those that can be read. -/
def load (dialect : Dialect) (args : List String) : IO (Catalog String) := do
  let mut disk : Catalog String := []
  for path in args do
    if let some text ← textOf? path then
      disk := disk.insert path text
  if dialect == .groups then
    for path in args.take 1 do
      if let some file := Convert.askedFile? path (disk.get? path) then
        if let some text ← textOf? file then
          disk := disk.insert file text
  return disk

/-- Writes the files of a session. -/
def store (files : Catalog String) : IO Unit := do
  for (path, text) in files do
    IO.FS.createDirAll (Convert.folderOf path)
    IO.FS.writeFile path text

/-- Converts the files of a command line. -/
def run (dialect : Dialect) (args : List String) : IO UInt32 := do
  let disk ← load dialect args
  let (outcome, session) := (Convert.run dialect disk.get? args).perform { task := { dialect } }
  store session.files
  IO.print session.report
  match outcome with
  | .ok () => return 0
  | .error e =>
    IO.eprintln e.message
    return 1

end CommandLine
end Epistemic

/-- Runs the command line. -/
def main (args : List String) : IO UInt32 :=
  match args with
  | "--groups" :: args => Epistemic.CommandLine.run .groups args
  | args => Epistemic.CommandLine.run .levels args
