import Epistemic.Session
/-!
# Conversion of planning files

What the command line does: it reads the files of a task and writes the documents. Where a domain has groups of
observers of its own, the problem file says where the domain is, and the documents are for a planner that looks into a
file of a fixed name for the path.
-/
namespace Epistemic
namespace Convert

open Session

/-- The texts of the files that can be read, by path. -/
abbrev Disk := String → Option String

/-- The folder of documents in mAp. -/
def mApFolder : String := "out/efp"

/-- The folder of documents in PDKB. -/
def pdkbFolder : String := "out/pdkb"

/-- The argument at a place of the command line. -/
def argument (args : List String) (place : Nat) : Work Session String :=
  match args[place]? with
  | some a => pure a
  | none => Work.stop .missingArgument

/-- Converts a domain file and a problem file to mAp and to PDKB. -/
def levels (disk : Disk) (args : List String) : Work Session Unit := do
  let domainFile ← argument args 0
  let problemFile ← argument args 1
  readDomain domainFile (disk domainFile)
  readProblem problemFile (disk problemFile)
  writeMAp mApFolder
  let domain ← domainName
  let problem ← problemName
  say "\nThe given files have been correctly converted to mAp."
  say ("The resulting file, called '" ++ domain ++ "_" ++ problem ++ ".txt', is in the 'out\\efp' folder.\n")
  writePdkb pdkbFolder
  say "\nThe given files have been correctly converted to PDKB-PDDL."
  say ("The resulting files, called '" ++ domain ++ ".pdkpddl' and '" ++ problem ++
    ".pdkpddl', are in the 'out\\pdkb' folder.\n")

/-- The folder part of a path, without the slashes behind it unless there is nothing else. -/
def folderOf (path : String) : String :=
  let folder := path.toList.reverse.dropWhile (· != '/')
  let bare := folder.dropWhile (· == '/')
  String.ofList (if bare.isEmpty then folder else bare.reverse)

/-- A file next to a problem file. -/
def beside (problemFile name : String) : String :=
  let folder := folderOf problemFile
  if folder == "" then name else folder ++ "/" ++ name

/-- The domain file that a problem file with a text asks for, next to the problem file. -/
def askedFile? (problemFile : String) (text : Option String) : Option String :=
  (text.bind Source.domainFile?).map (beside problemFile)

/-- The domain file that a problem file asks for. If it asks for none, that is reported or refused later, unless the
problem file has a folder. -/
def domainFile (disk : Disk) (problemFile : String) : Work Session (Option String) := do
  if (disk problemFile).isNone then
    say (notFound problemFile)
  match askedFile? problemFile (disk problemFile) with
  | some file => return some file
  | none => if folderOf problemFile == "" then return none else Work.stop .noDomainFile

/-- Reads the domain from the file that the problem asks for. -/
def readAskedDomain (disk : Disk) : Option String → Work Session Unit
  | some file => readDomain file (disk file)
  | none => do
    say "expected str, bytes or os.PathLike object, not NoneType"
    Work.stop .noDomainFile

/-- Converts a problem file, and the domain file that it asks for, to mAp in a folder. The path of the document is left
in a file of that folder. -/
def groups (disk : Disk) (args : List String) : Work Session Unit := do
  let problemFile ← argument args 0
  let file ← domainFile disk problemFile
  let folder ← argument args 1
  readAskedDomain disk file
  readProblem problemFile (disk problemFile)
  writeMAp folder
  let name ← taskName
  writeFile (folder ++ "/filename.tmp") (Draft.write (folder ++ "/" ++ name ++ ".tmp"))

/-- Converts the files of a command line. -/
def run (dialect : Dialect) (disk : Disk) (args : List String) : Work Session Unit :=
  match dialect with
  | .levels => levels disk args
  | .groups => groups disk args

end Convert
end Epistemic
