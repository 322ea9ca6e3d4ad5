import ApiTypes.Batch

/-! The program. It reads the files that a run can see into a tree, runs the batch
over the tree, writes the files that the batch has changed, and prints what the
batch said. -/

namespace ApiTypes.Program

open Files

/-- The path on the disk of the components from the root. -/
def diskPath (place : List String) : String :=
  "/" ++ "/".intercalate place

/-- Adds what the disk holds at a path, whose parent is in the tree. -/
def observe (t : Tree) (p : Path) : IO Tree := do
  match t.locate p with
  | .error _ => return t
  | .ok place =>
    let file := (← IO.currentDir) / diskPath place
    if (t.find? place).isSome then return t
    else if ← file.isDir then return t.put place .directory
    else if ← file.pathExists then return t.put place (.file (← IO.FS.readBinFile file))
    else return t

/-- Adds a path and the directories that lead to it. -/
def observeAll (t : Tree) (p : Path) : IO Tree :=
  (List.range (p.parts.length + 1)).foldlM
    (fun t n => observe t { p with parts := p.parts.take n }) t

/-- Whether a run may read or replace a file of this name. -/
def isRelevant (name : String) : Bool :=
  name.endsWith Batch.schemaExtension || name.endsWith moduleExtension

/-- Adds the directories below a directory and the relevant files in them. -/
partial def observeBelow (t : Tree) (p : Path) : IO Tree := do
  let .ok place := t.locate p | return t
  if !t.isDirectory p then return t
  let mut tree := t
  for entry in ← ((← IO.currentDir) / diskPath place).readDir do
    let inside := p.append [entry.fileName]
    if ← entry.path.isDir then
      tree ← observeBelow (← observe tree inside) inside
    else if isRelevant entry.fileName then
      tree ← observe tree inside
  return tree

/-- A source, what is below it, and the module file beside it. -/
def observeSource (t : Tree) (p : Path) : IO Tree := do
  let t ← observeAll t p
  let t ← observeAll t (Batch.targetOf p)
  observeBelow t p

/-- The tree that the arguments make a run see. -/
def snapshot (arguments : List String) : IO Tree := do
  let home := (Path.ofString (← IO.currentDir).toString).parts
  let sources := match CommandLine.parse arguments with
    | .ok (.run options) => options.sources.map Path.ofString
    | _ => []
  let t ← observeAll { home } Batch.dumpDirectory
  sources.foldlM observeSource (← observeBelow t Batch.dumpDirectory)

/-- Writes entries to the disk. -/
def save (entries : List (List String × Entry)) : IO Unit :=
  entries.forM fun (place, entry) =>
    match entry with
    | .directory => IO.FS.createDirAll (diskPath place)
    | .file content => IO.FS.writeBinFile (diskPath place) content

def environment : IO Environment := do
  return { noColor := ← IO.getEnv "NO_COLOR", color := ← IO.getEnv "KUREGEN_COLOR"
           dump := ← IO.getEnv "KUREGEN_DUMP_SCHEMA", terminal := ← (← IO.getStderr).isTty }

/-- A failure that ended a run, in one line. -/
def failureText : Failure → String
  | .error (.diagnostic d) => d.text
  | .error (.defect d) => d.text
  | .error (.misfit _) => "a schema holds a value of the wrong type"
  | .file e => e.message
  | .undecodable path => s!"{path.text} is not UTF-8 text"
  | .beyondLimit path reason => s!"{path.text}: {reason.message}"
  | .unnameable path => "no file can be named " ++ (Document.text path.text).quoted
  | .noEngine => "no engine was chosen"

end ApiTypes.Program

open ApiTypes in
def main (arguments : List String) : IO UInt32 := do
  let tree ← Program.snapshot arguments
  let (ending, w) := Batch.run arguments (← Program.environment) tree
  Program.save (w.tree.changesSince tree)
  (← IO.getStdout).putStr w.out
  (← IO.getStderr).putStr w.err
  match ending with
  | .exit code => return code.toUInt32
  | .escaped f =>
    (← IO.getStderr).putStr s!"kuregen: failure: {Program.failureText f}\n"
    return 1
