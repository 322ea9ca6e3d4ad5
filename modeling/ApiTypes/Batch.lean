import ApiTypes.CommandLine
import ApiTypes.Files.Tree
import ApiTypes.Generation
import ApiTypes.Schema.Dump
import ApiTypes.Schema.Loader

/-! Batches: one run over the sources of a command line. Every schema file is
generated on its own; what its diagnostics say is collected and reported at the
end, and the run goes on. A source that does not exist, a file that cannot be
written and a failure that is no diagnostic end the run at once. -/

namespace ApiTypes

open Files

/-- What a run takes from its environment. -/
structure Environment where
  noColor : Option String := none
  color : Option String := none
  dump : Option String := none
  terminal : Bool := false

def Environment.colors (env : Environment) : ColorSettings :=
  { noColor := env.noColor, wanted := env.color, terminal := env.terminal }

/-- Why a run or one of its files fails: an error of the generation, a file that
cannot be used, a file that is no UTF-8 text or goes beyond a limit of the reader, a
path that no file can have, or a command line that leaves the engine open. -/
inductive Failure where
  | error (e : Error)
  | file (e : FileError)
  | undecodable (path : Path)
  | beyondLimit (path : Path) (reason : Document.Reader.Error)
  | unnameable (path : Path)
  | noEngine

/-- A diagnostic is put into the file it arose from; other failures stay. -/
def Failure.inFile (path : Path) : Failure → Failure
  | error (.diagnostic d) => error (.diagnostic (d.inFile path.text))
  | other => other

/-- The state of a run: the files, both outputs, and the diagnostics so far. -/
structure World where
  tree : Tree
  out : String := ""
  err : String := ""
  reported : List Diagnostic := []

/-- What ends a run early: an exit code, or a failure that nothing handles. -/
inductive Stop where
  | exit (code : Nat)
  | escaped (f : Failure)

namespace Batch

/-- A step of a run; the world survives a failure. -/
abbrev Step (ε α : Type) := ExceptT ε (StateM World) α

/-- What a run does with each of its files. -/
structure Settings where
  engine : Engine
  packaging : Option Packaging := none
  write : Bool := false
  verbose : Bool := false
  dump : Bool := false

/-- The settings of a command line that says what the engine is. -/
def Settings.ofOptions? (options : CommandLine.Options) (env : Environment) : Option Settings :=
  options.engine.map fun engine =>
    { engine, packaging := options.packaging, write := options.write
      verbose := options.verbose, dump := env.dump.getD "" ≠ "" }

/-- Whether an event is logged; without the verbose flag only warnings are. -/
def Settings.logs (s : Settings) (e : Event) : Bool :=
  s.verbose || e.level = .warning

variable {ε : Type}

def print (text : String) : Step ε Unit :=
  modify fun w => { w with out := w.out ++ text }

def complain (text : String) : Step ε Unit :=
  modify fun w => { w with err := w.err ++ text }

def note (s : Settings) (events : List Event) : Step ε Unit :=
  complain (String.join ((events.filter s.logs).map Event.line))

/-- Line ends of every style become newlines. -/
def normalizeLines : List Char → List Char
  | '\r' :: '\n' :: rest => '\n' :: normalizeLines rest
  | '\r' :: rest => '\n' :: normalizeLines rest
  | c :: rest => c :: normalizeLines rest
  | [] => []

/-- The document in a file, which has to be UTF-8 text. -/
def readDocument (path : Path) : Step Failure Document := do
  let w ← get
  match w.tree.read? path with
  | none => throw (.file (.notFound path))
  | some content =>
    match String.fromUTF8? content with
    | none => throw (.undecodable path)
    | some text =>
      match Document.Reader.document (String.ofList (normalizeLines text.toList)) with
      | .ok doc => return doc
      | .error e =>
        if e.cause.isSyntax then throw (.error (.ofCause (.invalidJson e) (some {})))
        else throw (.beyondLimit path e)

/-- Changes the files, or fails and leaves them. -/
def change (f : Tree → Except FileError Tree) : Step Failure Unit := do
  let w ← get
  match f w.tree with
  | .ok tree => set { w with tree }
  | .error e => throw (.file e)

/-- Writes a text and a newline after it. -/
def writeText (path : Path) (text : String) : Step Failure Unit := do
  if path.isUnnameable then throw (.unnameable path)
  change fun t => t.write path (text ++ "\n")

/-- The directory of dumps. -/
def dumpDirectory : Path := Path.ofString "schema_dump"

/-- The file that the dump of a schema goes to; a module path becomes one name. -/
def dumpPath {τ : Type} [Label τ] (s : Schema τ) : Path :=
  let name := s.modulePath.map fun c => if c = '/' then '_' else c
  dumpDirectory.append [name ++ ".sexpr"]

def writeDump {τ : Type} [Label τ] (settings : Settings) (s : Schema τ) : Step Failure Unit := do
  change fun t => t.makeDirectory dumpDirectory
  writeText (dumpPath s) (s.dumpText true)
  note settings [.dumped (dumpPath s).text]

def ofExcept {α : Type} (result : Except Error α) : Step Failure α :=
  match result with
  | .ok a => return a
  | .error e => throw (.error e)

/-- The text of a schema document, dumped first where that is wanted. -/
def generateDocument (settings : Settings) (doc : Document) : Step Failure String := do
  let s ← ofExcept (Schema.ofDocument? doc)
  note settings [s.loaded]
  if settings.dump then writeDump settings s
  let generated := s.generateLoaded settings.engine settings.packaging
  note settings generated.events
  ofExcept generated.result

/-- Where the module of a schema file is written. -/
def targetOf (path : Path) : Path :=
  path.withExtension moduleExtension

/-- Generates the module of one file, and writes it beside the file where that is
wanted. A file that is no schema has no module. -/
def generateFile (settings : Settings) (path : Path) : Step Failure (Option String) := do
  let doc ← withFile (readDocument path)
  if !Schema.isSchema doc then
    note settings [.skipped path.text]
    return none
  let text ← withFile (generateDocument settings doc)
  if settings.write then
    writeText (targetOf path) text
    note settings [.wrote (targetOf path).text]
  return some text
where
  withFile {α : Type} (step : Step Failure α) : Step Failure α :=
    tryCatch step fun f => throw (f.inFile path)

/-- Generates one file of a run and prints its text unless it was written. -/
def visit (settings : Settings) (path : Path) : Step Stop Unit := do
  let w ← get
  let (result, w) := (generateFile settings path).run w
  set w
  match result with
  | .ok (some text) => if !settings.write then print (text ++ "\n")
  | .ok none => return ()
  | .error (.error (.diagnostic d)) => set { w with reported := w.reported ++ [d] }
  | .error (.file e) =>
    complain s!"kuregen: error: could not read {path.text}: {e.message}\n"
    throw (.exit 1)
  | .error f => throw (.escaped f)

/-- The extension of schema files in a directory. -/
def schemaExtension : String := ".json"

/-- The files of a source: itself, or what a directory holds at any depth. -/
def filesOf (t : Tree) (source : Path) : List Path :=
  if t.isDirectory source then t.filesBelow source schemaExtension else [source]

def visitSource (settings : Settings) (source : Path) : Step Stop Unit := do
  let w ← get
  match w.tree.exists? source with
  | .error e => throw (.escaped (.file e))
  | .ok false =>
    complain s!"kuregen: error: file not found: {source.text}\n"
    throw (.exit 1)
  | .ok true => (filesOf w.tree source).forM (visit settings)

/-- Reports what was collected; answers the exit code. -/
def report (env : Environment) : Step Stop Nat := do
  let w ← get
  if w.reported.isEmpty then return 0
  complain (Diagnostic.summarize w.reported env.colors.color ++ "\n")
  return 1

def runSources (options : CommandLine.Options) (env : Environment) : Step Stop Nat := do
  match Settings.ofOptions? options env with
  | none => throw (.escaped .noEngine)
  | some settings =>
    (options.sources.map Path.ofString).forM (visitSource settings)
    report env

/-- How a run ended. -/
inductive Ending where
  | exit (code : Nat)
  | escaped (f : Failure)

/-- Runs a command line over a tree: how it ended, and the world it left. -/
def run (arguments : List String) (env : Environment) (tree : Tree) : Ending × World :=
  match CommandLine.parse arguments with
  | .error e => (.exit 2, { tree, err := s!"kuregen: error: {e.message}\n" })
  | .ok .help => (.exit 0, { tree })
  | .ok (.run options) =>
    match (runSources options env).run { tree } with
    | (.ok code, w) => (.exit code, w)
    | (.error (.exit code), w) => (.exit code, w)
    | (.error (.escaped f), w) => (.escaped f, w)

end Batch

end ApiTypes
