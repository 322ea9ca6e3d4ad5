import ApiTypes.Import.Table
import ApiTypes.Module.Member
import ApiTypes.Phase

/-! Modules under generation. A module owns its names, its imports and its
members, and renders once: every member is applied in order and then the import
table, all spellings are fixed, and the import block and the members are written
with a blank line between them. A failure on the way leaves the module failed.
Operations keep the state they reached when they fail. -/

namespace ApiTypes

/-- An operation on a state; the state survives a failure. -/
abbrev Op (σ : Type) := ExceptT Error (StateM σ)

structure Module (τ : Type) where
  path : τ
  phase : Phase := .created
  names : Names τ := {}
  imports : Imports τ := {}
  members : List (Member τ) := []
  log : List Event := []
  observed : List Phase := []

/-- The answer to a request: a name by its serial number, an import by its place in
the table, or an identifier to be looked up when it is read. -/
inductive Binding (τ : Type) where
  | name (serial : Nat) (identifier : τ)
  | member (urn : String) (member : τ)
  | lookup (identifier : τ)

variable {τ : Type} [Label τ]

/-- What the binding was asked for. -/
def Binding.subject : Binding τ → τ
  | name _ identifier => identifier
  | member _ imported => imported
  | lookup identifier => identifier

/-- The binding as messages show it. -/
def Binding.describe (b : Binding τ) : String :=
  "Binding(" ++ Label.quoted b.subject ++ ")"

namespace Module

/-- The spelling that a binding stands for. -/
def read (m : Module τ) : Binding τ → Except Error τ
  | .name serial _ => m.names.token serial
  | .member urn member =>
    match m.imports.find? urn member with
    | some i => i.token m.names
    | none => .error (.ofDefect (.unresolvedImport (Label.document member)))
  | .lookup identifier => do
    let (n, _) ← m.names.declared identifier
    n.token

/-- The spelling of a symbol. -/
def spell (m : Module τ) : Symbol τ → Except Error τ
  | .declared identifier => m.read (.lookup identifier)
  | .imported source member => do m.read (.member (← source.urn) member)

def note (events : List Event) : Op (Module τ) Unit :=
  modify fun m => { m with log := m.log ++ events }

def setPhase (phase : Phase) : Op (Module τ) Unit :=
  modify fun m => { m with phase }

/-- Refuses an action outside its phase. -/
def expect (required : Phase) (action : String) : Op (Module τ) Unit := do
  let m ← get
  if m.phase ≠ required then
    throw (.ofDefect (.wrongPhase action (Label.document m.path) required m.phase))

/-- Adds a member, as long as the module is only created. -/
def add (member : Member τ) : Op (Module τ) Unit := do
  let m ← get
  if m.phase ≠ .created then
    throw (.ofDefect (.lateMember (Label.document m.path) m.phase))
  set { m with members := m.members ++ [member] }

def useImport (source : Source τ) (member : τ) (localName : Option τ) (typeOnly : Bool) :
    Op (Module τ) (Binding τ) := do
  let m ← get
  let (imports, result) := m.imports.use source member localName typeOnly
  set { m with imports }
  let urn ← liftExcept result
  return .member urn (((imports.find? urn member).map (·.member)).getD member)

def addName (identifier : τ) (usage : Usage) : Op (Module τ) (Binding τ) := do
  let m ← get
  let (names, serial) ← liftExcept (m.names.add identifier usage)
  set { m with names }
  return .name serial identifier

def request : Request τ → Op (Module τ) (Binding τ)
  | .name identifier usage => do
    expect .applying ("name " ++ Label.quoted identifier)
    addName identifier usage
  | .useMember source member localName typeOnly => do
    expect .applying ("import of " ++ Label.quoted member)
    useImport source member localName typeOnly
  | .lookup identifier => return .lookup identifier

/-- Fixes every spelling; what was fixed before a failure stays. -/
def resolveNames : Op (Module τ) Unit := do
  let m ← get
  let done := m.names.resolve
  set { m with names := done.names, log := m.log ++ done.events }
  match done.error with
  | some e => throw e
  | none => return ()

/-- Registers a name for one import. -/
def applyImport (urn : String) (i : Import τ) : Op (Module τ) Unit := do
  let m ← get
  let (names, serial) ← liftExcept (m.names.add i.identifier .imported)
  set { m with names, imports := m.imports.setName urn i.member serial }

/-- Registers names for all imports, in the order of sources and members. -/
def applyImports : Op (Module τ) Unit := do
  let m ← get
  m.imports.ordered.forM fun imported => do
    (← liftExcept imported.sorted).forM (applyImport imported.urn)
  modify fun m => { m with imports := { m.imports with applied := true } }

/-- The path of a source in the context, with a warning if it lacks a version. -/
def locate (ctx : Context τ) (source : Source τ) : Op (Module τ) String := do
  note (← liftExcept (source.warnings ctx))
  liftExcept (source.path ctx)

/-- The imported modules with their paths in the context. -/
def locateImports (ctx : Context τ) : Op (Module τ) (List (String × ImportedModule τ)) := do
  let m ← get
  m.imports.modules.mapM fun imported => do return (← locate ctx imported.source, imported)

/-- The import block as the context shapes it. -/
def importBlock (ctx : Context τ) : Op (Module τ) String := do
  let located ← locateImports ctx
  let m ← get
  liftExcept (Imports.block m.names located)

/-- The binding at an index, which counts from the end if it is negative. -/
def bindingAt? (bindings : List (Binding τ)) (index : Int) : Option (Binding τ) :=
  if index < 0 then bindings.reverse[index.natAbs - 1]? else bindings[index.toNat]?

/-- The answer of an action that has nothing to say. -/
def nothing : τ := Label.ofText ""

/-- Runs one action of a script: the bindings it leaves, and its answer. A member runs
only while its module renders, so its own wish to render is always refused. -/
def perform (bindings : List (Binding τ)) : Action τ → Op (Module τ) (List (Binding τ) × τ)
  | .request r => do return (bindings ++ [← request r], nothing)
  | .read index => do
    let m ← get
    match bindingAt? bindings index with
    | some b => return (bindings, ← liftExcept (m.read b))
    | none => throw (.misfit (.position index))
  | .add member => do
    add member
    return (bindings, nothing)
  | .render => do
    let m ← get
    throw (.ofDefect (.wrongPhase "render" (Label.document m.path) .created m.phase))
  | .resolve => do
    resolveNames
    return (bindings, nothing)
  | .use source member => do
    discard (useImport source member none false)
    return (bindings, nothing)
  | .observe => do
    modify fun m => { m with observed := m.observed ++ [m.phase] }
    return (bindings, nothing)

/-- Applies a member; its bindings are kept for its rendering. -/
def applyMember : Member τ → Op (Module τ) (List (Binding τ))
  | .script actions _ =>
    actions.foldlM (fun bindings a => do return (← perform bindings a).1) []

def renderPart (ctx : Context τ) (bindings : List (Binding τ)) :
    Part τ → Op (Module τ) (List (Binding τ) × τ)
  | .piece p => do
    let m ← get
    return (bindings, Label.ofText (← liftExcept (p.render ctx m.spell)))
  | .binding index => perform bindings (.read index)
  | .action a => perform bindings a

/-- Renders a member with the bindings that its application left. Its parts are joined
when all are there, so each has to be a text. -/
def renderMember (ctx : Context τ) (bindings : List (Binding τ)) :
    Member τ → Op (Module τ) String
  | .script _ parts => do
    let (_, labels) ← parts.foldlM (fun (bindings, labels) part => do
      let (bindings, label) ← renderPart ctx bindings part
      return (bindings, labels ++ [label])) (bindings, [])
    return String.join (← liftExcept (labels.mapM Label.requireText))

/-- The steps of a rendering between `created` and `done`. -/
def runPhases (ctx : Context τ) : Op (Module τ) (List String) := do
  setPhase .applying
  let bindings ← (← get).members.mapM applyMember
  applyImports
  setPhase .resolving
  resolveNames
  let m ← get
  note [.assembled (Label.plain m.path) m.members.length m.imports.size m.names.size]
  setPhase .rendering
  let block ← importBlock ctx
  let texts ← (m.members.zip bindings).mapM fun (member, bound) => renderMember ctx bound member
  return block :: texts

/-- The import block and the text of every member. -/
def fragments (ctx : Context τ) : Op (Module τ) (List String) := do
  expect .created "render"
  try
    let texts ← runPhases ctx
    setPhase .done
    return texts
  catch e =>
    setPhase .failed
    throw e

/-- Fragments with a blank line between them, the empty ones left out. -/
def joinFragments (fragments : List String) : String :=
  "\n\n".intercalate (fragments.filter (· ≠ ""))

/-- The text of the module. -/
def render (ctx : Context τ) : Op (Module τ) String := do
  return joinFragments (← fragments ctx)

/-- Runs one action from outside; a module that is only created renders as a whole. -/
def step (ctx : Context τ) (bindings : List (Binding τ)) :
    Action τ → Op (Module τ) (List (Binding τ) × τ)
  | .render => do return (bindings, Label.ofText (← render ctx))
  | a => perform bindings a

/-- The text of a member that was never applied: there is none. -/
def renderUnapplied (_ : Member τ) : Op (Module τ) String :=
  throw (.ofDefect .notApplied)

end Module

end ApiTypes
