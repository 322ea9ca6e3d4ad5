import ApiTypes.Import.Source
import ApiTypes.Name.Table

/-! The import table of a module: what it imports, by the identity of the source
and the member. Uses of one member merge into one import, which is a type import
as long as every use is, and keeps the first local name it was given. The table is
applied once all uses are known, in the order of sources and members and not of
uses, and is written as a block of statements, remote sources first. -/

namespace ApiTypes

/-- One imported member, with the local name that its uses ask for, if any, and the
serial number of its registration once it has one. -/
structure Import (τ : Type) where
  member : τ
  localName : Option τ := none
  typeOnly : Bool := false
  name : Option Nat := none

structure ImportedModule (τ : Type) where
  urn : String
  source : Source τ
  imports : List (Import τ) := []

structure Imports (τ : Type) where
  modules : List (ImportedModule τ) := []
  applied : Bool := false

variable {τ : Type} [Label τ]

namespace Import

/-- A fresh import; an empty local name is none. -/
def ofUse (member : τ) (localName : Option τ) (typeOnly : Bool) : Import τ :=
  { member, localName := Label.present? localName, typeOnly }

def merge (i : Import τ) (localName : Option τ) (typeOnly : Bool) : Import τ :=
  { i with localName := i.localName.or (Label.present? localName)
           typeOnly := i.typeOnly && typeOnly }

/-- The identifier that the import registers. -/
def identifier (i : Import τ) : τ :=
  i.localName.getD i.member

/-- The spelling of the import in its module. -/
def token (names : Names τ) (i : Import τ) : Except Error τ :=
  match i.name with
  | some serial => names.token serial
  | none => .error (.ofDefect (.unresolvedImport (Label.document i.member)))

/-- The clause of the import in a statement; a type import is marked unless the
statement imports types alone. A name that is the member itself stands alone. -/
def clause (names : Names τ) (inTypeImport : Bool) (i : Import τ) : Except Error τ := do
  if inTypeImport && !i.typeOnly then
    .error (.ofDefect (.valueImportedAsType (Label.document i.member)))
  let name ← i.token names
  let clause :=
    if Label.equal name i.member then name
    else Label.ofText (Label.plain i.member ++ " as " ++ Label.plain name)
  return if i.typeOnly && !inTypeImport then Label.ofText ("type " ++ Label.plain clause)
    else clause

/-- The import as messages show it. -/
def describe (i : Import τ) : String :=
  let asked := match i.localName with
    | some label => Label.quoted label
    | none => Document.null.quoted
  "Import(" ++ Label.quoted i.member ++ ", alias=" ++ asked ++
    (if i.typeOnly then ", type)" else ", value)")

end Import

namespace ImportedModule

def find? (m : ImportedModule τ) (member : τ) : Option (Import τ) :=
  m.imports.find? fun i => Label.same i.member member

def useIn (member : τ) (localName : Option τ) (typeOnly : Bool) :
    List (Import τ) → List (Import τ)
  | [] => [Import.ofUse member localName typeOnly]
  | i :: rest =>
    if Label.same i.member member then i.merge localName typeOnly :: rest
    else i :: useIn member localName typeOnly rest

/-- The imports in the order that statements show them. -/
def sorted (m : ImportedModule τ) : Except Error (List (Import τ)) :=
  Label.sortBy (·.member) m.imports

/-- The statement for all members of the module. -/
def statement (names : Names τ) (m : ImportedModule τ) (path : String) : Except Error String := do
  let imports ← m.sorted
  let typesOnly := imports.all (·.typeOnly)
  let clauses ← (← imports.mapM (Import.clause names typesOnly)).mapM Label.requireText
  let opening := if typesOnly then "import type \x7b " else "import \x7b "
  return opening ++ ", ".intercalate clauses ++ " \x7d from " ++
    Text.Literal.literal .ascii path ++ ";"

end ImportedModule

namespace Imports

def useIn (urn : String) (source : Source τ) (use : List (Import τ) → List (Import τ)) :
    List (ImportedModule τ) → List (ImportedModule τ)
  | [] => [{ urn, source, imports := use [] }]
  | m :: rest =>
    if m.urn = urn then { m with imports := use m.imports } :: rest
    else m :: useIn urn source use rest

/-- Records a use; answers the table it leaves and the identity of the source. A
member that cannot be a key is refused after its source has been entered. -/
def use (t : Imports τ) (source : Source τ) (member : τ) (localName : Option τ) (typeOnly : Bool) :
    Imports τ × Except Error String :=
  match source.urn with
  | .error e => (t, .error e)
  | .ok urn =>
    if t.applied then (t, .error (.ofDefect (.lateImport (Label.document member) urn)))
    else
      match Label.requireKey member with
      | .error e => ({ t with modules := useIn urn source id t.modules }, .error e)
      | .ok () =>
        let record := ImportedModule.useIn member localName typeOnly
        ({ t with modules := useIn urn source record t.modules }, .ok urn)

def find? (t : Imports τ) (urn : String) (member : τ) : Option (Import τ) :=
  (t.modules.find? fun m => m.urn = urn).bind (·.find? member)

/-- The modules in the order in which their imports are registered. -/
def ordered (t : Imports τ) : List (ImportedModule τ) :=
  t.modules.mergeSort fun m n => m.urn ≤ n.urn

/-- Gives an import the name with a serial number. -/
def setName (t : Imports τ) (urn : String) (member : τ) (serial : Nat) : Imports τ :=
  let rename (i : Import τ) :=
    if Label.same i.member member then { i with name := some serial } else i
  { t with modules := t.modules.map fun m =>
      if m.urn = urn then { m with imports := m.imports.map rename } else m }

def size (t : Imports τ) : Nat :=
  (t.modules.flatMap (·.imports)).length

/-- The order of statements: by path, then by identity of the source. -/
def inOrder (a b : String × ImportedModule τ) : Bool :=
  a.1 < b.1 || (a.1 = b.1 && a.2.urn ≤ b.2.urn)

/-- The statements of some modules with their paths, one a line. -/
def statements (names : Names τ) (located : List (String × ImportedModule τ)) :
    Except Error String := do
  let lines ← (located.mergeSort inOrder).mapM fun (path, m) => m.statement names path
  return "\n".intercalate lines

/-- The block of all statements: remote sources, a blank line, local sources. -/
def block (names : Names τ) (located : List (String × ImportedModule τ)) : Except Error String := do
  let (siblings, remotes) := located.partition fun e => e.2.source.isLocal
  let groups := [remotes, siblings].filter fun group => !group.isEmpty
  return "\n\n".intercalate (← groups.mapM (statements names))

end Imports

end ApiTypes
