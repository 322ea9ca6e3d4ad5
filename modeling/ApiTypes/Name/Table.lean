import ApiTypes.Event
import ApiTypes.Label
import ApiTypes.Name.Usage

/-! The identifier table of a module. Every registration asks for an identifier;
a resolution gives out the spellings in one go. The registrations of one
identifier form a group, declarations before imports: the first of a group keeps
the identifier, the second gets an underscore after it, and a later one its
position as well. A table is its registrations in order, so a registration is
known by its serial number. -/

namespace ApiTypes

/-- One registration of an identifier, with its spelling once it has one. -/
structure Name (τ : Type) where
  identifier : τ
  usage : Usage
  spelling : Option τ := none
  deriving Repr

namespace Name

variable {τ : Type} [Label τ]

/-- The spelling, which a null does not provide. -/
def spelling? (n : Name τ) : Option τ :=
  n.spelling.filter fun s => !Label.isNull s

def token (n : Name τ) : Except Error τ :=
  match n.spelling? with
  | some spelling => .ok spelling
  | none => .error (.ofDefect (.unresolvedName (Label.document n.identifier)))

/-- Fixes the spelling, once. -/
def resolve (n : Name τ) (spelling : τ) : Except Error (Name τ) :=
  match n.spelling? with
  | none => .ok { n with spelling := some spelling }
  | some old =>
    .error (.ofDefect (.alreadyResolved (Label.document n.identifier) (Label.document old)))

/-- Two declarations of one identifier conflict; imports never do. -/
def conflictsWith (n : Name τ) (usage : Usage) : Bool :=
  n.usage = .declaration && usage = .declaration

/-- The registration as messages show it. -/
def describe (n : Name τ) : String :=
  let spelling := match n.spelling with
    | some spelling => Label.quoted spelling
    | none => Document.null.quoted
  "Name(" ++ Label.quoted n.identifier ++ s!", {n.usage.text}, resolved=" ++ spelling ++ ")"

/-- The spelling at a position of a group that asked for an identifier. -/
def numbered (identifier : τ) : Nat → τ
  | 0 => identifier
  | 1 => Label.ofText (Label.plain identifier ++ "_")
  | n + 2 => Label.ofText (Label.plain identifier ++ "_" ++ toString (n + 2))

end Name

/-- The identifier table; once resolved it takes no registrations. -/
structure Names (τ : Type) where
  entries : List (Name τ) := []
  resolved : Bool := false

namespace Names

variable {τ : Type} [Label τ]

/-- The registrations of an identifier, in order, with their serial numbers. -/
def groupOf (t : Names τ) (identifier : τ) : List (Name τ × Nat) :=
  t.entries.zipIdx.filter fun e => Label.same e.1.identifier identifier

/-- Registers an identifier; answers the table and the serial number. -/
def add (t : Names τ) (identifier : τ) (usage : Usage) : Except Error (Names τ × Nat) := do
  if t.resolved then .error (.ofDefect (.lateName (Label.document identifier)))
  Label.requireKey identifier
  if (t.groupOf identifier).any fun e => e.1.conflictsWith usage then
    .error (.ofCause (.duplicateDeclaration (Label.document identifier)))
  return ({ t with entries := t.entries ++ [{ identifier, usage }] }, t.entries.length)

/-- The declaration of an identifier; imports are not considered. -/
def declared (t : Names τ) (identifier : τ) : Except Error (Name τ × Nat) := do
  Label.requireKey identifier
  match (t.groupOf identifier).find? fun e => e.1.usage = .declaration with
  | some found => return found
  | none => .error (.ofDefect (.undeclaredName (Label.document identifier)))

/-- The identifiers of some registrations, each at its first appearance. -/
def identifiersOf : List (Name τ) → List τ
  | [] => []
  | n :: rest =>
    n.identifier :: (identifiersOf rest).filter fun x => !Label.same n.identifier x

/-- The serial numbers of a group in the order of its positions. -/
def ranking (t : Names τ) (identifier : τ) : List Nat :=
  let (declarations, imports) :=
    (t.groupOf identifier).partition fun e => e.1.usage = .declaration
  (declarations ++ imports).map (·.2)

/-- One spelling to give out: the registration, the identifier of its group, and
its position there. -/
structure Assignment (τ : Type) where
  serial : Nat
  identifier : τ
  position : Nat

/-- All spellings to give out, group by group. -/
def assignments (t : Names τ) : List (Assignment τ) :=
  (identifiersOf t.entries).flatMap fun identifier =>
    (t.ranking identifier).zipIdx.map fun (serial, position) => ⟨serial, identifier, position⟩

/-- What is left of a resolution: the entries, the events up to here, and the
error that ended it, if one did. -/
structure Resolution (τ : Type) where
  names : Names τ
  events : List Event := []
  error : Option Error := none

/-- The event of a registration that does not keep its identifier. -/
def Assignment.events (a : Assignment τ) (n : Name τ) : List Event :=
  if a.position = 0 then []
  else
    [.renamed n.usage (Label.document a.identifier)
      (Label.document (Name.numbered a.identifier a.position))]

/-- Gives out spellings in turn, up to the first registration that has one. The
first of a group keeps the identifier as it asked for it. -/
def settle (t : Names τ) : List (Assignment τ) → Resolution τ
  | [] => { names := { t with resolved := true } }
  | a :: rest =>
    match t.entries[a.serial]? with
    | none => settle t rest
    | some n =>
      let spelling :=
        if a.position = 0 then n.identifier else Name.numbered a.identifier a.position
      match n.resolve spelling with
      | .error e => { names := t, error := some e }
      | .ok n' =>
        let done := settle { t with entries := t.entries.set a.serial n' } rest
        { done with events := a.events n ++ done.events }

/-- Fixes every spelling. -/
def resolve (t : Names τ) : Resolution τ :=
  if t.resolved then { names := t, error := some (.ofDefect .namesResolved) }
  else t.settle t.assignments

/-- The spelling of the registration with a serial number. -/
def token (t : Names τ) (serial : Nat) : Except Error τ :=
  match t.entries[serial]? with
  | some n => n.token
  | none => .error (.ofDefect (.unresolvedName .null))

/-- Fixes the spelling of one registration alone. -/
def resolveAt (t : Names τ) (serial : Nat) (spelling : Option τ) : Except Error (Names τ) :=
  match t.entries[serial]? with
  | some n => do
    let n' ← n.resolve (spelling.getD n.identifier)
    return { t with entries := t.entries.set serial n' }
  | none => .ok t

def size (t : Names τ) : Nat :=
  t.entries.length

end Names

end ApiTypes
