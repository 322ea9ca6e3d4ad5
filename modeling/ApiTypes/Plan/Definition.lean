import ApiTypes.Plan.TypeExpr

/-! The plans of declarations: the version header, the base type of resources, and
one group of declarations for each definition. A definition is an alias, a
re-export, an interface or a resource, as its type says. -/

namespace ApiTypes

variable {τ : Type} [Label τ]

def versionType : String := "APIVersion"
def versionValue : String := "apiVersion"
def resourceBase : String := "Resource"

/-- The support library of resources. -/
def supportLibrary : Source τ :=
  .library (Label.ofText "schema") none

/-- A member of the support library. -/
def supportSymbol (member : String) : Symbol τ :=
  .imported supportLibrary (Label.ofText member)

def supportRequest (member : String) (typeOnly : Bool) : Request τ :=
  .useMember supportLibrary (Label.ofText member) none typeOnly

namespace Plan

def declare (identifier : τ) : Plan τ :=
  { requests := [.name identifier .declaration] }

def ofRequests (requests : List (Request τ)) : Plan τ :=
  { requests }

def spelling (s : Symbol τ) : Plan τ :=
  { pieces := [.spelling s] }

def ofPieces (pieces : List (Piece τ)) : Plan τ :=
  { pieces }

end Plan

namespace Piece

/-- The spelling of a symbol as a literal. -/
def literal (s : Symbol τ) : Piece τ :=
  .computed [s] fun _ spellings => .ok (String.join (spellings.map Label.literal))

def versionLiteral : Piece τ :=
  .computed [] fun ctx _ => .ok (Label.literal ctx.apiVersion)

def versionText : Piece τ :=
  .computed [] fun ctx _ => .ok (Label.plain ctx.apiVersion)

/-- The clause that gives a name back to a symbol spelled otherwise. -/
def exportAlias (target name : Symbol τ) : Piece τ :=
  .computed [target, name] fun _ spellings =>
    match spellings with
    | [local', wanted] =>
      .ok (if Label.equal local' wanted then "" else " as " ++ Label.plain wanted)
    | _ => .ok ""

end Piece

/-- A declaration of this module, by its text. -/
def ownSymbol (identifier : String) : Symbol τ :=
  .declared (Label.ofText identifier)

/-- The type and the constant of the API version. -/
def Plan.header : Plan τ :=
  { requests := [.name (Label.ofText versionType) .declaration,
      .name (Label.ofText versionValue) .declaration]
    pieces := [.text "export type ", .spelling (ownSymbol versionType), .text " = ",
      .versionLiteral, .text ";\nexport const ", .spelling (ownSymbol versionValue), .text ": ",
      .spelling (ownSymbol versionType), .text " = ", .versionLiteral, .text ";"] }

/-- The properties of a type that has some. -/
def TypeExpr.properties? : TypeExpr τ → Option (List (Property τ))
  | object properties _ => some properties
  | resource properties _ => some properties
  | _ => none

namespace Definition

def requireProperties (d : Definition τ) : Except Error (List (Property τ)) :=
  match d.value.properties? with
  | some properties => .ok properties
  | none => .error (.misfit (.fields .null))

def isMetadata (p : Property τ) : Bool :=
  Label.isText p.name metadataName

/-- The metadata property of a resource: the only one of its name, and a reference. -/
def metadata (d : Definition τ) : Except Error (Property τ × Reference τ) := do
  let properties ← d.requireProperties
  let name := Label.document d.name
  let place := (Location.ofDefinition name).withProperty (.text metadataName)
  match properties.filter isMetadata with
  | [p] =>
    match p.value with
    | .reference target => return (p, target)
    | other => .error (.ofCause (.metadataKind name other.kind) (some place))
  | found => .error (.ofCause (.metadataCount name found.length) (some place))

def symbol (d : Definition τ) : Symbol τ :=
  .declared d.name

def doc (d : Definition τ) : Plan τ :=
  .doc d.description d.deprecated 0

/-- A type alias of the name. -/
def aliasPlan (d : Definition τ) : Except Error (Plan τ) := do
  let value ← d.value.plan false
  return .declare d.name ++ d.doc
    ++ .ofPieces [.text "export type ", .spelling d.symbol, .text " = "] ++ value ++ .ofText ";"

/-- A re-export of a referenced type under the name. The name is declared like any
other, so an import of the same member is renamed and the statement gives the
name back. -/
def reexportPlan (d : Definition τ) (target : Reference τ) : Plan τ :=
  .declare d.name ++ .ofRequests [target.request] ++ .check [target.symbol, d.symbol] ++ d.doc ++
    .ofPieces [.text "export type \x7b ", .spelling target.symbol,
      .exportAlias target.symbol d.symbol, .text " \x7d;"]

/-- An interface with the parents of the object in its heading. -/
def interfacePlan (d : Definition τ) (parents : List (Reference τ)) : Except Error (Plan τ) := do
  let body ← d.value.plan true
  let heading :=
    if parents.isEmpty then Plan.ofText ""
    else .ofText " extends " ++ .intercalate ", " (parents.map fun r => .spelling r.symbol)
  return .declare d.name ++ .ofRequests body.requests ++ .ofRequests (parents.map Reference.request)
    ++ .requireTexts (parents.map Reference.symbol) ++ d.doc
    ++ .ofPieces [.text "export interface ", .spelling d.symbol] ++ heading ++ .ofText " "
    ++ .ofPieces body.pieces

/-- The name of the list type of a resource. -/
def listName (d : Definition τ) : τ :=
  Label.ofText (Label.plain d.name ++ "List")

/-- A resource: an interface over the base type, a factory of the same name, and a
list type. The default scope is left out of the interface. -/
def resourcePlan (d : Definition τ) (properties : List (Property τ)) (scope : τ) :
    Except Error (Plan τ) := do
  let _ ← d.metadata
  let body ← TypeExpr.plan false (.object (properties.filter fun p => !isMetadata p) [])
  let scopeArgument :=
    if Label.isText scope defaultScope then "" else ", " ++ Label.literal scope
  let interface := d.doc
    ++ .ofPieces [.text "export interface ", .spelling d.symbol, .text " extends ",
      .spelling (ownSymbol resourceBase), .text "<", .literal d.symbol,
      .text (scopeArgument ++ "> ")]
    ++ .ofPieces body.pieces
  let factory := Plan.check [ownSymbol versionValue]
    ++ .ofPieces [.text "export const ", .spelling d.symbol, .text " = ",
      .spelling (supportSymbol "factory"), .text "<", .spelling d.symbol, .text ">(",
      .spelling (ownSymbol versionValue), .text ", ", .literal d.symbol,
      .text (", " ++ Label.literal scope ++ ");")]
  let listing := Plan.ofPieces [.text "export type ", .spelling (.declared d.listName),
    .text " = ", .spelling (supportSymbol "ResourceList"), .text "<", .spelling d.symbol,
    .text ">;"]
  let requests := [supportRequest "factory" false, supportRequest "ResourceList" true,
    .lookup (Label.ofText versionValue), .lookup (Label.ofText resourceBase),
    .name d.name .declaration, .name d.listName .declaration] ++ body.requests
  return .ofRequests requests ++ .check [d.symbol] ++
    .intercalate "\n\n" [interface, factory, listing]

def plan (d : Definition τ) : Except Error (Plan τ) :=
  match d.value with
  | .resource properties scope => d.resourcePlan properties scope
  | .object _ parents => d.interfacePlan parents
  | .reference target => .ok (d.reexportPlan target)
  | _ => d.aliasPlan

end Definition

/-- The base type of the resources of a module, over a metadata type. -/
def Plan.base (metadata : Reference τ) : Plan τ :=
  { requests := [.lookup (Label.ofText versionType), .name (Label.ofText resourceBase) .declaration,
      supportRequest "Resource" true, supportRequest "NameScope" true, metadata.request]
    pieces := [.text "/** A \x7b@link ", .spelling (supportSymbol "Resource"),
      .text " resource\x7d in the `", .versionText, .text "` API. */\nexport type ",
      .spelling (ownSymbol resourceBase), .text "<K extends string, S extends ",
      .spelling (supportSymbol "NameScope"),
      .text (" = " ++ Label.literal defaultScope ++ "> = "), .spelling (supportSymbol "Resource"),
      .text "<", .spelling (ownSymbol versionType), .text ", K, S, ", .spelling metadata.symbol,
      .text ">;"] }

/-- The base type takes its metadata type from the first resource; a module without
resources has none. -/
def basePlan? (definitions : List (Definition τ)) : Except Error (Option (Plan τ)) :=
  match definitions.find? fun d => d.value.isResource with
  | none => .ok none
  | some first => do
    let (_, target) ← first.metadata
    return some (.base target)

end ApiTypes
