import ApiTypes.Proofs.Plan.Definition
import ApiTypes.Proofs.Plan.Writing

/-! The statements that plans of declarations write. The header, the base type of resources
and every kind of definition have a text in one pass, with its comments and literals
marked, which depends on the version and the spellings alone; their plans render to it. -/

namespace ApiTypes

open Traversal Plan

section

variable (version : String) (spelled : Symbol String → String)

namespace Segment

/-- The type and the constant of a version. -/
def header : List Segment :=
  [.code "export type ", .code (spelled (ownSymbol versionType)), .code " = ",
    quote .unicode version, .code ";\nexport const ", .code (spelled (ownSymbol versionValue)),
    .code ": ", .code (spelled (ownSymbol versionType)), .code " = ", quote .unicode version,
    .code ";"]

/-- What the comment of the base type says. -/
def baseComment (version resource : String) : String :=
  "* A \x7b@link " ++ resource ++ " resource\x7d in the `" ++ version ++ "` API. "

/-- The base type of resources over a metadata type. -/
def base (metadata : Reference String) : List Segment :=
  [.comment (baseComment version (spelled (supportSymbol "Resource"))).toList,
    .code "\nexport type ",
    .code (spelled (ownSymbol resourceBase)), .code "<K extends string, S extends ",
    .code (spelled (supportSymbol "NameScope")), .code " = ", quote .unicode defaultScope,
    .code "> = ", .code (spelled (supportSymbol "Resource")), .code "<",
    .code (spelled (ownSymbol versionType)), .code ", K, S, "] ++ metadata.segments spelled ++
    [.code ">;"]

end Segment

namespace Definition

variable (d : Definition String)

def docSegments : List Segment :=
  Segment.doc d.description d.deprecated 0

def aliasSegments : List Segment :=
  d.docSegments ++ [.code "export type ", .code (spelled d.symbol), .code " = "] ++
    d.value.segments spelled ++ [.code ";"]

def reexportSegments (target : Reference String) : List Segment :=
  d.docSegments ++ [.code "export type \x7b "] ++ target.segments spelled ++
    [.code (if spelled target.symbol = spelled d.symbol then "" else " as " ++ spelled d.symbol),
      .code " \x7d;"]

def headingSegments (parents : List (Reference String)) : List Segment :=
  if parents.isEmpty then []
  else [.code " extends "] ++
    Segment.intercalate ", " (parents.map (Reference.segments spelled))

def interfaceSegments (properties : List (Property String)) (parents : List (Reference String)) :
    List Segment :=
  d.docSegments ++ [.code "export interface ", .code (spelled d.symbol)] ++
    headingSegments spelled parents ++ [.code " "] ++
    Segment.braced (Property.allSegments spelled properties)

/-- The interface of a resource over the base type. -/
def resourceSegments (properties : List (Property String)) (scope : String) : List Segment :=
  d.docSegments ++
    [.code "export interface ", .code (spelled d.symbol), .code " extends ",
      .code (spelled (ownSymbol resourceBase)), .code "<", Segment.quote .unicode (spelled d.symbol)] ++
    (if scope = defaultScope then [] else [.code ", ", Segment.quote .unicode scope]) ++
    [.code "> "] ++ Segment.braced (Property.allSegments spelled (body properties))

def factorySegments (scope : String) : List Segment :=
  [.code "export const ", .code (spelled d.symbol), .code " = ",
    .code (spelled (supportSymbol "factory")), .code "<", .code (spelled d.symbol), .code ">(",
    .code (spelled (ownSymbol versionValue)), .code ", ",
    Segment.quote .unicode (spelled d.symbol), .code ", ", Segment.quote .unicode scope, .code ");"]

def listSegments : List Segment :=
  [.code "export type ", .code (spelled (.declared d.listName)), .code " = ",
    .code (spelled (supportSymbol "ResourceList")), .code "<", .code (spelled d.symbol), .code ">;"]

/-- The statements of a definition. -/
def segments : List Segment :=
  match d.value with
  | .resource properties scope =>
    Segment.intercalate "\n\n" [d.resourceSegments spelled properties scope,
      d.factorySegments spelled scope, d.listSegments spelled]
  | .object properties parents => d.interfaceSegments spelled properties parents
  | .reference target => d.reexportSegments spelled target
  | _ => d.aliasSegments spelled

end Definition

end

variable {ctx : Context String} {spelled : Symbol String → String}

namespace Plan

theorem writes_declare (x : String) : (declare x).Writes ctx spelled [] := rfl

theorem writes_ofRequests (rs : List (Request String)) : (ofRequests rs).Writes ctx spelled [] := rfl

theorem header_writes :
    (header : Plan String).Writes ctx spelled (Segment.header ctx.apiVersion spelled) := by
  refine writes_ofPieces header.pieces _ rfl ?_
  simp [Segment.header, literal_label]

/-- The comment of the base type, up to the name that it introduces. -/
theorem text_baseComment (version resource : String) (ss : List Segment) :
    Segment.text
        (.comment (Segment.baseComment version resource).toList :: .code "\nexport type " :: ss) =
      "/** A \x7b@link " ++ (resource ++ (" resource\x7d in the `" ++
        (version ++ ("` API. */\nexport type " ++ Segment.text ss)))) := by
  have hopen : "/** A \x7b@link " = "/*" ++ "* A \x7b@link " := by decide
  have hclose : "` API. */\nexport type " = "` API. " ++ ("*/" ++ "\nexport type ") := by decide
  simp only [Segment.text_comment_cons, Segment.text_code_cons, Segment.baseComment, hopen, hclose,
    String.ofList_toList, String.append_assoc]

theorem base_writes (metadata : Reference String) :
    (base metadata).Writes ctx spelled (Segment.base ctx.apiVersion spelled metadata) := by
  refine writes_ofPieces (base metadata).pieces _ rfl ?_
  rw [Segment.base, List.cons_append, List.cons_append, List.cons_append, List.cons_append,
    text_baseComment]
  simp [Reference.segments, literal_label, String.append_assoc]

end Plan

namespace Definition

variable (d : Definition String)

theorem doc_writes : d.doc.Writes ctx spelled d.docSegments :=
  writes_doc d.description d.deprecated 0

theorem aliasOver_writes {value : Plan String} {ss : List Segment}
    (h : value.Writes ctx spelled ss) :
    (d.aliasOver value).Writes ctx spelled (d.docSegments ++
      [.code "export type ", .code (spelled d.symbol), .code " = "] ++ ss ++ [.code ";"]) :=
  ((((writes_declare d.name).append d.doc_writes).append
    (writes_ofPieces _ _ rfl (by simp))).append h).append (writes_ofText ";")

theorem reexportPlan_writes (target : Reference String) :
    (d.reexportPlan target).Writes ctx spelled (d.reexportSegments spelled target) := by
  have hclause : (ofPieces [.text "export type \x7b ", .spelling target.symbol,
      .exportAlias target.symbol d.symbol, .text " \x7d;"]).Writes ctx spelled
        ([.code "export type \x7b "] ++ target.segments spelled ++
          [.code (if spelled target.symbol = spelled d.symbol then ""
            else " as " ++ spelled d.symbol), .code " \x7d;"]) :=
    writes_ofPieces _ _ rfl (by simp [Reference.segments])
  have h := ((((writes_declare d.name).append (writes_ofRequests [target.request])).append
    (writes_check [target.symbol, d.symbol])).append d.doc_writes).append hclause
  rw [reexportSegments, List.append_assoc, List.append_assoc]
  exact h

theorem heading_writes (parents : List (Reference String)) :
    (heading parents).Writes ctx spelled (headingSegments spelled parents) := by
  rw [heading, headingSegments]
  split
  next => exact writes_ofText_of rfl
  next =>
    refine (writes_ofText " extends ").append (Writes.intercalate ?_ ", ")
    rw [List.forall₂_map_left_iff, List.forall₂_map_right_iff, List.forall₂_same]
    exact fun r _ => writes_reference r

theorem interfaceOver_writes (parents : List (Reference String)) {body : Plan String}
    {ss : List Segment} (h : body.Writes ctx spelled ss) :
    (d.interfaceOver parents body).Writes ctx spelled (d.docSegments ++
      [.code "export interface ", .code (spelled d.symbol)] ++ headingSegments spelled parents ++
      [.code " "] ++ ss) :=
  ((((((((writes_declare d.name).append (writes_ofRequests body.requests)).append
    (writes_ofRequests (parents.map Reference.request))).append
    (writes_requireTexts (parents.map Reference.symbol))).append d.doc_writes).append
    (writes_ofPieces _ _ rfl (by simp))).append (heading_writes parents)).append
    (writes_ofText " ")).append h

theorem companions_write (scope : String) :
    List.Forall₂ (Writes ctx spelled) (d.companions scope)
      [d.factorySegments spelled scope, d.listSegments spelled] := by
  have hlisting : (ofPieces [.text "export type ", .spelling (.declared d.listName),
      .text " = ", .spelling (supportSymbol "ResourceList"), .text "<", .spelling d.symbol,
      .text ">;"]).Writes ctx spelled (d.listSegments spelled) :=
    writes_ofPieces _ _ rfl (by simp [listSegments])
  refine .cons ?_ (.cons hlisting .nil)
  refine (writes_check [ownSymbol versionValue]).append (writes_ofPieces _ _ rfl ?_)
  simp [literal_label, String.append_assoc]

theorem resourceOver_writes (scope : String) {body : Plan String} {ss : List Segment}
    (h : body.Writes ctx spelled ss) :
    (d.resourceOver scope body).Writes ctx spelled (Segment.intercalate "\n\n"
      [d.docSegments ++ [.code "export interface ", .code (spelled d.symbol), .code " extends ",
          .code (spelled (ownSymbol resourceBase)), .code "<",
          Segment.quote .unicode (spelled d.symbol)] ++
          (if scope = defaultScope then [] else [.code ", ", Segment.quote .unicode scope]) ++
          [.code "> "] ++ ss,
        d.factorySegments spelled scope, d.listSegments spelled]) := by
  have hopen : (ofPieces [.text "export interface ", .spelling d.symbol, .text " extends ",
      .spelling (ownSymbol resourceBase), .text "<", .literal d.symbol,
      .text ((if Label.isText scope defaultScope then "" else ", " ++ Label.literal scope) ++
        "> ")]).Writes ctx spelled
        ([.code "export interface ", .code (spelled d.symbol), .code " extends ",
            .code (spelled (ownSymbol resourceBase)), .code "<",
            Segment.quote .unicode (spelled d.symbol)] ++
          (if scope = defaultScope then [] else [.code ", ", Segment.quote .unicode scope]) ++
          [.code "> "]) := by
    refine writes_ofPieces _ _ rfl ?_
    by_cases hs : scope = defaultScope
    · simp [Label.isText, Document.same, Label.document, hs, literal_label]
    · simp [Label.isText, Document.same, Label.document, hs, literal_label, String.append_assoc]
  have hinterface := (d.doc_writes.append hopen).append
    (show (ofPieces body.pieces).Writes ctx spelled ss from h)
  rw [← List.append_assoc, ← List.append_assoc] at hinterface
  exact ((writes_ofRequests _).append (writes_check [d.symbol])).append
    (Writes.intercalate (.cons hinterface (d.companions_write scope)) "\n\n")

variable (ctx spelled) in
/-- A definition without fault has a plan, which writes its statements. -/
theorem plan_writes :
    Yields d.fault? (fun p => p.Writes ctx spelled (d.segments spelled)) d.plan := by
  have halias : Yields (nested? d.value.holdsResource)
      (fun p => p.Writes ctx spelled (d.aliasSegments spelled)) d.aliasPlan :=
    (TypeExpr.plan_writes ctx spelled d.value).map fun _ hvalue => d.aliasOver_writes hvalue
  rw [plan, fault?, segments]
  cases hv : d.value with
  | resource properties scope =>
    simp only [resourcePlan_eq]
    refine (d.metadata_yields (by rw [hv]; rfl)).bind fun _ _ => ?_
    refine (TypeExpr.plan_writes ctx spelled (.object (body properties) [])).map fun b hb => ?_
    exact d.resourceOver_writes scope hb
  | object properties parents =>
    simp only [interfacePlan_eq, hv, plan_object_declaration]
    refine (TypeExpr.plan_writes ctx spelled (.object properties [])).map fun b hb => ?_
    exact d.interfaceOver_writes parents hb
  | reference target => exact yields_ok (d.reexportPlan_writes target)
  | string | integer | float | boolean | unknown | array | map | union | optional =>
    rw [hv] at halias
    exact halias

end Definition

end ApiTypes
