import ApiTypes.Proofs.Plan.Outline

/-! The plans of definitions. An alias, a re-export, an interface and a resource each do
what their outline says. A definition has no plan exactly if a resource stands inside its
value, or if it is a resource whose metadata is not one property that holds a reference;
the metadata is checked first. -/

namespace ApiTypes

open Traversal

namespace Definition

open Plan

variable (d : Definition String)

/-- What stands between the documentation of a declaration and its body. -/
theorem introducedFrom_doc (rest : List (Piece String)) :
    introducedFrom false (d.doc.pieces ++ rest) = introducedFrom false rest :=
  introducedFrom_quiet (shows_doc d.description d.deprecated 0).quiet rest

@[simp] theorem symbols_doc : d.doc.symbols = [] :=
  (shows_doc d.description d.deprecated 0).symbols_eq_nil

@[simp] theorem spelled_doc : d.doc.spelled = [] :=
  (shows_doc d.description d.deprecated 0).spelled

@[simp] theorem requests_doc : d.doc.requests = [] :=
  (shows_doc d.description d.deprecated 0).requests

theorem total_doc : d.doc.Total :=
  (shows_doc d.description d.deprecated 0).total

/-- The plan of a type alias over the plan of its value. -/
def aliasOver (value : Plan String) : Plan String :=
  .declare d.name ++ d.doc
    ++ .ofPieces [.text "export type ", .spelling d.symbol, .text " = "] ++ value ++ .ofText ";"

theorem aliasOver_realizes {value : Plan String} {rs : List (Reference String)}
    (h : value.Shows rs) :
    (d.aliasOver value).Realizes
      { declares := [d.name], introduces := [d.name], references := rs } := by
  have hr : (d.aliasOver value).requests = .name d.name .declaration :: rs.map Reference.request := by
    simp [aliasOver, h.requests]
  have hsymbols : (d.aliasOver value).symbols = d.symbol :: value.symbols := by
    simp [aliasOver, Piece.symbols]
  have hspelled : (d.aliasOver value).spelled = d.symbol :: rs.map Reference.symbol := by
    simp [aliasOver, h.spelled, List.filterMap_cons]
  have hpieces : (d.aliasOver value).pieces = d.doc.pieces ++ (.text "export type " ::
      .spelling d.symbol :: .text " = " :: (value.pieces ++ [.text ";"])) := by
    simp [aliasOver, declare, ofPieces, ofText]
  constructor
  case plain =>
    rw [hr, List.forall_mem_cons]
    exact ⟨rfl, plain_references rs⟩
  case declared =>
    rw [hr, declaredBy_cons, declaredBy_references]
    rfl
  case uses =>
    intro u
    rw [hr, usesBy_cons, usesBy_references]
    simp [Request.use?]
  case symbols =>
    intro f hown
    rw [hsymbols, List.findSome?_cons, hown d.symbol (by simp [Outline.own, symbol]), h.symbols]
  case spelled =>
    rw [hspelled]
    simp [Outline.spellable, symbol]
  case shown =>
    rw [hspelled]
    exact List.subset_cons_self ..
  case introduced =>
    rw [introduced, hpieces, introducedFrom_doc]
    show d.symbol :: introducedFrom false (value.pieces ++ [.text ";"]) = _
    rw [introducedFrom_quiet h.quiet]
    rfl
  case total =>
    refine ((((total_declare _).append d.total_doc).append (total_ofPieces ?_)).append h.total).append
      (total_ofText _)
    simp

theorem reexportPlan_realizes (target : Reference String) :
    (d.reexportPlan target).Realizes { declares := [d.name], references := [target] } := by
  have hr : (d.reexportPlan target).requests =
      .name d.name .declaration :: [target].map Reference.request := by
    simp [reexportPlan]
  have hsymbols : (d.reexportPlan target).symbols =
      [target.symbol, d.symbol] ++ [target.symbol, target.symbol, d.symbol] := by
    simp [reexportPlan, Piece.symbols, Piece.exportAlias]
  have hspelled : (d.reexportPlan target).spelled = [target].map Reference.symbol := by
    simp [reexportPlan, Piece.exportAlias, List.filterMap_cons]
  have hpieces : (d.reexportPlan target).pieces =
      (check [target.symbol, d.symbol]).pieces ++ (d.doc.pieces ++ [.text "export type \x7b ",
        .spelling target.symbol, .exportAlias target.symbol d.symbol, .text " \x7d;"]) := by
    simp [reexportPlan, declare, ofRequests, ofPieces]
  constructor
  case plain =>
    rw [hr, List.forall_mem_cons]
    exact ⟨rfl, plain_references [target]⟩
  case declared =>
    rw [hr, declaredBy_cons, declaredBy_references]
    rfl
  case uses =>
    intro u
    rw [hr, usesBy_cons, usesBy_references]
    simp [Request.use?]
  case symbols =>
    intro f hown
    have hd := hown d.symbol (by simp [Outline.own, symbol])
    rw [hsymbols, findSome?_append_of_subset (by simp)]
    simp [hd, List.findSome?_cons]
  case spelled =>
    rw [hspelled]
    exact List.subset_append_right ..
  case shown => rw [hspelled]; exact List.Subset.refl _
  case introduced =>
    rw [introduced, hpieces]
    show introducedFrom false (d.doc.pieces ++ _) = []
    rw [introducedFrom_doc]
    rfl
  case total =>
    refine ((((total_declare _).append (total_ofRequests _)).append (total_check _)).append
      d.total_doc).append (total_ofPieces ?_)
    simp only [List.forall_mem_cons]
    refine ⟨trivial, trivial, fun ctx spellings => ?_, trivial, List.forall_mem_nil _⟩
    rcases spellings with _ | ⟨a, _ | ⟨b, _ | ⟨c, rest⟩⟩⟩ <;> exact ⟨_, rfl⟩

/-- The parents in the heading of an interface. -/
def heading (parents : List (Reference String)) : Plan String :=
  if parents.isEmpty then .ofText ""
  else .ofText " extends " ++ .intercalate ", " (parents.map fun r => .spelling r.symbol)

/-- The plan of an interface over the plan of its body. -/
def interfaceOver (parents : List (Reference String)) (body : Plan String) : Plan String :=
  .declare d.name ++ .ofRequests body.requests ++ .ofRequests (parents.map Reference.request)
    ++ .requireTexts (parents.map Reference.symbol) ++ d.doc
    ++ .ofPieces [.text "export interface ", .spelling d.symbol] ++ heading parents ++ .ofText " "
    ++ .ofPieces body.pieces

@[simp] theorem symbols_heading (parents : List (Reference String)) :
    (heading parents).symbols = parents.map Reference.symbol := by
  cases parents with
  | nil => rfl
  | cons r rest =>
    rw [heading, if_neg (by simp), symbols_append, symbols_intercalate, List.flatMap_map]
    exact List.flatMap_pure_eq_map ..

@[simp] theorem spelled_heading (parents : List (Reference String)) :
    (heading parents).spelled = parents.map Reference.symbol := by
  cases parents with
  | nil => rfl
  | cons r rest =>
    rw [heading, if_neg (by simp), spelled_append, spelled_intercalate, List.flatMap_map]
    exact List.flatMap_pure_eq_map ..

@[simp] theorem requests_heading (parents : List (Reference String)) :
    (heading parents).requests = [] := by
  cases parents with
  | nil => rfl
  | cons r rest =>
    rw [heading, if_neg (by simp), requests_append, requests_intercalate, List.flatMap_map]
    exact List.flatMap_eq_nil_iff.mpr fun _ _ => rfl

theorem forall_pieces_heading {P : Piece String → Prop} (hempty : P (.text ""))
    (hextends : P (.text " extends ")) (hsep : P (.text ", ")) (hspelling : ∀ s, P (.spelling s))
    (parents : List (Reference String)) : ∀ piece ∈ (heading parents).pieces, P piece := by
  cases parents with
  | nil => exact List.forall_mem_singleton.mpr hempty
  | cons r rest =>
    rw [heading, if_neg (by simp), pieces_append, List.forall_mem_append]
    refine ⟨List.forall_mem_singleton.mpr hextends, ?_⟩
    refine forall_pieces_intercalate ", " _ hsep fun p hp => ?_
    obtain ⟨r', -, rfl⟩ := List.mem_map.mp hp
    exact List.forall_mem_singleton.mpr (hspelling _)

theorem total_heading (parents : List (Reference String)) : (heading parents).Total :=
  forall_pieces_heading trivial trivial trivial (fun _ => trivial) parents

theorem quiet_heading (parents : List (Reference String)) : (heading parents).Quiet :=
  forall_pieces_heading (P := Piece.Quiet) rfl rfl rfl (fun _ => trivial) parents

section

variable {body : Plan String} {rs : List (Reference String)} (h : body.Shows rs)
  (parents : List (Reference String))

include h

theorem requests_interfaceOver :
    (d.interfaceOver parents body).requests =
      .name d.name .declaration :: (rs ++ parents).map Reference.request := by
  simp [interfaceOver, h.requests]

theorem spelled_interfaceOver :
    (d.interfaceOver parents body).spelled = d.symbol :: (parents ++ rs).map Reference.symbol := by
  have hb : (ofPieces body.pieces).spelled = rs.map Reference.symbol := h.spelled
  simp only [interfaceOver, spelled_append, hb]
  simp [List.filterMap_cons]

omit h in
theorem symbols_interfaceOver (body : Plan String) :
    (d.interfaceOver parents body).symbols =
      parents.map Reference.symbol ++ d.symbol :: (parents.map Reference.symbol ++ body.symbols) := by
  simp [interfaceOver, Piece.symbols]
  rfl

/-- The heading and the body of an interface are quiet, so it introduces its name alone. -/
theorem introduced_interfaceOver : (d.interfaceOver parents body).introduced = [d.symbol] := by
  have hpieces : (d.interfaceOver parents body).pieces =
      (requireTexts (parents.map Reference.symbol)).pieces ++ (d.doc.pieces ++
        (.text "export interface " :: .spelling d.symbol ::
          ((heading parents).pieces ++ (.text " " :: body.pieces)))) := by
    simp [interfaceOver, declare, ofRequests, ofPieces, ofText]
  rw [introduced, hpieces]
  show introducedFrom false (d.doc.pieces ++ _) = _
  rw [introducedFrom_doc]
  show d.symbol :: introducedFrom false ((heading parents).pieces ++ _) = _
  rw [introducedFrom_quiet (quiet_heading parents)]
  show d.symbol :: body.introduced = _
  rw [Plan.Quiet.introduced h.quiet]

theorem total_interfaceOver : (d.interfaceOver parents body).Total := by
  refine ((((((((total_declare _).append (total_ofRequests _)).append (total_ofRequests _)).append
    (total_requireTexts _)).append d.total_doc).append (total_ofPieces ?_)).append
    (total_heading parents)).append (total_ofText _)).append h.total
  simp

theorem interfaceOver_realizes :
    (d.interfaceOver parents body).Realizes
      { declares := [d.name], introduces := [d.name], references := parents ++ rs } := by
  have hr := d.requests_interfaceOver h parents
  have hspelled := d.spelled_interfaceOver h parents
  constructor
  case plain =>
    rw [hr, List.forall_mem_cons]
    exact ⟨rfl, plain_references _⟩
  case declared =>
    rw [hr, declaredBy_cons, declaredBy_references]
    rfl
  case uses =>
    intro u
    rw [hr, usesBy_cons, usesBy_references]
    simp [Request.use?, or_comm]
  case symbols =>
    intro f hown
    have hd := hown d.symbol (by simp [Outline.own, symbol])
    rw [symbols_interfaceOver, List.findSome?_append, List.findSome?_cons, hd,
      List.findSome?_append, List.map_append, List.findSome?_append, h.symbols]
    cases (parents.map Reference.symbol).findSome? f <;> rfl
  case spelled =>
    rw [hspelled]
    simp [Outline.spellable, symbol]
  case shown =>
    rw [hspelled]
    exact List.subset_cons_self ..
  case introduced => exact d.introduced_interfaceOver h parents
  case total => exact d.total_interfaceOver h parents

end

/-- The factory and the list type of a resource. -/
def companions (scope : String) : List (Plan String) :=
  [.check [ownSymbol versionValue]
      ++ .ofPieces [.text "export const ", .spelling d.symbol, .text " = ",
        .spelling (supportSymbol "factory"), .text "<", .spelling d.symbol, .text ">(",
        .spelling (ownSymbol versionValue), .text ", ", .literal d.symbol,
        .text (", " ++ Label.literal scope ++ ");")],
    .ofPieces [.text "export type ", .spelling (.declared d.listName),
      .text " = ", .spelling (supportSymbol "ResourceList"), .text "<", .spelling d.symbol,
      .text ">;"]]

/-- The plan of a resource over the plan of its body. -/
def resourceOver (scope : String) (body : Plan String) : Plan String :=
  let scopeArgument :=
    if Label.isText scope defaultScope then "" else ", " ++ Label.literal scope
  let interface := d.doc
    ++ .ofPieces [.text "export interface ", .spelling d.symbol, .text " extends ",
      .spelling (ownSymbol resourceBase), .text "<", .literal d.symbol,
      .text (scopeArgument ++ "> ")]
    ++ .ofPieces body.pieces
  .ofRequests ([supportRequest "factory" false, supportRequest "ResourceList" true,
      .lookup (Label.ofText versionValue), .lookup (Label.ofText resourceBase),
      .name d.name .declaration, .name d.listName .declaration] ++ body.requests) ++
    .check [d.symbol] ++ .intercalate "\n\n" (interface :: d.companions scope)

section

variable (scope : String) {body : Plan String} {rs : List (Reference String)} (h : body.Shows rs)

include h

theorem requests_resourceOver :
    (d.resourceOver scope body).requests =
      [supportRequest "factory" false, supportRequest "ResourceList" true,
        .lookup versionValue, .lookup resourceBase, .name d.name .declaration,
        .name d.listName .declaration] ++ rs.map Reference.request := by
  simp [resourceOver, companions, intercalate, h.requests, Label.ofText]

omit h in
theorem symbols_resourceOver (body : Plan String) :
    (d.resourceOver scope body).symbols =
      [d.symbol, d.symbol, ownSymbol resourceBase, d.symbol] ++ body.symbols ++
        [ownSymbol versionValue, d.symbol, supportSymbol "factory", d.symbol,
          ownSymbol versionValue, d.symbol, .declared d.listName, supportSymbol "ResourceList",
          d.symbol] := by
  have hb : (ofPieces body.pieces).symbols = body.symbols := rfl
  simp only [resourceOver, companions, intercalate, symbols_append, hb]
  simp [Piece.symbols, Piece.literal]

theorem spelled_resourceOver :
    (d.resourceOver scope body).spelled =
      [d.symbol, ownSymbol resourceBase] ++ rs.map Reference.symbol ++
        [d.symbol, supportSymbol "factory", d.symbol, ownSymbol versionValue, .declared d.listName,
          supportSymbol "ResourceList", d.symbol] := by
  have hb : (ofPieces body.pieces).spelled = rs.map Reference.symbol := h.spelled
  simp only [resourceOver, companions, intercalate, spelled_append, hb]
  simp [List.filterMap_cons, Piece.literal]

/-- A resource introduces its interface, its factory and its list type. -/
theorem introduced_resourceOver :
    (d.resourceOver scope body).introduced = [d.symbol, d.symbol, .declared d.listName] := by
  have hopen := opensDeclaration_angle (if Label.isText scope defaultScope then ""
    else ", " ++ Label.literal scope)
  have hpieces : (d.resourceOver scope body).pieces = (check [d.symbol]).pieces ++
      (d.doc.pieces ++ ([.text "export interface ", .spelling d.symbol, .text " extends ",
        .spelling (ownSymbol resourceBase), .text "<", .literal d.symbol,
        .text ((if Label.isText scope defaultScope then "" else ", " ++ Label.literal scope) ++
          "> ")] ++ (body.pieces ++
        (intercalate "\n\n" ({} :: d.companions scope)).pieces))) := by
    simp [resourceOver, companions, intercalate, ofRequests, ofPieces]
  rw [introduced, hpieces]
  show introducedFrom false (d.doc.pieces ++ _) = _
  rw [introducedFrom_doc]
  show d.symbol :: introducedFrom (opensDeclaration (_ ++ "> ")) (body.pieces ++ _) = _
  rw [hopen, introducedFrom_quiet h.quiet]
  rfl

theorem total_resourceOver : (d.resourceOver scope body).Total := by
  have hliteral : (Piece.literal d.symbol).Total := fun _ _ => ⟨_, rfl⟩
  refine ((total_ofRequests _).append (total_check _)).append ?_
  refine forall_pieces_intercalate "\n\n" _ trivial ?_
  simp only [companions, List.forall_mem_cons]
  refine ⟨(d.total_doc.append (total_ofPieces ?_)).append h.total,
    (total_check _).append (total_ofPieces ?_), total_ofPieces ?_,
    List.forall_mem_nil _⟩
  · simp [hliteral]
  · simp [hliteral]
  · simp

theorem resourceOver_realizes :
    (d.resourceOver scope body).Realizes
      { declares := [d.name, d.listName], introduces := [d.name, d.name, d.listName]
        lookups := [resourceBase, versionValue], library := ["factory", "ResourceList"]
        references := rs } := by
  have hr := d.requests_resourceOver scope h
  have hspelled := d.spelled_resourceOver scope h
  constructor
  case plain =>
    rw [hr, List.forall_mem_append]
    refine ⟨?_, plain_references rs⟩
    simp [Request.IsPlain, supportRequest]
  case declared =>
    rw [hr, declaredBy_append, declaredBy_references]
    rfl
  case uses =>
    intro u
    rw [hr, usesBy_append, usesBy_references, List.mem_append]
    exact Iff.rfl
  case symbols =>
    intro f hown
    simp only [Outline.own, List.forall_mem_append, List.forall_mem_map, List.forall_mem_cons]
      at hown
    obtain ⟨⟨⟨hname, hlist, -⟩, hbase, hvalue, -⟩, hfactory, hlisting, -⟩ := hown
    have hd : f d.symbol = none := hname
    have hb : f (ownSymbol resourceBase) = none := hbase
    have hv : f (ownSymbol versionValue) = none := hvalue
    rw [symbols_resourceOver, List.findSome?_append, List.findSome?_append, h.symbols]
    simp [hd, hb, hv, hlist, hfactory, hlisting]
  case spelled =>
    rw [hspelled]
    simp only [Outline.spellable, symbol, ownSymbol, Label.ofText, List.append_subset]
    refine ⟨⟨by simp, List.subset_append_right ..⟩, by simp⟩
  case shown =>
    rw [hspelled]
    exact List.subset_append_of_subset_left _ (List.subset_append_right ..)
  case introduced => exact d.introduced_resourceOver scope h
  case total => exact d.total_resourceOver scope h

end

/-! ### The faults of a definition -/

/-- The properties of a resource without its metadata. -/
def body (properties : List (Property String)) : List (Property String) :=
  properties.filter fun p => !isMetadata p

/-- What is wrong with the metadata of some properties: they need exactly one property
of that name, and it has to be a reference. -/
def metadataFault? (properties : List (Property String)) : Option Error :=
  let place := (Location.ofDefinition (.text d.name)).withProperty (.text metadataName)
  match properties.filter isMetadata with
  | [p] =>
    match p.value with
    | .reference _ => none
    | other => some (.ofCause (.metadataKind (.text d.name) other.kind) (some place))
  | found => some (.ofCause (.metadataCount (.text d.name) found.length) (some place))

/-- Why a definition has no plan, if it has none. -/
def fault? : Option Error :=
  match d.value with
  | .resource properties _ =>
    (d.metadataFault? properties).or (nested? (Property.anyHoldsResource (body properties)))
  | value => nested? value.holdsResource

/-- The metadata type of some properties. -/
def metadataReference? (properties : List (Property String)) : Option (Reference String) :=
  match properties.filter isMetadata with
  | [.mk _ (.reference target) _ _ _] => some target
  | _ => none

theorem metadata_yields {properties : List (Property String)}
    (h : d.value.properties? = some properties) :
    Yields (d.metadataFault? properties)
      (fun found => metadataReference? properties = some found.2) d.metadata := by
  rw [metadata, requireProperties, h, ok_bind, metadataFault?, metadataReference?]
  rcases properties.filter isMetadata with _ | ⟨p, _ | ⟨q, rest⟩⟩
  · rfl
  · cases p with
    | mk name value required description deprecated =>
      cases value with
      | reference target => exact yields_ok rfl
      | _ => rfl
  · rfl

theorem resourcePlan_eq (properties : List (Property String)) (scope : String) :
    d.resourcePlan properties scope = (do
      let _ ← d.metadata
      return d.resourceOver scope (← TypeExpr.plan false (.object (body properties) []))) := rfl

theorem interfacePlan_eq (parents : List (Reference String)) :
    d.interfacePlan parents = (do return d.interfaceOver parents (← d.value.plan true)) := rfl

theorem aliasPlan_yields :
    Yields (nested? d.value.holdsResource)
      (fun p => p.Realizes
        { declares := [d.name], introduces := [d.name], references := d.value.references })
      d.aliasPlan :=
  (TypeExpr.plan_yields d.value).map fun _ hvalue => d.aliasOver_realizes hvalue

/-- A definition without fault has a plan, which does what its outline says. -/
theorem plan_yields : Yields d.fault? (fun p => p.Realizes d.outline) d.plan := by
  have halias := d.aliasPlan_yields
  rw [plan, fault?, outline, declares, references]
  cases hv : d.value with
  | resource properties scope =>
    simp only [resourcePlan_eq]
    refine (d.metadata_yields (by rw [hv]; rfl)).bind fun _ _ => ?_
    refine (TypeExpr.plan_yields (.object (body properties) [])).map fun b hb => ?_
    exact d.resourceOver_realizes scope hb
  | object properties parents =>
    simp only [interfacePlan_eq, hv, plan_object_declaration]
    refine (TypeExpr.plan_yields (.object properties [])).map fun b hb => ?_
    exact d.interfaceOver_realizes hb parents
  | reference target => exact yields_ok (d.reexportPlan_realizes target)
  | string | integer | float | boolean | unknown | array | map | union | optional =>
    rw [hv] at halias
    exact halias

end Definition

end ApiTypes
