import ApiTypes.Proofs.Plan.References
import ApiTypes.Schema.Loader
import ApiTypes.Schema.WellTyped

/-! The documents that schemas over texts are written as. Every field stands under its key, a type
under the tag of its kind, lists stand in order, and what is not there is left out. Loading such a
document finds every field again, but takes the empty name of a group, of its directory or of a
package for none; what it gives is a schema over texts. -/

namespace ApiTypes

open Document (lookup require requireElements requireFields elementsOf)
open Traversal

/-! ### Writing documents -/

namespace Document

/-- A field that is left out if it has no value. -/
def optionalField (key : String) (value : Option Document) : List (String × Document) :=
  (value.map fun v => (key, v)).toList

/-- The document of a type: its tag, and the fields of its kind. -/
def tagged (kind : Kind) (fields : List (String × Document)) : Document :=
  object (("type", text kind.tag) :: fields)

end Document

open Document (optionalField tagged)

def Group.document (g : Group String) : Document :=
  .object (optionalField "name" (g.name.map .text) ++
    optionalField "module" (g.directory.map .text))

def Scope.document (s : Scope String) : Document :=
  .object ([("group", s.group.document), ("version", .text s.version)] ++
    optionalField "package" (s.package.map .text))

def Reference.document (r : Reference String) : Document :=
  tagged .reference
    [("target", .object (("name", .text r.name) ::
      optionalField "scope" (r.scope.map Scope.document)))]

mutual

def TypeExpr.document : TypeExpr String → Document
  | .string choices =>
    tagged .string (optionalField "enum" (choices.map fun cs => .list (cs.map .text)))
  | .integer => tagged .integer []
  | .float => tagged .float []
  | .boolean => tagged .boolean []
  | .unknown => tagged .unknown []
  | .array items => tagged .array [("values", items.document)]
  | .map values => tagged .map [("values", values.document)]
  | .union variants => tagged .union [("values", .list (TypeExpr.documents variants))]
  | .optional value => tagged .optional [("value", value.document)]
  | .reference target => target.document
  | .object properties parents =>
    tagged .object [("properties", .list (Property.documents properties)),
      ("inherit", .list (parents.map Reference.document))]
  | .resource properties scope =>
    tagged .resource [("properties", .list (Property.documents properties)),
      ("metadata", .object [("scope", .text scope)])]

def TypeExpr.documents : List (TypeExpr String) → List Document
  | [] => []
  | t :: ts => t.document :: TypeExpr.documents ts

def Property.document : Property String → Document
  | .mk name value required description deprecated =>
    .object ([("name", .text name), ("value", value.document), ("required", .bool required),
      ("deprecated", .bool deprecated)] ++ optionalField "description" (description.map .text))

def Property.documents : List (Property String) → List Document
  | [] => []
  | p :: ps => p.document :: Property.documents ps

end

def Definition.document (d : Definition String) : Document :=
  .object ([("name", .text d.name), ("value", d.value.document),
    ("deprecated", .bool d.deprecated)] ++ optionalField "description" (d.description.map .text))

def Dependency.document (d : Dependency String) : Document :=
  .object [("package", .text d.package), ("version", .text d.version)]

def Schema.document (s : Schema String) : Document :=
  .object [("apiVersion", .text Schema.formatVersion), ("kind", .text Schema.formatKind),
    ("group", s.group.document), ("version", .text s.version),
    ("dependencies", .list (s.dependencies.map Dependency.document)),
    ("definitions", .list (s.definitions.map Definition.document))]

/-! ### Changing the labels of a schema -/

section Relabel

variable {τ σ : Type}

def Group.relabel (f : τ → σ) (g : Group τ) : Group σ :=
  { name := g.name.map f, directory := g.directory.map f }

def Scope.relabel (f : τ → σ) (s : Scope τ) : Scope σ :=
  { group := s.group.relabel f, version := f s.version, package := s.package.map f }

def Reference.relabel (f : τ → σ) (r : Reference τ) : Reference σ :=
  { name := f r.name, scope := r.scope.map (Scope.relabel f) }

mutual

/-- A type with other labels and other references. -/
def TypeExpr.relabel (f : τ → σ) (g : Reference τ → Reference σ) : TypeExpr τ → TypeExpr σ
  | .string choices => .string (choices.map (List.map f))
  | .integer => .integer
  | .float => .float
  | .boolean => .boolean
  | .unknown => .unknown
  | .array items => .array (items.relabel f g)
  | .map values => .map (values.relabel f g)
  | .union variants => .union (TypeExpr.relabelAll f g variants)
  | .optional value => .optional (value.relabel f g)
  | .reference target => .reference (g target)
  | .object properties parents => .object (Property.relabelAll f g properties) (parents.map g)
  | .resource properties scope => .resource (Property.relabelAll f g properties) (f scope)

def TypeExpr.relabelAll (f : τ → σ) (g : Reference τ → Reference σ) :
    List (TypeExpr τ) → List (TypeExpr σ)
  | [] => []
  | t :: ts => t.relabel f g :: TypeExpr.relabelAll f g ts

def Property.relabel (f : τ → σ) (g : Reference τ → Reference σ) : Property τ → Property σ
  | .mk name value required description deprecated =>
    .mk (f name) (value.relabel f g) required (description.map f) deprecated

def Property.relabelAll (f : τ → σ) (g : Reference τ → Reference σ) :
    List (Property τ) → List (Property σ)
  | [] => []
  | p :: ps => p.relabel f g :: Property.relabelAll f g ps

end

def Definition.relabel (f : τ → σ) (g : Reference τ → Reference σ) (d : Definition τ) :
    Definition σ :=
  { name := f d.name, value := d.value.relabel f g, description := d.description.map f,
    deprecated := d.deprecated }

def Dependency.relabel (f : τ → σ) (d : Dependency τ) : Dependency σ :=
  { package := f d.package, version := f d.version }

end Relabel

/-- A group without names that are empty. -/
def Group.stated (g : Group String) : Group String :=
  { name := Label.present? g.name, directory := Label.present? g.directory }

def Scope.stated (s : Scope String) : Scope String :=
  { s with group := s.group.stated, package := Label.present? s.package }

def Reference.stated (r : Reference String) : Reference String :=
  { r with scope := r.scope.map Scope.stated }

/-- A reference as it is loaded. -/
def Reference.loaded (r : Reference String) : Reference Document :=
  r.stated.relabel .text

/-! ### Reading fields -/

namespace Document

theorem lookup_append (key : String) (fields more : List (String × Document)) :
    lookup key (fields ++ more) = (lookup key fields).or (lookup key more) := by
  induction fields with
  | nil => rfl
  | cons field rest ih =>
    obtain ⟨k, v⟩ := field
    rw [List.cons_append, lookup, lookup, ih]
    split <;> rfl

theorem lookup_optionalField (key key' : String) (value : Option Document) :
    lookup key (optionalField key' value) = if key' = key then value else none := by
  cases value with
  | none => simp [optionalField, lookup]
  | some v => simp [optionalField, lookup]

theorem require_eq {doc v : Document} {key : String} (h : doc.field? key = some v)
    (place : Location) : require doc key place = .ok ⟨v, size_lt_of_field? h⟩ := by
  cases doc with
  | object fields =>
    have hobject : (object fields).isObject = true := rfl
    rw [require, if_pos hobject]
    split
    next w hw =>
      obtain rfl := Option.some.inj (hw.symm.trans h)
      rfl
    next hnone => cases hnone.symm.trans h
  | null | bool | integer | real | text | list => cases h

theorem requireElements_list (items : List Document) :
    requireElements (list items) = .ok ⟨items, fun _ => size_le_of_elements? rfl⟩ := by
  rw [requireElements]
  split
  next xs hxs =>
    obtain rfl := Option.some.inj hxs
    rfl
  next hnone => cases hnone

/-- A list of elements is found whole, an empty one as well. -/
theorem exists_elementsOf_eq {doc : Document} {key : String} {items : List Document}
    (h : doc.field? key = some (.list items)) :
    ∃ hitems, elementsOf doc key = .ok ⟨items, hitems⟩ := by
  rw [elementsOf]
  split
  next v hv =>
    obtain rfl := Option.some.inj (hv.symm.trans h)
    cases items with
    | nil => exact ⟨nofun, rfl⟩
    | cons x rest =>
      have htruthy : (list (x :: rest)).isTruthy = true := rfl
      rw [if_pos htruthy, requireElements_list]
      refine ⟨fun y hy => ?_, rfl⟩
      exact Nat.lt_of_le_of_lt (size_le_of_elements? rfl hy) (size_lt_of_field? h)
  next hnone => cases hnone.symm.trans h

theorem field?_tagged {kind : Kind} {fields : List (String × Document)} {key : String}
    (h : key ≠ "type") : (tagged kind fields).field? key = lookup key fields := by
  rw [tagged, field?, lookup, if_neg h.symm]

/-- A label that is not empty is found, and no other. -/
theorem truthy?_of_field? {doc : Document} {key : String} {label : Option String}
    (h : doc.field? key = label.map .text) :
    doc.truthy? key = (Label.present? label).map .text := by
  rw [truthy?, h]
  cases label with
  | none => rfl
  | some s => by_cases hs : s = "" <;> simp [Label.present?, Option.filter_some, isTruthy, hs]

/-- A label is found even if it is empty. -/
theorem optional?_of_field? {doc : Document} {key : String} {label : Option String}
    (h : doc.field? key = label.map .text) : doc.optional? key = label.map .text := by
  rw [optional?, h]
  cases label <;> rfl

theorem flag_of_field? {doc : Document} {key : String} {b : Bool}
    (h : doc.field? key = some (.bool b)) : doc.flag key = b := by
  rw [flag, truthy?, h]
  cases b <;> rfl

end Document

open Document (lookup_append lookup_optionalField require_eq requireElements_list
  exists_elementsOf_eq field?_tagged truthy?_of_field? optional?_of_field? flag_of_field?)

/-! ### Loading references -/

theorem Group.ofDocument?_document (g : Group String) :
    Group.ofDocument? g.document = .ok (g.stated.relabel .text) := by
  have hname : g.document.field? "name" = g.name.map .text := by
    simp [document, Document.field?, lookup_append, lookup_optionalField]
  have hdirectory : g.document.field? "module" = g.directory.map .text := by
    simp [document, Document.field?, lookup_append, lookup_optionalField]
  have hfields : requireFields g.document = .ok () := rfl
  rw [Group.ofDocument?, hfields, ok_bind, truthy?_of_field? hname, truthy?_of_field? hdirectory]
  rfl

theorem Scope.ofDocument?_document (place : Location) (s : Scope String) :
    Scope.ofDocument? place s.document = .ok (s.stated.relabel .text) := by
  have hgroup : s.document.field? "group" = some s.group.document := rfl
  have hversion : s.document.field? "version" = some (.text s.version) := rfl
  have hpackage : s.document.field? "package" = s.package.map .text := by
    simp [document, Document.field?, lookup_optionalField, lookup]
  simp only [Scope.ofDocument?, require_eq hgroup, require_eq hversion, ok_bind,
    Group.ofDocument?_document, truthy?_of_field? hpackage]
  rfl

theorem Reference.ofDocument?_document (place : Location) (r : Reference String) :
    Reference.ofDocument? place r.document = .ok r.loaded := by
  have htarget : r.document.field? "target" = some (.object (("name", .text r.name) ::
      optionalField "scope" (r.scope.map Scope.document))) := rfl
  have hname (more : List (String × Document)) :
      (Document.object (("name", .text r.name) :: more)).field? "name" = some (.text r.name) := rfl
  have hscope : (Document.object (("name", .text r.name) ::
      optionalField "scope" (r.scope.map Scope.document))).optional? "scope" =
        r.scope.map Scope.document := by
    cases h : r.scope <;> simp [Document.optional?, Document.field?, lookup, lookup_optionalField]
    rfl
  simp only [Reference.ofDocument?, require_eq htarget, require_eq (hname _), ok_bind, hscope]
  cases h : r.scope with
  | none => simp [loaded, stated, relabel, h]
  | some scope =>
    simp only [Option.map_some, Scope.ofDocument?_document, ok_bind]
    simp [loaded, stated, relabel, h]

theorem Reference.mapM_ofDocument? (place : Location) (rs : List (Reference String)) :
    (rs.map document).mapM (Reference.ofDocument? place) = .ok (rs.map loaded) := by
  rw [List.mapM_map]
  exact mapM_eq_ok fun r _ => r.ofDocument?_document place

/-! ### Loading types -/

/-- Loading passes on with each element that it is one; the result does not depend on it. -/
theorem mapM_attach {α β : Type} (f : α → Except Error β) (l : List α) :
    (l.attach.mapM fun x => f x.1) = l.mapM f := by
  rw [List.mapM_subtype (g := f) fun _ _ => rfl, List.unattach_attach]

theorem choicesOf_eq {doc : Document} {choices : Option (List String)}
    (h : doc.field? "enum" = choices.map fun cs => .list (cs.map .text)) :
    choicesOf doc = .ok (choices.map (List.map .text)) := by
  rw [choicesOf, Document.optional?, h]
  cases choices with
  | none => rfl
  | some cs =>
    simp only [Option.map_some, requireElements_list, ok_bind]
    rfl

theorem field?_type {kind : Kind} {fields : List (String × Document)} :
    (tagged kind fields).field? "type" = some (.text kind.tag) := rfl

theorem require_type {kind : Kind} {fields : List (String × Document)} (place : Location) :
    require (tagged kind fields) "type" place =
      .ok ⟨.text kind.tag, Document.size_lt_of_field? field?_type⟩ :=
  require_eq field?_type place

theorem exists_elementsOf_properties (kind : Kind) (properties : List (Property String))
    (more : List (String × Document)) :
    ∃ hitems, elementsOf
        (tagged kind (("properties", .list (Property.documents properties)) :: more)) "properties" =
      .ok ⟨Property.documents properties, hitems⟩ :=
  exists_elementsOf_eq rfl

/-- The fields of a property stand under their keys. -/
theorem Property.field?_document (p : Property String) :
    p.document.field? "name" = some (.text p.name) ∧
      p.document.field? "value" = some p.value.document ∧
      p.document.field? "required" = some (.bool p.required) ∧
      p.document.field? "deprecated" = some (.bool p.deprecated) ∧
      p.document.field? "description" = p.description.map .text := by
  cases p with
  | mk name value required description deprecated =>
    rw [document]
    refine ⟨rfl, rfl, rfl, rfl, ?_⟩
    simp [Document.field?, lookup, lookup_optionalField, Property.description]

theorem kind_of_tag (kind : Kind) : (Document.text kind.tag).text?.bind Kind.ofTag? = some kind :=
  kind.ofTag?_tag

mutual

/-- A type that was written is loaded with its labels as texts, at every location. -/
theorem TypeExpr.ofDocument?_document (place : Location) (t : TypeExpr String) :
    TypeExpr.ofDocument? place t.document = .ok (t.relabel .text Reference.loaded) := by
  cases t with
  | string choices =>
    have henum : (tagged .string (optionalField "enum" (choices.map fun cs =>
        .list (cs.map .text)))).field? "enum" = choices.map fun cs => .list (cs.map .text) := by
      rw [field?_tagged (by decide), lookup_optionalField, if_pos rfl]
    rw [TypeExpr.document, TypeExpr.ofDocument?]
    simp only [require_type, ok_bind, kind_of_tag, choicesOf_eq henum, pure_eq_ok,
      TypeExpr.relabel]
  | integer | float | boolean | unknown =>
    rw [TypeExpr.document, TypeExpr.ofDocument?]
    simp only [require_type, ok_bind, kind_of_tag, pure_eq_ok, TypeExpr.relabel]
  | array items =>
    have hitems : (tagged .array [("values", items.document)]).field? "values" =
      some items.document := rfl
    rw [TypeExpr.document, TypeExpr.ofDocument?]
    simp only [require_type, require_eq hitems, ok_bind, kind_of_tag, pure_eq_ok, TypeExpr.relabel,
      TypeExpr.ofDocument?_document place items]
  | map values =>
    have hvalues : (tagged .map [("values", values.document)]).field? "values" =
      some values.document := rfl
    rw [TypeExpr.document, TypeExpr.ofDocument?]
    simp only [require_type, require_eq hvalues, ok_bind, kind_of_tag, pure_eq_ok, TypeExpr.relabel,
      TypeExpr.ofDocument?_document place values]
  | union variants =>
    have hvalues :
        (tagged .union [("values", .list (TypeExpr.documents variants))]).field? "values" =
          some (.list (TypeExpr.documents variants)) := rfl
    rw [TypeExpr.document, TypeExpr.ofDocument?]
    simp only [require_type, require_eq hvalues, requireElements_list, ok_bind, kind_of_tag,
      mapM_attach (TypeExpr.ofDocument? place), TypeExpr.mapM_ofDocument? place variants,
      pure_eq_ok, TypeExpr.relabel]
  | optional value =>
    have hvalue : (tagged .optional [("value", value.document)]).field? "value" =
      some value.document := rfl
    rw [TypeExpr.document, TypeExpr.ofDocument?]
    simp only [require_type, require_eq hvalue, ok_bind, kind_of_tag, pure_eq_ok, TypeExpr.relabel,
      TypeExpr.ofDocument?_document place value]
  | reference target =>
    have hload := target.ofDocument?_document place
    rw [TypeExpr.document, TypeExpr.ofDocument?, TypeExpr.relabel]
    rw [Reference.document] at hload ⊢
    simp only [require_type, ok_bind, kind_of_tag, hload, pure_eq_ok]
  | object properties parents =>
    obtain ⟨_, hproperties⟩ := exists_elementsOf_properties .object properties
      [("inherit", .list (parents.map Reference.document))]
    have hinherit : (tagged .object [("properties", .list (Property.documents properties)),
        ("inherit", .list (parents.map Reference.document))]).field? "inherit" =
      some (.list (parents.map Reference.document)) := rfl
    obtain ⟨_, hparents⟩ := exists_elementsOf_eq hinherit
    rw [TypeExpr.document, TypeExpr.ofDocument?]
    simp only [require_type, hproperties, hparents, ok_bind, kind_of_tag, pure_eq_ok,
      mapM_attach (Property.ofDocument? place), Property.mapM_ofDocument? place properties,
      Reference.mapM_ofDocument? place parents, TypeExpr.relabel]
  | resource properties scope =>
    obtain ⟨_, hproperties⟩ := exists_elementsOf_properties .resource properties
      [("metadata", .object [("scope", .text scope)])]
    have hscope : scopeOf ((tagged .resource [("properties", .list (Property.documents properties)),
        ("metadata", .object [("scope", .text scope)])]).truthy? "metadata") =
      .ok (.text scope) := rfl
    rw [TypeExpr.document, TypeExpr.ofDocument?]
    simp only [require_type, hproperties, hscope, ok_bind, kind_of_tag, pure_eq_ok,
      mapM_attach (Property.ofDocument? place), Property.mapM_ofDocument? place properties,
      TypeExpr.relabel]

theorem TypeExpr.mapM_ofDocument? (place : Location) (ts : List (TypeExpr String)) :
    (TypeExpr.documents ts).mapM (TypeExpr.ofDocument? place) =
      .ok (TypeExpr.relabelAll .text Reference.loaded ts) := by
  cases ts with
  | nil => rfl
  | cons t rest =>
    rw [TypeExpr.documents, List.mapM_cons, TypeExpr.ofDocument?_document place t, ok_bind,
      TypeExpr.mapM_ofDocument? place rest, ok_bind, TypeExpr.relabelAll]
    rfl

theorem Property.ofDocument?_document (place : Location) (p : Property String) :
    Property.ofDocument? place p.document = .ok (p.relabel .text Reference.loaded) := by
  cases p with
  | mk name value required description deprecated =>
    obtain ⟨hname, hvalue, hrequired, hdeprecated, hdescription⟩ :=
      (Property.mk name value required description deprecated).field?_document
    rw [Property.ofDocument?]
    simp only [require_eq hname, require_eq hvalue, flag_of_field? hrequired,
      flag_of_field? hdeprecated, optional?_of_field? hdescription, ok_bind, pure_eq_ok,
      TypeExpr.ofDocument?_document _ value, Property.value, Property.relabel]
    rfl

theorem Property.mapM_ofDocument? (place : Location) (ps : List (Property String)) :
    (Property.documents ps).mapM (Property.ofDocument? place) =
      .ok (Property.relabelAll .text Reference.loaded ps) := by
  cases ps with
  | nil => rfl
  | cons p rest =>
    rw [Property.documents, List.mapM_cons, Property.ofDocument?_document place p, ok_bind,
      Property.mapM_ofDocument? place rest, ok_bind, Property.relabelAll]
    rfl

end

/-! ### Loading definitions and dependencies -/

theorem Definition.field?_document (d : Definition String) :
    d.document.field? "name" = some (.text d.name) ∧
      d.document.field? "value" = some d.value.document ∧
      d.document.field? "deprecated" = some (.bool d.deprecated) ∧
      d.document.field? "description" = d.description.map .text := by
  refine ⟨rfl, rfl, rfl, ?_⟩
  simp [document, Document.field?, lookup, lookup_optionalField]

theorem Definition.ofDocument?_document (d : Definition String) :
    Definition.ofDocument? d.document = .ok (d.relabel .text Reference.loaded) := by
  obtain ⟨hname, hvalue, hdeprecated, hdescription⟩ := d.field?_document
  simp only [Definition.ofDocument?, require_eq hname, require_eq hvalue,
    flag_of_field? hdeprecated, optional?_of_field? hdescription, ok_bind,
    TypeExpr.ofDocument?_document, pure_eq_ok, relabel]

theorem Dependency.ofDocument?_document (d : Dependency String) :
    Dependency.ofDocument? d.document = .ok (d.relabel .text) := by
  have hpackage : d.document.field? "package" = some (.text d.package) := rfl
  have hversion : d.document.field? "version" = some (.text d.version) := rfl
  simp only [Dependency.ofDocument?, require_eq hpackage, require_eq hversion, ok_bind, pure_eq_ok,
    relabel]

theorem Schema.isSchema_document (s : Schema String) : isSchema s.document = true := by
  simp [isSchema, document, Document.field?, lookup, Document.same]

end ApiTypes
