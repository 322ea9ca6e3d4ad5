import ApiTypes.Schema.Basic

/-! Loading: from a decoded document to a schema over its raw values. Fields are
required in a fixed order, and the first one that is missing, or is asked of a
value that is no object, ends the load with a diagnostic at the enclosing
definition and property. Text fields are taken as they are. -/

namespace ApiTypes

namespace Document

/-- The measure of a load: it shrinks from an object to its fields, and does not
grow from a value to its elements. -/
def size : Document → Nat
  | list items => sizes items
  | object fields => fieldSizes fields + 1
  | _ => 0
where
  sizes : List Document → Nat
    | [] => 1
    | x :: xs => size x + sizes xs
  fieldSizes : List (String × Document) → Nat
    | [] => 0
    | (_, v) :: rest => size v + fieldSizes rest

theorem size_le_sizes {x : Document} {xs : List Document} (h : x ∈ xs) :
    x.size ≤ size.sizes xs := by
  induction xs with
  | nil => cases h
  | cons y ys ih =>
    rw [size.sizes]
    rcases List.mem_cons.1 h with rfl | h
    · omega
    · have := ih h
      omega

theorem size_le_fieldSizes {key : String} {v : Document} {fields : List (String × Document)}
    (h : lookup key fields = some v) : v.size ≤ size.fieldSizes fields := by
  induction fields with
  | nil => cases h
  | cons f rest ih =>
    obtain ⟨k, w⟩ := f
    rw [size.fieldSizes]
    rw [lookup] at h
    split at h
    · cases h
      omega
    · have := ih h
      omega

theorem size_lt_of_field? {doc v : Document} {key : String} (h : doc.field? key = some v) :
    v.size < doc.size := by
  cases doc <;> simp only [field?, reduceCtorEq] at h
  have := size_le_fieldSizes h
  rw [size]
  omega

theorem size_le_of_elements? {doc x : Document} {xs : List Document}
    (h : doc.elements? = some xs) (hx : x ∈ xs) : x.size ≤ doc.size := by
  cases doc <;> simp only [elements?, Option.some.injEq, reduceCtorEq] at h
  · subst h
    simp only [List.mem_map] at hx
    obtain ⟨c, -, rfl⟩ := hx
    simp [size]
  · subst h
    rw [size]
    exact size_le_sizes hx
  · subst h
    simp only [List.mem_map] at hx
    obtain ⟨f, -, rfl⟩ := hx
    simp [size]

/-- The field that must be there, of a value that must be an object. -/
def require (doc : Document) (key : String) (place : Location) :
    Except Error { v : Document // v.size < doc.size } :=
  if doc.isObject then
    match h : doc.field? key with
    | some v => .ok ⟨v, size_lt_of_field? h⟩
    | none => .error (.ofCause (.missingField key) (some place))
  else .error (.ofCause (.expectedObject key doc) (some place))

/-- A field that may be missing or null. -/
def optional? (doc : Document) (key : String) : Option Document :=
  match doc.field? key with
  | some null => none
  | other => other

/-- A field that counts only when it is truthy. -/
def truthy? (doc : Document) (key : String) : Option Document :=
  (doc.field? key).filter isTruthy

def flag (doc : Document) (key : String) : Bool :=
  (truthy? doc key).isSome

/-- The elements of a value that must have some. -/
def requireElements (doc : Document) :
    Except Error { xs : List Document // ∀ x ∈ xs, x.size ≤ doc.size } :=
  match h : doc.elements? with
  | some xs => .ok ⟨xs, fun _ hx => size_le_of_elements? h hx⟩
  | none => .error (.misfit (.iteration doc))

/-- The elements of a field; a field that is missing or not truthy has none. -/
def elementsOf (doc : Document) (key : String) :
    Except Error { xs : List Document // ∀ x ∈ xs, x.size < doc.size } :=
  match h : doc.field? key with
  | some v =>
    if v.isTruthy then do
      let ⟨xs, hxs⟩ ← requireElements v
      return ⟨xs, fun x hx => Nat.lt_of_le_of_lt (hxs x hx) (size_lt_of_field? h)⟩
    else .ok ⟨[], fun _ hx => by cases hx⟩
  | none => .ok ⟨[], fun _ hx => by cases hx⟩

/-- A value whose fields are read without a check of its own. -/
def requireFields (doc : Document) : Except Error Unit :=
  if doc.isObject then .ok () else .error (.misfit (.fields doc))

end Document

open Document (require requireElements elementsOf requireFields)

/-- An empty name or directory counts as missing. -/
def Group.ofDocument? (doc : Document) : Except Error (Group Document) := do
  requireFields doc
  return { name := doc.truthy? "name", directory := doc.truthy? "module" }

def Scope.ofDocument? (place : Location) (doc : Document) : Except Error (Scope Document) := do
  let ⟨group, _⟩ ← require doc "group" place
  let group ← Group.ofDocument? group
  let ⟨version, _⟩ ← require doc "version" place
  return { group, version, package := doc.truthy? "package" }

def Reference.ofDocument? (place : Location) (doc : Document) :
    Except Error (Reference Document) := do
  let ⟨target, _⟩ ← require doc "target" place
  let ⟨name, _⟩ ← require target "name" place
  match target.optional? "scope" with
  | none => return { name }
  | some scope => return { name, scope := some (← Scope.ofDocument? place scope) }

/-- The choices of a string type: null and a missing field leave it open. -/
def choicesOf (doc : Document) : Except Error (Option (List Document)) :=
  match doc.optional? "enum" with
  | none => .ok none
  | some v => do
    let ⟨xs, _⟩ ← requireElements v
    return some xs

/-- The scope that a resource states in its metadata field. -/
def scopeOf (metadata : Option Document) : Except Error Document :=
  match metadata with
  | none => .ok (.text defaultScope)
  | some doc => do
    requireFields doc
    return (doc.field? "scope").getD (.text defaultScope)

mutual

def TypeExpr.ofDocument? (place : Location) (doc : Document) :
    Except Error (TypeExpr Document) := do
  let ⟨tag, _⟩ ← require doc "type" place
  match tag.text?.bind Kind.ofTag? with
  | none => .error (.ofCause (.unknownType tag) (some place))
  | some .string => return .string (← choicesOf doc)
  | some .integer => return .integer
  | some .float => return .float
  | some .boolean => return .boolean
  | some .unknown => return .unknown
  | some .array =>
    let ⟨items, _⟩ ← require doc "values" place
    return .array (← TypeExpr.ofDocument? place items)
  | some .map =>
    let ⟨values, _⟩ ← require doc "values" place
    return .map (← TypeExpr.ofDocument? place values)
  | some .union =>
    let ⟨values, _⟩ ← require doc "values" place
    let ⟨variants, _⟩ ← requireElements values
    return .union (← variants.attach.mapM fun ⟨v, _⟩ => TypeExpr.ofDocument? place v)
  | some .optional =>
    let ⟨value, _⟩ ← require doc "value" place
    return .optional (← TypeExpr.ofDocument? place value)
  | some .reference => return .reference (← Reference.ofDocument? place doc)
  | some .object =>
    let ⟨properties, _⟩ ← elementsOf doc "properties"
    let properties ← properties.attach.mapM fun ⟨p, _⟩ => Property.ofDocument? place p
    let ⟨parents, _⟩ ← elementsOf doc "inherit"
    return .object properties (← parents.mapM (Reference.ofDocument? place))
  | some .resource =>
    let ⟨properties, _⟩ ← elementsOf doc "properties"
    let properties ← properties.attach.mapM fun ⟨p, _⟩ => Property.ofDocument? place p
    return .resource properties (← scopeOf (doc.truthy? "metadata"))
termination_by doc.size
decreasing_by
  · assumption
  · assumption
  · rename_i hv hx hm
    exact Nat.lt_of_le_of_lt (hx _ hm) hv
  · assumption
  · rename_i hx hm
    exact hx _ hm
  · rename_i hx hm
    exact hx _ hm

def Property.ofDocument? (place : Location) (doc : Document) :
    Except Error (Property Document) := do
  let ⟨name, _⟩ ← require doc "name" place
  let place := place.withProperty name
  let ⟨value, _⟩ ← require doc "value" place
  let value ← TypeExpr.ofDocument? place value
  return .mk name value (doc.flag "required") (doc.optional? "description")
    (doc.flag "deprecated")
termination_by doc.size
decreasing_by assumption

end

def Definition.ofDocument? (doc : Document) : Except Error (Definition Document) := do
  let ⟨name, _⟩ ← require doc "name" {}
  let place := Location.ofDefinition name
  let ⟨value, _⟩ ← require doc "value" place
  let value ← TypeExpr.ofDocument? place value
  return { name, value, description := doc.optional? "description",
           deprecated := doc.flag "deprecated" }

def Dependency.ofDocument? (doc : Document) : Except Error (Dependency Document) := do
  let ⟨package, _⟩ ← require doc "package" {}
  let ⟨version, _⟩ ← require doc "version" {}
  return { package, version }

/-- The values that a list holds more than once, each one time. -/
def repeated (xs : List Document) : List Document :=
  (xs.filter fun x => 1 < xs.countP fun y => y.same x).eraseDupsBy Document.same

/-- Refuses a package that is listed more than once. -/
def requireDistinct (dependencies : List (Dependency Document)) : Except Error Unit := do
  let packages := repeated (dependencies.map (·.package))
  packages.forM Label.requireKey
  let sorted ← Label.sortBy id packages
  if sorted.isEmpty then return ()
  let names ← sorted.mapM Label.requireText
  .error (.ofCause (.repeatedDependency names) (some {}))

namespace Schema

def formatVersion : String := "spec.kure.sh/v1alpha1"
def formatKind : String := "APIGroupVersion"

/-- Whether a document says that it is a schema. -/
def isSchema (doc : Document) : Bool :=
  let states (key value : String) := ((doc.field? key).map (·.same (.text value))).getD false
  states "apiVersion" formatVersion && states "kind" formatKind

def ofDocument? (doc : Document) : Except Error (Schema Document) := do
  let ⟨group, _⟩ ← require doc "group" {}
  let ⟨dependencies, _⟩ ← elementsOf doc "dependencies"
  let dependencies ← dependencies.mapM Dependency.ofDocument?
  requireDistinct dependencies
  let ⟨definitions, _⟩ ← elementsOf doc "definitions"
  let definitions ← definitions.mapM Definition.ofDocument?
  let group ← Group.ofDocument? group
  let ⟨version, _⟩ ← require doc "version" {}
  return { group, version, dependencies, definitions }

end Schema

end ApiTypes
