import ApiTypes.Proofs.Import.Merging
import ApiTypes.Proofs.Schema.Spellings

/-! What a generated module imports. Its import table lists one import for each module
and member that a shown reference goes to, the four members of the support library if a
resource is defined, and nothing else. Only the factory is imported as a value: no
reference can go to the support library, so none of its uses merges into the others. -/

namespace ApiTypes

open Traversal

/-! ### Identities -/

/-- The identity of the module that a scope stands for: a path inside a package if the
scope names one, and else a path beside this module. -/
def Scope.urn (scope : Scope String) : String :=
  let path := scope.group.modulePath scope.version
  match Label.present? scope.package with
  | some package => "kure:api:" ++ package ++ ":" ++ path
  | none => "/" ++ path

theorem Group.present?_modulePath (group : Group String) (version : String) :
    Label.present? (some (group.modulePath version)) = some (group.modulePath version) := by
  have hne : group.modulePath version ≠ "" := by
    intro h
    have hlen := congrArg (fun s => s.toList.length) h
    rw [modulePath] at hlen
    split at hlen <;> simp [moduleExtension] at hlen
  simp [Label.present?, Option.filter_some, hne]

theorem Scope.identity_source (scope : Scope String) : scope.source.identity = scope.urn := by
  have hpath := scope.group.present?_modulePath scope.version
  rw [source, urn]
  cases Label.present? scope.package with
  | none => rfl
  | some package =>
    simp only [Label.ofText, id_eq, Source.identity, hpath]
    simp only [Option.toList_some, List.cons_append, List.nil_append, String.intercalate_cons_cons,
      String.intercalate_singleton, String.append_assoc]
    rfl

theorem identity_supportLibrary : supportLibrary.identity = "kure:lib:schema" := by
  decide

/-- No scope stands for the support library. -/
theorem Scope.urn_ne_supportLibrary (scope : Scope String) :
    scope.urn ≠ supportLibrary.identity := by
  rw [identity_supportLibrary, urn]
  intro h
  have hl := congrArg String.toList h
  cases hp : Label.present? scope.package <;> simp [hp] at hl

/-! ### What a settled module lists -/

theorem Module.Settled.listing_eq {declared : List String} {t : Imports String}
    {m : Module String} (h : m.Settled declared t) :
    m.imports.listing =
      t.listing.map fun e => (e.1, Imports.named t.queue declared.length e.1 e.2) := by
  have hl : m.imports.listing = (t.mapImports (Imports.named t.queue declared.length)).listing := by
    rw [Imports.listing, h.modules_eq]
    rfl
  rw [hl, Imports.listing_mapImports]

/-! ### What a schema demands -/

theorem Reference.use?_eq_some_iff {r : Reference String} {u : Use} :
    r.use? = some u ↔ ∃ scope, r.scope = some scope ∧ u = ⟨scope.source, r.name, none, true⟩ := by
  rw [use?, request]
  cases r.scope <;> simp [Request.use?, eq_comm]

namespace Schema

/-- The pairs that a schema demands to import, and whether as types alone: what its
references to other modules stand for, and the support library if it has a resource. -/
inductive Demanded (s : Schema String) : String → String → Bool → Prop
  | reference {r : Reference String} {scope : Scope String} (hr : r ∈ s.references)
      (hscope : r.scope = some scope) : Demanded s scope.urn r.name true
  | support {d : Definition String} {member : String} (hd : d ∈ s.definitions)
      (hresource : d.value.isResource = true)
      (hmember : member ∈ ["Resource", "NameScope", "factory", "ResourceList"]) :
      Demanded s "kure:lib:schema" member (member ≠ "factory")

variable {s : Schema String}

/-- A pair is demanded as a type unless it is the factory of the support library. -/
theorem Demanded.typeOnly_eq {urn member : String} {typeOnly : Bool}
    (h : s.Demanded urn member typeOnly) :
    typeOnly = decide ((urn, member) ≠ ("kure:lib:schema", "factory")) := by
  cases h with
  | reference hr hscope =>
    have hne := Scope.urn_ne_supportLibrary
    simp only [identity_supportLibrary] at hne
    simp [hne]
  | support hd hresource hmember => simp

theorem mem_library_iff {member : String} :
    member ∈ s.library ↔ (∃ d ∈ s.definitions, d.value.isResource = true) ∧
      member ∈ ["Resource", "NameScope", "factory", "ResourceList"] := by
  rw [library, ← isSome_resource?]
  cases s.resource?.isSome <;> simp

/-- The uses of a planned module are the demanded ones. -/
theorem Planned.demanded_iff (h : s.Planned s.planned) (urn member : String) (typeOnly : Bool) :
    s.Demanded urn member typeOnly ↔ ∃ u ∈ usesBy (requestsOf s.members),
      u.source.identity = urn ∧ u.member = member ∧ u.typeOnly = typeOnly := by
  have huses := h.uses
  rw [← requestsOf_members] at huses
  simp only [huses, List.mem_map, List.mem_filterMap, Reference.use?_eq_some_iff]
  constructor
  · intro hd
    cases hd with
    | reference hr hscope =>
      exact ⟨_, .inr ⟨_, hr, _, hscope, rfl⟩, Scope.identity_source _, rfl, rfl⟩
    | support hd hresource hmember =>
      have hm := mem_library_iff.mpr ⟨⟨_, hd, hresource⟩, hmember⟩
      exact ⟨libraryUse member, .inl ⟨member, hm, rfl⟩, identity_supportLibrary, rfl, rfl⟩
  · rintro ⟨u, ⟨member, hm, rfl⟩ | ⟨r, hr, scope, hscope, rfl⟩, rfl, rfl, rfl⟩
    · obtain ⟨⟨d, hd, hresource⟩, hmember⟩ := mem_library_iff.mp hm
      exact identity_supportLibrary ▸ .support hd hresource hmember
    · rw [Scope.identity_source]
      exact .reference hr hscope

/-- A test that has one result throughout a list has it for the list. -/
theorem all_eq_of_forall_eq {α : Type} {l : List α} {f : α → Bool} {b : Bool} (hne : l ≠ [])
    (h : ∀ a ∈ l, f a = b) : l.all f = b := by
  cases b with
  | true => exact List.all_eq_true.mpr h
  | false =>
    obtain ⟨a, ha⟩ := List.exists_mem_of_ne_nil l hne
    exact List.all_eq_false.mpr ⟨a, ha, by simp [h a ha]⟩

/-- All uses of a pair agree on whether it is a type, so the import that they merge into
is what each of them demands. -/
theorem Planned.listed_iff (h : s.Planned s.planned) (urn member : String) (typeOnly : Bool) :
    (∃ i, (urn, i) ∈ (importsOf s.members).listing ∧ i.member = member ∧ i.typeOnly = typeOnly) ↔
      s.Demanded urn member typeOnly := by
  rw [importsOf, Imports.listed_recordAll_iff, h.demanded_iff]
  let pair := Imports.usesOf (usesBy (requestsOf s.members)) urn member
  have hpair : ∀ u, u ∈ pair ↔ u ∈ usesBy (requestsOf s.members) ∧
      u.source.identity = urn ∧ u.member = member := by
    intro u
    simp only [pair, Imports.usesOf, List.mem_filter, decide_eq_true_iff]
  have hall : ∀ u ∈ pair, u.typeOnly = decide ((urn, member) ≠ ("kure:lib:schema", "factory")) := by
    intro u hu
    obtain ⟨hmem, hurn, hmember⟩ := (hpair u).mp hu
    exact ((h.demanded_iff _ _ _).mpr ⟨u, hmem, hurn, hmember, rfl⟩).typeOnly_eq
  constructor
  · rintro ⟨hne, rfl⟩
    obtain ⟨u, hu⟩ := List.exists_mem_of_ne_nil _ hne
    obtain ⟨hmem, hurn, hmember⟩ := (hpair u).mp hu
    exact ⟨u, hmem, hurn, hmember, (hall u hu).trans (all_eq_of_forall_eq hne hall).symm⟩
  · rintro ⟨u, hmem, hurn, hmember, rfl⟩
    have hu := (hpair u).mpr ⟨hmem, hurn, hmember⟩
    have hne := List.ne_nil_of_mem hu
    exact ⟨hne, (all_eq_of_forall_eq hne hall).trans (hall u hu).symm⟩

/-- The import table of a generated module lists no pair twice, and lists exactly the
demanded pairs, each as a type or as a value as it is demanded. -/
theorem imports_exact {engine : Engine} {packaging : Option Packaging} {text : String}
    (h : (s.generate engine packaging).result = .ok text) :
    ((s.rendered engine packaging).imports.listing.map Imports.key).Nodup ∧
      ∀ urn member typeOnly,
        (∃ i, (urn, i) ∈ (s.rendered engine packaging).imports.listing ∧
            i.member = member ∧ i.typeOnly = typeOnly) ↔
          s.Demanded urn member typeOnly := by
  obtain ⟨hplanned, hm⟩ := settled_rendered h
  let name := Imports.named (importsOf s.members).queue s.declarations.length
  have hlisting : (s.rendered engine packaging).imports.listing =
      (importsOf s.members).listing.map fun e => (e.1, name e.1 e.2) := hm.listing_eq
  have hmember : ∀ urn i, (name urn i).member = i.member := Imports.member_named _ _
  have htypeOnly : ∀ urn i, (name urn i).typeOnly = i.typeOnly := Imports.typeOnly_named _ _
  constructor
  · have hkeys : (importsOf s.members).listing.map (Imports.key ∘ fun e => (e.1, name e.1 e.2)) =
        (importsOf s.members).listing.map Imports.key :=
      List.map_congr_left fun e _ => by simp only [Function.comp_apply, Imports.key, hmember]
    rw [hlisting, List.map_map, hkeys]
    exact hm.keyed.nodup_listing
  · intro urn member typeOnly
    rw [← hplanned.listed_iff, hlisting]
    constructor
    · rintro ⟨i, hi, rfl, rfl⟩
      obtain ⟨⟨urn', j⟩, hj, he⟩ := List.mem_map.mp hi
      obtain ⟨rfl, rfl⟩ := Prod.mk.inj he
      exact ⟨j, hj, (hmember _ j).symm, (htypeOnly _ j).symm⟩
    · rintro ⟨i, hi, rfl, rfl⟩
      exact ⟨name urn i, List.mem_map.mpr ⟨(urn, i), hi, rfl⟩, hmember urn i, htypeOnly urn i⟩

/-- The metadata type of a module beside it. -/
def objectMeta : Reference String :=
  { name := "ObjectMeta", scope := some { group := { directory := some "meta" }, version := "v1" } }

/-- A type of the core package. -/
def coreSpec : Reference String :=
  { name := "Spec", scope := some { group := {}, version := "v2", package := some "kubernetes" } }

/-- A schema with a resource over both of them. -/
def gadgets : Schema String :=
  let properties : List (Property String) :=
    [.mk "metadata" (.reference objectMeta) true none false,
      .mk "spec" (.array (.reference coreSpec)) false none false]
  { group := { name := some "apps", directory := some "apps" }, version := "v1"
    definitions := [{ name := "Gadget", value := .resource properties defaultScope }] }

theorem imports_exact_gadgets : ∃ text, (gadgets.generate .deno none).result = .ok text ∧
    (∃ i, ("kure:api:kubernetes:v2.ts", i) ∈ (gadgets.rendered .deno none).imports.listing ∧
      i.member = "Spec" ∧ i.typeOnly = true) ∧
    ∃ i, ("kure:lib:schema", i) ∈ (gadgets.rendered .deno none).imports.listing ∧
      i.member = "factory" ∧ i.typeOnly = false := by
  obtain ⟨text, h⟩ := (exists_text_iff .deno none (s := gadgets)).mpr (by rfl)
  refine ⟨text, h, ((imports_exact h).2 _ _ _).mpr ?_, ((imports_exact h).2 _ _ _).mpr ?_⟩
  · have hr : gadgets.references = [objectMeta, coreSpec] := rfl
    exact .reference (r := coreSpec) (by simp [hr]) rfl
  · exact .support List.mem_cons_self rfl (by decide)

end Schema

end ApiTypes
