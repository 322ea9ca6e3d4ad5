import ApiTypes.Proofs.Schema.Generation
import Mathlib.Data.List.Dedup

/-! When the spellings of a module clash. The registrations of a generated module are its
declarations and one for each imported pair of a source and a member. Each keeps its
identifier or gets a suffix, and the suffixes of one group are chosen without a look at
the others, so two registrations share a spelling exactly if some identifier is already
spelled like a later position of another group. -/

namespace ApiTypes

open Names Traversal

namespace Schema

variable (s : Schema String)

/-- The source and the member that a reference imports. -/
def importedPair? (r : Reference String) : Option (String × String) :=
  r.scope.map fun scope => (scope.source.identity, r.name)

/-- The sources and members that the module of a schema imports, each pair once. -/
def importedPairs : List (String × String) :=
  (s.library.map (fun member => (supportLibrary.identity, member)) ++
    s.references.filterMap importedPair?).dedup

/-- The identifiers that the module of a schema registers. -/
def identifiers : List String :=
  s.declarations ++ s.importedPairs.map (·.2)

variable {s}

theorem pair_use? (r : Reference String) :
    r.use?.map (fun u => (u.source.identity, u.member)) = importedPair? r := by
  rw [Reference.use?, Reference.request, importedPair?]
  cases r.scope <;> rfl

theorem Planned.localName_eq_none (h : s.Planned s.planned) :
    ∀ u ∈ usesBy (requestsOf s.members), u.localName = none := by
  intro u hu
  rw [requestsOf_members, h.uses] at hu
  rcases hu with hu | hu
  · obtain ⟨member, -, rfl⟩ := List.mem_map.mp hu
    rfl
  · obtain ⟨r, -, hr⟩ := List.mem_filterMap.mp hu
    rw [Reference.use?, Reference.request] at hr
    cases hs : r.scope with
    | none => rw [hs] at hr; cases hr
    | some scope =>
      rw [hs] at hr
      rw [← Option.some.inj hr]

theorem Planned.queue_keys (h : s.Planned s.planned) :
    ((importsOf s.members).queue.map Imports.key).Perm s.importedPairs := by
  have hqueue : ((importsOf s.members).queue.map Imports.key).Nodup :=
    (Imports.keyed_recordAll _).nodup_keys
  have hpairs : s.importedPairs.Nodup := List.nodup_dedup _
  refine (List.perm_ext_iff_of_nodup hqueue hpairs).mpr fun k => ?_
  rw [importsOf, Imports.mem_keys_recordAll, importedPairs, List.mem_dedup, List.mem_append,
    requestsOf_members, List.mem_map, List.mem_filterMap]
  simp only [h.uses, List.mem_map, List.mem_filterMap]
  constructor
  · rintro ⟨u, ⟨member, hm, rfl⟩ | ⟨r, hr, hu⟩, rfl⟩
    · exact .inl ⟨member, hm, rfl⟩
    · refine .inr ⟨r, hr, ?_⟩
      rw [← pair_use?, hu]
      rfl
  · rintro (⟨member, hm, rfl⟩ | ⟨r, hr, hk⟩)
    · exact ⟨libraryUse member, .inl ⟨member, hm, rfl⟩, rfl⟩
    · rw [← pair_use?] at hk
      obtain ⟨u, hu, rfl⟩ := Option.map_eq_some_iff.mp hk
      exact ⟨u, .inr ⟨r, hr, hu⟩, rfl⟩

theorem Planned.identifiers_perm (h : s.Planned s.planned) :
    ((Module.registrations s.declarations (importsOf s.members)).map (·.identifier)).Perm
      s.identifiers := by
  have hd : (s.declarations.map fun identifier =>
      ({ identifier, usage := .declaration } : Name String)).map (·.identifier) =
        s.declarations := by
    rw [List.map_map]
    exact List.map_id _
  have hi : ((importsOf s.members).queue.map Module.importName).map (·.identifier) =
      ((importsOf s.members).queue.map Imports.key).map (·.2) := by
    rw [List.map_map, List.map_map]
    exact List.map_congr_left fun e he =>
      Imports.identifier_of_mem_queue h.localName_eq_none he
  rw [Module.registrations, List.map_append, hd, hi, identifiers]
  exact (h.queue_keys.map _).append_left _

theorem Planned.distinct_iff (h : s.Planned s.planned) {m : Module String}
    (hm : m.Settled s.declarations (importsOf s.members)) :
    m.names.Distinct ↔
      ∀ x k, 0 < k → k < s.identifiers.count x → Name.numbered x k ∉ s.identifiers := by
  have hp := h.identifiers_perm
  rw [hm.names, distinct_ofSettled_iff]
  simp only [hp.count_eq, hp.mem_iff]

/-- The registrations of a generated module have different spellings exactly if no
identifier is spelled like a later position of a group. -/
theorem spellings_distinct_iff {engine : Engine} {packaging : Option Packaging} {text : String}
    (h : (s.generate engine packaging).result = .ok text) :
    (s.rendered engine packaging).names.Distinct ↔
      ∀ x k, 0 < k → k < s.identifiers.count x → Name.numbered x k ∉ s.identifiers := by
  obtain ⟨hplanned, hsettled⟩ := settled_rendered h
  exact hplanned.distinct_iff hsettled

/-- A reference to a member of a module in another directory. -/
def memberOf (directory name : String) : TypeExpr String :=
  .reference { name, scope := some { group := { directory := some directory }, version := "v1" } }

/-- A schema that declares `Foo` and `Foo_`, and imports a `Foo` of another module. -/
def clash : Schema String :=
  { group := { name := some "apps", directory := some "apps" }, version := "v1"
    definitions := [{ name := "Foo", value := .integer }, { name := "Foo_", value := .boolean },
      { name := "Bar", value := .array (.reference { name := "Foo", scope := some {
          group := { directory := some "core" }, version := "v1" } }) }] }

theorem spellings_distinct_iff_clash : ∃ text, (clash.generate .deno none).result = .ok text ∧
    ((clash.rendered .deno none).names.Distinct ↔
      ∀ x k, 0 < k → k < clash.identifiers.count x → Name.numbered x k ∉ clash.identifiers) := by
  obtain ⟨text, h⟩ := (exists_text_iff .deno none (s := clash)).mpr (by decide)
  exact ⟨text, h, spellings_distinct_iff h⟩

/-- The import of `Foo` is spelled like the declaration of `Foo_`. -/
theorem clash_not_distinct : ∃ text, (clash.generate .deno none).result = .ok text ∧
    ¬(clash.rendered .deno none).names.Distinct := by
  obtain ⟨text, h⟩ := (exists_text_iff .deno none (s := clash)).mpr (by decide)
  obtain ⟨hplanned, hsettled⟩ := settled_rendered h
  refine ⟨text, h, fun hd => ?_⟩
  exact (hplanned.distinct_iff hsettled).mp hd "Foo" 1 (by decide) (by decide) (by decide)

end Schema

end ApiTypes
