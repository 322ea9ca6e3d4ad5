import ApiTypes.Generation
import ApiTypes.Proofs.Plan.Definition
import Mathlib.Data.List.Pairwise

/-! The plans of a schema. All plans together register a fixed list of identifiers, use
the support library if a resource is defined, and show the references of the schema: the
metadata type of the first resource, and then those of every definition. A schema has no
plans exactly if the metadata of its first resource is at fault, or else a definition
is. -/

namespace ApiTypes

open Traversal

namespace Plan

variable {os : List Outline} {ps : List (Plan String)}

/-! ### Plans that realize a list of outlines -/

theorem forall_of_realizes {P : Plan String → Prop} (hP : ∀ o p, Realizes p o → P p)
    (h : List.Forall₂ (fun o p => p.Realizes o) os ps) : ∀ p ∈ ps, P p := by
  induction h with
  | nil => exact List.forall_mem_nil _
  | cons ho _ ih => exact List.forall_mem_cons.mpr ⟨hP _ _ ho, ih⟩

theorem declared_of_realizes (h : List.Forall₂ (fun o p => p.Realizes o) os ps) :
    declaredBy (ps.flatMap (·.requests)) = os.flatMap (·.declares) := by
  induction h with
  | nil => rfl
  | cons ho _ ih => rw [List.flatMap_cons, List.flatMap_cons, declaredBy_append, ho.declared, ih]

theorem uses_of_realizes (h : List.Forall₂ (fun o p => p.Realizes o) os ps) (u : Use) :
    u ∈ usesBy (ps.flatMap (·.requests)) ↔
      u ∈ (os.flatMap (·.library)).map libraryUse ∨
        u ∈ (os.flatMap (·.references)).filterMap Reference.use? := by
  induction h with
  | nil => simp [usesBy]
  | cons ho _ ih =>
    rw [List.flatMap_cons, List.flatMap_cons, List.flatMap_cons, usesBy_append, List.mem_append,
      ho.uses, ih, List.map_append, List.filterMap_append, List.mem_append, List.mem_append]
    exact or_or_or_comm

theorem symbols_of_realizes (h : List.Forall₂ (fun o p => p.Realizes o) os ps)
    (f : Symbol String → Option Error) (hown : ∀ o ∈ os, ∀ symbol ∈ o.own, f symbol = none) :
    (ps.flatMap symbols).findSome? f =
      ((os.flatMap (·.references)).map Reference.symbol).findSome? f := by
  induction h with
  | nil => rfl
  | cons ho _ ih =>
    rw [List.forall_mem_cons] at hown
    rw [List.flatMap_cons, List.flatMap_cons, List.findSome?_append, List.map_append,
      List.findSome?_append, ho.symbols f hown.1, ih hown.2]

theorem spelled_of_realizes (h : List.Forall₂ (fun o p => p.Realizes o) os ps) :
    ps.flatMap spelled ⊆ os.flatMap Outline.spellable := by
  induction h with
  | nil => exact List.Subset.refl _
  | cons ho _ ih =>
    rw [List.flatMap_cons, List.flatMap_cons, List.append_subset]
    exact ⟨List.subset_append_of_subset_left _ ho.spelled,
      List.subset_append_of_subset_right _ ih⟩

theorem shown_of_realizes (h : List.Forall₂ (fun o p => p.Realizes o) os ps) :
    (os.flatMap (·.references)).map Reference.symbol ⊆ ps.flatMap spelled := by
  induction h with
  | nil => exact List.Subset.refl _
  | cons ho _ ih =>
    rw [List.flatMap_cons, List.flatMap_cons, List.map_append, List.append_subset]
    exact ⟨List.subset_append_of_subset_left _ ho.shown,
      List.subset_append_of_subset_right _ ih⟩

theorem introduced_of_realizes (h : List.Forall₂ (fun o p => p.Realizes o) os ps) :
    ps.flatMap introduced = (os.flatMap (·.introduces)).map Symbol.declared := by
  induction h with
  | nil => rfl
  | cons ho _ ih => rw [List.flatMap_cons, List.flatMap_cons, List.map_append, ho.introduced, ih]

end Plan

namespace Schema

variable (s : Schema String)

/-- The first resource of a schema. -/
def resource? : Option (Definition String) :=
  s.definitions.find? fun d => d.value.isResource

/-- The metadata type of the first resource. -/
def metadata? : Option (Reference String) :=
  s.resource?.bind fun d => Definition.metadataReference? (d.value.properties?.getD [])

/-- Why a schema has no plans, if it has none. -/
def fault? : Option Error :=
  (s.resource?.bind fun d => d.metadataFault? (d.value.properties?.getD [])).or
    (s.definitions.findSome? Definition.fault?)

/-- What the plans of a schema do. -/
def outlines : List Outline :=
  .header :: (s.metadata?.toList.map .base ++ s.definitions.map Definition.outline)

/-- The identifiers that the module of a schema declares, in order. -/
def declarations : List String :=
  [versionType, versionValue] ++ (if s.resource?.isSome then [resourceBase] else []) ++
    s.definitions.flatMap Definition.declares

/-- The members of the support library that the module of a schema imports. -/
def library : List String :=
  if s.resource?.isSome then ["Resource", "NameScope", "factory", "ResourceList"] else []

/-- The references that the module of a schema shows. -/
def references : List (Reference String) :=
  s.metadata?.toList ++ s.definitions.flatMap Definition.references

theorem basePlan?_yields :
    Yields (s.resource?.bind fun d => d.metadataFault? (d.value.properties?.getD []))
      (fun base => base = s.metadata?.map Plan.base ∧ s.metadata?.isSome = s.resource?.isSome)
      (basePlan? s.definitions) := by
  rw [basePlan?, metadata?, ← resource?]
  cases hd : s.resource? with
  | none => exact yields_ok ⟨rfl, rfl⟩
  | some d =>
    have hr : d.value.isResource = true := by
      have h := List.find?_some hd
      exact h
    obtain ⟨properties, hp⟩ : ∃ properties, d.value.properties? = some properties := by
      cases hv : d.value with
      | resource properties scope => exact ⟨properties, rfl⟩
      | _ => rw [hv] at hr; cases hr
    simp only [Option.bind_some, hp, Option.getD_some]
    refine (d.metadata_yields hp).map fun found hf => ?_
    rw [hf]
    exact ⟨rfl, rfl⟩

/-- A schema without fault has plans that do what its outlines say. -/
theorem plans_yields :
    Yields s.fault? (fun ps => List.Forall₂ (fun o p => Plan.Realizes p o) s.outlines ps ∧
      s.metadata?.isSome = s.resource?.isSome) s.plans := by
  rw [plans, fault?]
  refine s.basePlan?_yields.bind fun base hbase => ?_
  refine (yields_mapM fun d _ => d.plan_yields).map fun ps hps => ?_
  have hrealizes : List.Forall₂ (fun o p => Plan.Realizes p o) (s.metadata?.toList.map .base)
      base.toList := by
    rw [hbase.1]
    cases s.metadata? with
    | none => exact .nil
    | some r => exact .cons (Plan.base_realizes r) .nil
  refine ⟨.cons Plan.header_realizes (List.rel_append hrealizes ?_), hbase.2⟩
  exact List.forall₂_map_left_iff.mpr hps

/-! ### The outlines of a schema together -/

theorem declares_outline (d : Definition String) : d.outline.declares = d.declares := by
  rw [Definition.outline]
  split <;> rfl

theorem references_outline (d : Definition String) : d.outline.references = d.references := by
  rw [Definition.outline]
  split <;> rfl

theorem library_outline (d : Definition String) :
    d.outline.library = if d.value.isResource then ["factory", "ResourceList"] else [] := by
  rw [Definition.outline]
  cases d.value <;> rfl

theorem lookups_outline (d : Definition String) :
    d.outline.lookups = if d.value.isResource then [resourceBase, versionValue] else [] := by
  rw [Definition.outline]
  cases d.value <;> rfl

/-- The names that the statements of the module introduce, in order. -/
def introductions : List String :=
  s.outlines.flatMap (·.introduces)

/-- The names of the definitions that only re-export a type. -/
def reexports : List String :=
  (s.definitions.filter Definition.isReexport).map (·.name)

theorem isSome_resource? : s.resource?.isSome ↔ ∃ d ∈ s.definitions, d.value.isResource = true := by
  rw [resource?, List.find?_isSome]

variable {s}

theorem flatMap_declares (h : s.metadata?.isSome = s.resource?.isSome) :
    s.outlines.flatMap (·.declares) = s.declarations := by
  have hd : (s.definitions.map Definition.outline).flatMap (·.declares) =
      s.definitions.flatMap Definition.declares := by
    rw [List.flatMap_map]
    simp only [declares_outline]
  have hb : (s.metadata?.toList.map Outline.base).flatMap (·.declares) =
      if s.resource?.isSome then [resourceBase] else [] := by
    rw [← h]
    cases s.metadata? <;> rfl
  rw [outlines, List.flatMap_cons, List.flatMap_append, hd, hb, declarations, List.append_assoc]
  rfl

theorem flatMap_references : s.outlines.flatMap (·.references) = s.references := by
  have hd : (s.definitions.map Definition.outline).flatMap (·.references) =
      s.definitions.flatMap Definition.references := by
    rw [List.flatMap_map]
    simp only [references_outline]
  rw [outlines, List.flatMap_cons, List.flatMap_append, hd, references]
  cases s.metadata? <;> rfl

theorem mem_flatMap_library (h : s.metadata?.isSome = s.resource?.isSome) (member : String) :
    member ∈ s.outlines.flatMap (·.library) ↔ member ∈ s.library := by
  have hd : member ∈ (s.definitions.map Definition.outline).flatMap (·.library) ↔
      s.resource?.isSome ∧ member ∈ ["factory", "ResourceList"] := by
    rw [List.flatMap_map, List.mem_flatMap, isSome_resource?]
    constructor
    · rintro ⟨d, hd, hm⟩
      rw [library_outline] at hm
      split at hm
      next hr => exact ⟨⟨d, hd, hr⟩, hm⟩
      next => cases hm
    · rintro ⟨⟨d, hd, hr⟩, hm⟩
      exact ⟨d, hd, by rwa [library_outline, if_pos hr]⟩
  have hb : member ∈ (s.metadata?.toList.map Outline.base).flatMap (·.library) ↔
      s.resource?.isSome ∧ member ∈ ["Resource", "NameScope"] := by
    rw [← h]
    cases s.metadata? <;> simp [Outline.base]
  rw [outlines, List.flatMap_cons, List.flatMap_append, List.mem_append, List.mem_append, hd, hb,
    library]
  cases s.resource?.isSome <;> simp [Outline.header, or_assoc]

theorem mem_outlines (o : Outline) :
    o ∈ s.outlines ↔ o = .header ∨ (∃ r, s.metadata? = some r ∧ o = .base r) ∨
      ∃ d ∈ s.definitions, o = d.outline := by
  rw [outlines, List.mem_cons, List.mem_append, List.mem_map, List.mem_map]
  simp only [Option.mem_toList, eq_comm]

theorem introduces_outline (d : Definition String) :
    d.outline.introduces ⊆ d.declares ∧ (d.isReexport = false → d.declares ⊆ d.outline.introduces) ∧
      (d.isReexport = true → d.outline.introduces = [] ∧ d.declares = [d.name]) := by
  rw [Definition.outline, Definition.declares, Definition.isReexport]
  cases d.value <;> simp [TypeExpr.isResource]

theorem introduces_subset_declares {o : Outline} (ho : o ∈ s.outlines) :
    o.introduces ⊆ o.declares := by
  rcases (mem_outlines o).mp ho with rfl | ⟨r, -, rfl⟩ | ⟨d, -, rfl⟩
  · exact List.Subset.refl _
  · exact List.Subset.refl _
  · rw [declares_outline]
    exact (introduces_outline d).1

theorem introductions_subset (h : s.metadata?.isSome = s.resource?.isSome) :
    s.introductions ⊆ s.declarations := by
  intro x hx
  obtain ⟨o, ho, hi⟩ := List.mem_flatMap.mp hx
  rw [← flatMap_declares h]
  exact List.mem_flatMap.mpr ⟨o, ho, introduces_subset_declares ho hi⟩

/-- Every declared name is introduced or stands for a re-exported type. -/
theorem mem_introductions_or_reexports (h : s.metadata?.isSome = s.resource?.isSome) {x : String}
    (hx : x ∈ s.declarations) : x ∈ s.introductions ∨ x ∈ s.reexports := by
  rw [← flatMap_declares h] at hx
  obtain ⟨o, ho, hd⟩ := List.mem_flatMap.mp hx
  rcases (mem_outlines o).mp ho with rfl | ⟨r, -, rfl⟩ | ⟨d, hm, rfl⟩
  · exact .inl (List.mem_flatMap.mpr ⟨.header, ho, hd⟩)
  · exact .inl (List.mem_flatMap.mpr ⟨.base r, ho, hd⟩)
  · obtain ⟨-, hother, hreexport⟩ := introduces_outline d
    rw [declares_outline] at hd
    cases hr : d.isReexport with
    | false => exact .inl (List.mem_flatMap.mpr ⟨d.outline, ho, hother hr hd⟩)
    | true =>
      rw [(hreexport hr).2] at hd
      obtain rfl := List.mem_singleton.mp hd
      exact .inr (List.mem_map_of_mem (List.mem_filter.mpr ⟨hm, hr⟩))

/-- If all declarations are different, a name is declared in one outline only. -/
theorem outline_eq_of_mem_declares (h : s.metadata?.isSome = s.resource?.isSome)
    (hn : s.declarations.Nodup) {o o' : Outline} (ho : o ∈ s.outlines) (ho' : o' ∈ s.outlines)
    {x : String} (hx : x ∈ o.declares) (hx' : x ∈ o'.declares) : o = o' := by
  rw [← flatMap_declares h, List.nodup_flatMap] at hn
  have hdisjoint : s.outlines.Pairwise fun a b => a.declares.Disjoint b.declares := hn.2
  have hsymm : Std.Symm fun a b : Outline => a.declares.Disjoint b.declares :=
    ⟨fun _ _ hab => List.disjoint_symm hab⟩
  by_contra hne
  exact hdisjoint.forall ho ho' hne hx hx'

/-- Then no re-exported name is introduced. -/
theorem notMem_introductions_of_reexports (h : s.metadata?.isSome = s.resource?.isSome)
    (hn : s.declarations.Nodup) {x : String} (hx : x ∈ s.reexports) : x ∉ s.introductions := by
  intro hi
  obtain ⟨d, hfilter, rfl⟩ := List.mem_map.mp hx
  obtain ⟨hm, hr⟩ := List.mem_filter.mp hfilter
  obtain ⟨-, -, hreexport⟩ := introduces_outline d
  obtain ⟨o, ho, hx⟩ := List.mem_flatMap.mp hi
  have hd : d.outline ∈ s.outlines := (mem_outlines _).mpr (.inr (.inr ⟨d, hm, rfl⟩))
  have hx' : d.name ∈ d.outline.declares := by
    rw [declares_outline, (hreexport hr).2]
    exact List.mem_singleton_self _
  obtain rfl := outline_eq_of_mem_declares h hn ho hd (introduces_subset_declares ho hx) hx'
  rw [(hreexport hr).1] at hx
  cases hx

/-- What is looked up is introduced by the header or the base type. -/
theorem mem_introductions_of_lookup (h : s.metadata?.isSome = s.resource?.isSome) {o : Outline}
    (ho : o ∈ s.outlines) {x : String} (hx : x ∈ o.lookups) : x ∈ s.introductions := by
  have hheader : ∀ x ∈ [versionType, versionValue], x ∈ s.introductions := fun x hx =>
    List.mem_flatMap.mpr ⟨.header, (mem_outlines _).mpr (.inl rfl), hx⟩
  rcases (mem_outlines o).mp ho with rfl | ⟨r, -, rfl⟩ | ⟨d, hd, rfl⟩
  · obtain rfl := List.mem_singleton.mp hx
    exact hheader _ List.mem_cons_self
  · obtain rfl := List.mem_singleton.mp hx
    exact hheader _ List.mem_cons_self
  · rw [lookups_outline] at hx
    split at hx
    next hr =>
      rcases List.mem_cons.mp hx with rfl | hx
      · rw [(isSome_resource? s).mpr ⟨d, hd, hr⟩] at h
        obtain ⟨r, hr⟩ := Option.isSome_iff_exists.mp h
        have hbase : Outline.base r ∈ s.outlines := (mem_outlines _).mpr (.inr (.inl ⟨r, hr, rfl⟩))
        exact List.mem_flatMap.mpr ⟨_, hbase, List.mem_cons_self⟩
      · obtain rfl := List.mem_singleton.mp hx
        exact hheader _ (by simp)
    next => cases hx

/-- The plans of a schema as a whole. -/
structure Planned (s : Schema String) (ps : List (Plan String)) : Prop where
  plain : ∀ p ∈ ps, ∀ r ∈ p.requests, r.IsPlain
  total : ∀ p ∈ ps, p.Total
  declared : declaredBy (ps.flatMap (·.requests)) = s.declarations
  uses : ∀ u, u ∈ usesBy (ps.flatMap (·.requests)) ↔
    u ∈ s.library.map libraryUse ∨ u ∈ s.references.filterMap Reference.use?
  symbols : ∀ f : Symbol String → Option Error, (∀ x ∈ s.declarations, f (.declared x) = none) →
    (∀ member ∈ s.library, f (supportSymbol member) = none) →
      (ps.flatMap Plan.symbols).findSome? f = (s.references.map Reference.symbol).findSome? f
  spelled : ∀ symbol ∈ ps.flatMap Plan.spelled, symbol ∈ s.introductions.map Symbol.declared ∨
    symbol ∈ s.library.map supportSymbol ∨ symbol ∈ s.references.map Reference.symbol
  shown : s.references.map Reference.symbol ⊆ ps.flatMap Plan.spelled
  introduced : ps.flatMap Plan.introduced = s.introductions.map Symbol.declared
  metadata : s.metadata?.isSome = s.resource?.isSome

theorem planned_of_realizes {ps : List (Plan String)}
    (h : List.Forall₂ (fun o p => Plan.Realizes p o) s.outlines ps)
    (hm : s.metadata?.isSome = s.resource?.isSome) : s.Planned ps where
  plain := Plan.forall_of_realizes (fun _ _ ho => ho.plain) h
  total := Plan.forall_of_realizes (fun _ _ ho => ho.total) h
  declared := by rw [Plan.declared_of_realizes h, flatMap_declares hm]
  uses u := by
    rw [Plan.uses_of_realizes h, flatMap_references, List.mem_map, List.mem_map]
    simp only [mem_flatMap_library hm]
  symbols f hd hl := by
    rw [Plan.symbols_of_realizes h f, flatMap_references]
    intro o ho symbol hs
    rcases List.mem_append.mp hs with hs | hs
    · obtain ⟨x, hx, rfl⟩ := List.mem_map.mp hs
      rcases List.mem_append.mp hx with hx | hx
      · exact hd x (flatMap_declares hm ▸ List.mem_flatMap.mpr ⟨o, ho, hx⟩)
      · exact hd x (introductions_subset hm (mem_introductions_of_lookup hm ho hx))
    · obtain ⟨member, hx, rfl⟩ := List.mem_map.mp hs
      exact hl member ((mem_flatMap_library hm member).mp (List.mem_flatMap.mpr ⟨o, ho, hx⟩))
  spelled symbol hs := by
    obtain ⟨o, ho, hs⟩ := List.mem_flatMap.mp (Plan.spelled_of_realizes h hs)
    rw [Outline.spellable, List.mem_append, List.mem_append, List.mem_map] at hs
    rcases hs with (⟨x, hx, rfl⟩ | hs) | hs
    · refine .inl (List.mem_map_of_mem ?_)
      rcases List.mem_append.mp hx with hx | hx
      · exact List.mem_flatMap.mpr ⟨o, ho, hx⟩
      · exact mem_introductions_of_lookup hm ho hx
    · obtain ⟨member, hx, rfl⟩ := List.mem_map.mp hs
      refine .inr (.inl (List.mem_map_of_mem ?_))
      exact (mem_flatMap_library hm member).mp (List.mem_flatMap.mpr ⟨o, ho, hx⟩)
    · obtain ⟨r, hr, rfl⟩ := List.mem_map.mp hs
      refine .inr (.inr (List.mem_map_of_mem ?_))
      exact flatMap_references (s := s) ▸ List.mem_flatMap.mpr ⟨o, ho, hr⟩
  shown := by
    have hs := Plan.shown_of_realizes h
    rwa [flatMap_references] at hs
  introduced := Plan.introduced_of_realizes h
  metadata := hm

/-- A schema without fault has plans; together they do what its references and its
definitions ask for. -/
theorem planned_yields (s : Schema String) : Yields s.fault? s.Planned s.plans :=
  s.plans_yields.imp fun _ h => planned_of_realizes h.1 h.2

end Schema

end ApiTypes
