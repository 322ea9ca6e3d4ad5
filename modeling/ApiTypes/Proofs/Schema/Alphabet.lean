import ApiTypes.Proofs.Plan.Safety
import ApiTypes.Proofs.Schema.Spellings
import ApiTypes.Proofs.Schema.Text

/-! The characters of names. A module shows the names of its schema, those of the support
library, and numbered spellings of both, so whatever class of characters the names of a
schema are written in, its symbols are spelled in that class too, as long as it has the
letters, the digits and the underscore. -/

namespace ApiTypes

open Text

/-- A spelling that shows some declarations, some references and the support library in
characters of one class. -/
structure SpellsOver (P : Char → Prop) (spelled : Symbol String → String) (declared : List String)
    (rs : List (Reference String)) : Prop where
  declared : ∀ x ∈ declared, Over P (spelled (.declared x))
  support : ∀ member ∈ ["Resource", "NameScope", "factory", "ResourceList"],
    Over P (spelled (supportSymbol member))
  references : ∀ r ∈ rs, Over P (spelled r.symbol)

variable {P : Char → Prop}

theorem SpellsOver.mono {spelled : Symbol String → String} {ds ds' : List String}
    {rs rs' : List (Reference String)} (h : SpellsOver P spelled ds rs) (hd : ds' ⊆ ds)
    (hr : rs' ⊆ rs) : SpellsOver P spelled ds' rs' where
  declared x hx := h.declared x (hd hx)
  support := h.support
  references r hm := h.references r (hr hm)

/-- A spelling in bare characters is plain. -/
theorem SpellsOver.plain {spelled : Symbol String → String} {ds : List String}
    {rs : List (Reference String)} (h : SpellsOver P spelled ds rs) (hbare : ∀ c, P c → Bare c) :
    SpellsPlain spelled ds rs where
  declared x hx c hc := hbare c (h.declared x hx c hc)
  support member hm c hc := hbare c (h.support member hm c hc)
  references r hr c hc := hbare c (h.references r hr c hc)

theorem Name.over_numbered (hword : OfWords P) {x : String} (h : Over P x) (k : Nat) :
    Over P (numbered x k) := by
  cases k with
  | zero => exact h
  | succ k =>
    have hdigits : ∀ c ∈ digits k, c.isDigit = true := by
      cases k with
      | zero => exact List.forall_mem_nil _
      | succ k => exact fun c hc => Nat.isDigit_of_mem_toDigits (by decide) (by decide) hc
    rw [Over, toList_numbered_succ, List.forall_mem_append, List.forall_mem_cons]
    refine ⟨h, hword '_' (by decide), fun c hc => hword c ?_⟩
    have hd := hdigits c hc
    rw [Char.isDigit, Bool.and_eq_true, decide_eq_true_eq, decide_eq_true_eq] at hd
    simp only [PropertyKey.isWordChar, Bool.or_eq_true, Bool.and_eq_true, decide_eq_true_eq]
    exact .inl (.inr hd)

namespace Schema

variable {s : Schema String}

/-- Definitions and references have names of one class of characters. -/
structure NamedOver (P : Char → Prop) (s : Schema String) : Prop where
  definition : ∀ d ∈ s.definitions, Over P d.name
  reference : ∀ r ∈ s.references, Over P r.name

instance [DecidablePred P] (s : Schema String) : Decidable (s.NamedOver P) :=
  decidable_of_iff ((∀ d ∈ s.definitions, Over P d.name) ∧ ∀ r ∈ s.references, Over P r.name)
    ⟨fun h => ⟨h.1, h.2⟩, fun h => ⟨h.definition, h.reference⟩⟩

/-! ### What the members show -/

theorem header_subset : [versionType, versionValue] ⊆ s.declarations := by
  simp [declarations]

theorem base_subset (h : s.resource?.isSome) : [versionType, resourceBase] ⊆ s.declarations := by
  simp [declarations, h]

theorem definition_subset {d : Definition String} (hd : d ∈ s.definitions) :
    d.declares ++ d.outline.lookups ⊆ s.declarations := by
  rw [List.append_subset]
  refine ⟨fun x hx => List.mem_append_right _ (List.mem_flatMap.mpr ⟨d, hd, hx⟩), fun x hx => ?_⟩
  rw [lookups_outline] at hx
  split at hx
  next hr =>
    rcases List.mem_cons.mp hx with rfl | hx
    · exact base_subset ((isSome_resource? s).mpr ⟨d, hd, hr⟩) (by simp)
    · obtain rfl := List.mem_singleton.mp hx
      exact header_subset (by simp)
  next => cases hx

theorem definition_references_subset {d : Definition String} (hd : d ∈ s.definitions) :
    d.references ⊆ s.references :=
  fun _ hr => List.mem_append_right _ (List.mem_flatMap.mpr ⟨d, hd, hr⟩)

theorem metadata_references_subset {r : Reference String} (hr : s.metadata? = some r) :
    [r] ⊆ s.references := by
  simp [references, hr]

section

variable (hword : OfWords P) (h : s.NamedOver P)

include hword

theorem over_support : ∀ member ∈ ["Resource", "NameScope", "factory", "ResourceList"],
    Over P member := by
  have hletters : ∀ member ∈ ["Resource", "NameScope", "factory", "ResourceList"],
      member.toList.all PropertyKey.isWordChar = true := by decide
  exact fun member hm => hword.over (hletters member hm)

theorem over_library : ∀ member ∈ s.library, Over P member := by
  intro member hm
  rw [library] at hm
  split at hm
  next => exact over_support hword member hm
  next => cases hm

include h

theorem NamedOver.declarations : ∀ x ∈ s.declarations, Over P x := by
  intro x hx
  rw [Schema.declarations, List.mem_append, List.mem_append, List.mem_flatMap] at hx
  rcases hx with (hx | hx) | ⟨d, hd, hx⟩
  · have hheader : ∀ x ∈ [versionType, versionValue],
        x.toList.all PropertyKey.isWordChar = true := by decide
    exact hword.over (hheader x hx)
  · split at hx
    next =>
      obtain rfl := List.mem_singleton.mp hx
      exact hword.over (by decide)
    next => cases hx
  · have hname := h.definition d hd
    have hlist : Over P d.listName := hname.append (hword.over (by decide))
    rw [Definition.declares] at hx
    split at hx
    next =>
      rcases List.mem_cons.mp hx with rfl | hx
      · exact hname
      · obtain rfl := List.mem_singleton.mp hx
        exact hlist
    next =>
      obtain rfl := List.mem_singleton.mp hx
      exact hname

variable (hplanned : s.Planned s.planned)

include hplanned

theorem Planned.over_listed {urn : String} {i : Import String}
    (hi : (urn, i) ∈ (importsOf s.members).queue) : Over P i.member := by
  have hkey := List.mem_map_of_mem (f := Imports.key) hi
  obtain ⟨u, hu, he⟩ := (Imports.mem_keys_recordAll _ _).mp hkey
  have hmember : u.member = i.member := congrArg Prod.snd he
  rw [← hmember]
  rw [requestsOf_members, hplanned.uses] at hu
  rcases hu with hu | hu
  · obtain ⟨member, hm, rfl⟩ := List.mem_map.mp hu
    exact over_library hword member hm
  · obtain ⟨r, hr, hru⟩ := List.mem_filterMap.mp hu
    rw [Reference.use?, Reference.request] at hru
    cases hs : r.scope with
    | none => rw [hs] at hru; cases hru
    | some scope =>
      rw [hs] at hru
      rw [← Option.some.inj hru]
      exact h.reference r hr

theorem Planned.over_import_spelling {urn : String} {i : Import String}
    (hi : (urn, i) ∈ (importsOf s.members).queue) :
    Over P ((importsOf s.members).spelling s.declarations urn i) := by
  have hidentifier := Imports.identifier_of_mem_queue hplanned.localName_eq_none hi
  refine Name.over_numbered hword ?_ _
  rw [hidentifier]
  exact hplanned.over_listed hword h hi

theorem Planned.over_imported (source : Source String) {member : String} (hm : Over P member) :
    Over P (s.spelling (.imported source member)) := by
  rw [spelling, Module.nameIn]
  split
  next i hi =>
    obtain rfl := Imports.member_of_find? hi
    exact hplanned.over_import_spelling hword h
      (((Imports.keyed_recordAll _).mem_queue _ i).mpr hi)
  next => exact hm

theorem Planned.spellsOver : SpellsOver P s.spelling s.declarations s.references where
  declared := h.declarations hword
  support member hm := hplanned.over_imported hword h supportLibrary (over_support hword member hm)
  references r hr := by
    rw [Reference.symbol]
    split
    next => exact h.reference r hr
    next scope _ => exact hplanned.over_imported hword h scope.source (h.reference r hr)

/-- So are the members that the clauses of the import block name, and their local names. -/
theorem Planned.over_clauses (engine : Engine) (packaging : Option Packaging) :
    ∀ statement ∈ s.statements engine packaging, ∀ c ∈ statement.clauses,
      Over P c.member ∧ Over P c.localName := by
  intro statement hs c hc
  obtain ⟨m, hm, rfl⟩ := List.mem_map.mp hs
  obtain ⟨i, hi, rfl⟩ := List.mem_map.mp hc
  have hq : (m.urn, i) ∈ (importsOf s.members).queue :=
    (Imports.mem_queue_iff_listed _ _).mpr ⟨m, hm, rfl, m.ranked_perm.mem_iff.mp hi⟩
  exact ⟨hplanned.over_listed hword h hq, hplanned.over_import_spelling hword h hq⟩

end

end Schema

end ApiTypes
