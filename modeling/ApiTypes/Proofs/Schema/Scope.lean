import ApiTypes.Proofs.Schema.Spellings

/-! When a module is closed. A member's text may use what an import clause brings in and
what a statement declares. The names of a module count a re-exported definition as
declared, but its statement declares nothing, so a generated module is closed exactly if
no local reference goes to a re-export, unless an import happens to be spelled like it. -/

namespace ApiTypes

open Names Traversal

namespace Module

/-- The names that the import clauses of a module bring in. -/
def localNames (m : Module String) : List String :=
  m.imports.modules.flatMap fun k => k.imports.filterMap fun i => (i.token m.names).toOption

variable {declared : List String} {t : Imports String} {m : Module String}

theorem Settled.mem_localNames (h : m.Settled declared t) (x : String) :
    x ∈ m.localNames ↔ ∃ e ∈ t.queue, t.spelling declared e.1 e.2 = x := by
  rw [localNames, List.mem_flatMap]
  constructor
  · rintro ⟨k, hk, hx⟩
    obtain ⟨i, hi, ht⟩ := List.mem_filterMap.mp hx
    rw [h.token_of_mem hk hi] at ht
    rw [h.modules_eq] at hk
    obtain ⟨k₀, hk₀, rfl⟩ := List.mem_map.mp hk
    obtain ⟨i₀, hi₀, rfl⟩ := List.mem_map.mp hi
    refine ⟨(k₀.urn, i₀), (t.mem_queue_iff_listed _).mpr ⟨k₀, hk₀, rfl, hi₀⟩, ?_⟩
    rw [← Option.some.inj ht, Imports.spelling_named]
  · rintro ⟨⟨urn, i⟩, he, rfl⟩
    obtain ⟨k, hk, rfl, hi⟩ := (t.mem_queue_iff_listed _).mp he
    have hk' := List.mem_map_of_mem (f := fun k : ImportedModule String =>
      { k with imports := k.imports.map (Imports.named t.queue declared.length k.urn) }) hk
    rw [← h.modules_eq] at hk'
    have hi' := List.mem_map_of_mem (f := Imports.named t.queue declared.length k.urn) hi
    refine ⟨_, hk', List.mem_filterMap.mpr ⟨_, hi', ?_⟩⟩
    rw [h.token_of_mem hk' hi', Imports.spelling_named]
    rfl

/-- The spellings of imports are those of the positions behind the declarations. -/
theorem Settled.exists_spelling_iff (h : m.Settled declared t) (x : String) :
    (∃ e ∈ t.queue, t.spelling declared e.1 e.2 = x) ↔
      ∃ y k, declared.count y ≤ k ∧
        k < ((registrations declared t).map (·.identifier)).count y ∧ x = Name.numbered y k := by
  constructor
  · rintro ⟨⟨urn, i⟩, he, rfl⟩
    have hq := h.keyed.queue_place ((h.keyed.mem_queue urn i).mp he)
    have hp := position_import declared t (t.place urn i.member) (urn, i)
    refine ⟨i.identifier, declared.count i.identifier + t.rank urn i, by omega, ?_, rfl⟩
    rw [count_identifiers]
    exact (exists_position_iff _ _ _).mp
      ⟨_, _, getElem?_registrations_import declared t hq, rfl, hp⟩
  · rintro ⟨y, k, hle, hlt, rfl⟩
    rw [count_identifiers] at hlt
    obtain ⟨s, n, hs, rfl, rfl⟩ := (exists_position_iff _ _ _).mpr hlt
    by_cases hd : s < declared.length
    · -- a declaration stands at the first position, which is no import
      have hj := List.getElem?_eq_getElem hd
      have hn := getElem?_registrations_declared declared t hj
      obtain rfl := Option.some.inj (hs.symm.trans hn)
      rw [position_declared declared t h.nodup hj] at hle
      exact absurd hle (Nat.not_le.mpr (List.count_pos_iff.mpr (List.getElem_mem hd)))
    · obtain ⟨j, rfl⟩ := Nat.exists_eq_add_of_le (Nat.le_of_not_lt hd)
      rw [registrations, List.getElem?_append_right (by simp), List.length_map,
        Nat.add_sub_cancel_left, List.getElem?_map, Option.map_eq_some_iff] at hs
      obtain ⟨⟨urn, i⟩, hj, rfl⟩ := hs
      refine ⟨(urn, i), List.mem_of_getElem? hj, ?_⟩
      have hplace := h.keyed.place_eq hj
      rw [position_import, Imports.spelling, Imports.rank, hplace]
      rfl

/-- An import that is in the table brings its spelling in. -/
theorem Settled.spell_imported (h : m.Settled declared t) {source : Source String}
    {member : String} {i : Import String} (hi : t.find? source.identity member = some i) :
    ∃ x, m.spell (.imported source member) = .ok x ∧ x ∈ m.localNames := by
  have hx := h.spell_eq
  refine ⟨t.spelling declared source.identity i, by rw [hx, spellIn, hi], ?_⟩
  obtain rfl := Imports.member_of_find? hi
  exact (h.mem_localNames _).mpr ⟨_, (h.keyed.mem_queue source.identity i).mpr hi, rfl⟩

theorem Settled.spell_declared (h : m.Settled declared t) {x : String} (hx : x ∈ declared) :
    m.spell (.declared x) = .ok x := by
  rw [h.spell_eq, spellIn, if_pos hx]

end Module

namespace Schema

variable (s : Schema String)

/-- Every spelling that a text of the module uses is brought in by an import clause or
declared by a statement. -/
def ScopeClosed (engine : Engine) (packaging : Option Packaging) : Prop :=
  let m := s.rendered engine packaging
  ∀ symbol ∈ s.planned.flatMap Plan.spelled, ∃ x, m.spell symbol = .ok x ∧
    (x ∈ m.localNames ∨ ∃ own ∈ s.planned.flatMap Plan.introduced, m.spell own = .ok x)

variable {s}

section

variable {m : Module String} (h : s.Planned s.planned)
  (hm : m.Settled s.declarations (importsOf s.members))

include h hm

theorem Planned.spell_used {u : Use}
    (hu : u ∈ s.library.map libraryUse ∨ u ∈ s.references.filterMap Reference.use?) :
    ∃ x, m.spell (.imported u.source u.member) = .ok x ∧ x ∈ m.localNames := by
  rw [← h.uses, ← requestsOf_members] at hu
  obtain ⟨i, hi⟩ := Imports.exists_find?_of_mem hu
  exact hm.spell_imported hi

/-- A statement of the module declares a name exactly if it is introduced. -/
theorem Planned.introduced_iff {x : String} :
    (∃ own ∈ s.planned.flatMap Plan.introduced, m.spell own = .ok x) ↔ x ∈ s.introductions := by
  have hspell : ∀ y ∈ s.introductions, m.spell (.declared y) = .ok y := fun y hy =>
    hm.spell_declared (introductions_subset h.metadata hy)
  rw [h.introduced]
  constructor
  · rintro ⟨own, hown, hx⟩
    obtain ⟨y, hy, rfl⟩ := List.mem_map.mp hown
    rw [hspell y hy] at hx
    rwa [← Except.ok.inj hx]
  · intro hx
    exact ⟨_, List.mem_map_of_mem hx, hspell x hx⟩

/-- Only a local reference to a re-export may be out of scope. -/
theorem Planned.spelled_cases (hlocal : s.localNames ⊆ s.declarations) {symbol : Symbol String}
    (hsymbol : symbol ∈ s.planned.flatMap Plan.spelled) :
    (∃ x, m.spell symbol = .ok x ∧ (x ∈ m.localNames ∨ x ∈ s.introductions)) ∨
      ∃ x ∈ s.localNames, x ∈ s.reexports ∧ symbol = .declared x := by
  rcases h.spelled symbol hsymbol with hs | hs | hs
  · obtain ⟨x, hx, rfl⟩ := List.mem_map.mp hs
    exact .inl ⟨x, hm.spell_declared (introductions_subset h.metadata hx), .inr hx⟩
  · obtain ⟨member, hmember, rfl⟩ := List.mem_map.mp hs
    obtain ⟨x, hx, hin⟩ := h.spell_used hm (.inl (List.mem_map_of_mem hmember))
    exact .inl ⟨x, hx, .inl hin⟩
  · obtain ⟨r, hr, rfl⟩ := List.mem_map.mp hs
    cases hl : r.localName? with
    | none =>
      obtain ⟨u, hu, hs⟩ := Reference.exists_use_of_localName? hl
      obtain ⟨x, hx, hin⟩ := h.spell_used hm (.inr (List.mem_filterMap.mpr ⟨r, hr, hu⟩))
      exact .inl ⟨x, hs ▸ hx, .inl hin⟩
    | some x =>
      have hx : x ∈ s.localNames := List.mem_filterMap.mpr ⟨r, hr, hl⟩
      rw [Reference.symbol_of_localName? hl]
      rcases mem_introductions_or_reexports h.metadata (hlocal hx) with hi | hr
      · exact .inl ⟨x, hm.spell_declared (hlocal hx), .inr hi⟩
      · exact .inr ⟨x, hx, hr, rfl⟩

/-- The import clauses bring in the positions behind the declarations of each group. -/
theorem Planned.mem_localNames_iff (x : String) :
    x ∈ m.localNames ↔
      ∃ y k, s.declarations.count y ≤ k ∧ k < s.identifiers.count y ∧ x = Name.numbered y k := by
  rw [hm.mem_localNames, hm.exists_spelling_iff]
  simp only [h.identifiers_perm.count_eq]

end

theorem Planned.closed_iff_of_settled (h : s.Planned s.planned) {engine : Engine}
    {packaging : Option Packaging}
    (hm : (s.rendered engine packaging).Settled s.declarations (importsOf s.members))
    (hlocal : s.localNames ⊆ s.declarations) :
    s.ScopeClosed engine packaging ↔
      ∀ x ∈ s.localNames, x ∈ s.reexports →
        ∃ y k, s.declarations.count y ≤ k ∧ k < s.identifiers.count y ∧ x = Name.numbered y k := by
  simp only [ScopeClosed, h.introduced_iff hm, ← h.mem_localNames_iff hm]
  constructor
  · intro hclosed x hx hr
    obtain ⟨r, hmem, hl⟩ := List.mem_filterMap.mp hx
    have hs := Reference.symbol_of_localName? hl
    obtain ⟨y, hy, hin⟩ := hclosed r.symbol (h.shown (List.mem_map_of_mem hmem))
    rw [hs, hm.spell_declared (hlocal hx)] at hy
    obtain rfl := Except.ok.inj hy
    exact hin.resolve_right (notMem_introductions_of_reexports h.metadata hm.nodup hr)
  · intro hreexports symbol hsymbol
    rcases h.spelled_cases hm hlocal hsymbol with hin | ⟨x, hx, hr, rfl⟩
    · exact hin
    · exact ⟨x, hm.spell_declared (hlocal hx), .inl (hreexports x hx hr)⟩

/-- A generated module is closed exactly if no local reference goes to a re-export that
no import happens to be spelled like. -/
theorem scopeClosed_iff {engine : Engine} {packaging : Option Packaging} {text : String}
    (h : (s.generate engine packaging).result = .ok text) :
    s.ScopeClosed engine packaging ↔
      ∀ x ∈ s.localNames, x ∈ s.reexports →
        ∃ y k, s.declarations.count y ≤ k ∧ k < s.identifiers.count y ∧ x = Name.numbered y k := by
  obtain ⟨hplanned, hm⟩ := settled_rendered h
  exact hplanned.closed_iff_of_settled hm (localNames_subset h)

/-- A schema that re-exports the `Meta` of another module and refers to it. -/
def forwarding : Schema String :=
  { group := { name := some "apps", directory := some "apps" }, version := "v1"
    definitions := [{ name := "Meta", value := .reference { name := "Meta", scope := some {
          group := { directory := some "core" }, version := "v1" } } },
      { name := "List", value := .array (.reference { name := "Meta" }) }] }

theorem scopeClosed_iff_forwarding :
    ∃ text, (forwarding.generate .deno none).result = .ok text ∧
      (forwarding.ScopeClosed .deno none ↔
        ∀ x ∈ forwarding.localNames, x ∈ forwarding.reexports →
          ∃ y k, forwarding.declarations.count y ≤ k ∧ k < forwarding.identifiers.count y ∧
            x = Name.numbered y k) := by
  obtain ⟨text, h⟩ := (exists_text_iff .deno none (s := forwarding)).mpr (by decide)
  exact ⟨text, h, scopeClosed_iff h⟩

/-- The list uses `Meta`, which no statement declares and no import brings in. -/
theorem forwarding_not_scopeClosed :
    ∃ text, (forwarding.generate .deno none).result = .ok text ∧
      ¬forwarding.ScopeClosed .deno none := by
  obtain ⟨text, h⟩ := (exists_text_iff .deno none (s := forwarding)).mpr (by decide)
  obtain ⟨hplanned, hm⟩ := settled_rendered h
  refine ⟨text, h, fun hclosed => ?_⟩
  rw [hplanned.closed_iff_of_settled hm (localNames_subset h)] at hclosed
  obtain ⟨y, k, hle, hlt, hx⟩ := hclosed "Meta" (by decide) (by decide)
  have hnone : ∀ y ∈ forwarding.identifiers, ∀ k < forwarding.identifiers.count y,
      forwarding.declarations.count y ≤ k → "Meta" ≠ Name.numbered y k := by decide
  exact hnone y (List.count_pos_iff.mp (by omega)) k hlt hle hx

end Schema

end ApiTypes
