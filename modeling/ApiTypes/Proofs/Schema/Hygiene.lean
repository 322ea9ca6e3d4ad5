import ApiTypes.Proofs.Schema.Scope

/-! Identifiers that a module writes without registering them: `Array` and `Record` around
the types of items and values, and the parameters `K` and `S` of the base type. The names of
the module know nothing of them. A renamed spelling holds an underscore, so only a
registration that keeps its identifier can capture one, and the first of every group does
keep it: a module is hygienic exactly if none of its identifiers is a fixed one that its
types use, and the metadata type of the base is not spelled like a parameter. -/

namespace ApiTypes

open Names Traversal

mutual

/-- The kinds of a type and of the types inside it. -/
def TypeExpr.kinds : TypeExpr String → List Kind
  | .array items => .array :: items.kinds
  | .map values => .map :: values.kinds
  | .union variants => .union :: TypeExpr.allKinds variants
  | .optional value => .optional :: value.kinds
  | .object properties _ => .object :: Property.allKinds properties
  | .resource properties _ => .resource :: Property.allKinds properties
  | t => [t.kind]

def TypeExpr.allKinds : List (TypeExpr String) → List Kind
  | [] => []
  | t :: ts => t.kinds ++ TypeExpr.allKinds ts

def Property.kinds : Property String → List Kind
  | .mk _ value _ _ _ => value.kinds

def Property.allKinds : List (Property String) → List Kind
  | [] => []
  | p :: ps => p.kinds ++ Property.allKinds ps

end

/-- The type parameters of the base type. -/
def baseParameters : List String := ["K", "S"]

namespace Schema

variable (s : Schema String)

/-- The kinds of all types that the module of a schema shows. -/
def kinds : List Kind :=
  s.definitions.flatMap (·.value.kinds)

/-- No spelling of a module is one of its fixed identifiers where it would capture that
identifier or be captured by it. -/
structure Hygienic (engine : Engine) (packaging : Option Packaging) : Prop where
  array : Kind.array ∈ s.kinds →
    ∀ n ∈ (s.rendered engine packaging).names.entries, n.spelling ≠ some "Array"
  record : Kind.map ∈ s.kinds →
    ∀ n ∈ (s.rendered engine packaging).names.entries, n.spelling ≠ some "Record"
  parameters : ∀ r, s.metadata? = some r → ∀ symbol ∈ (Plan.base r).spelled,
    ∀ x ∈ baseParameters, (s.rendered engine packaging).spell symbol ≠ .ok x

/-- Whether a reference imports a member that stands behind a declaration of its name, or
behind an import of that name from an earlier source. -/
def isRenamed (r : Reference String) : Bool :=
  r.scope.any fun scope => r.name ∈ s.declarations ||
    s.importedPairs.any fun p => p.2 = r.name && p.1 < scope.source.identity

variable {s}

section

variable {m : Module String} (h : s.Planned s.planned)
  (hm : m.Settled s.declarations (importsOf s.members))

include h hm

/-- A text without underscores is a spelling of the module exactly if it is one of its
identifiers. -/
theorem Planned.exists_entry_iff {x : String} (hx : '_' ∉ x.toList) :
    (∃ n ∈ m.names.entries, n.spelling = some x) ↔ x ∈ s.identifiers := by
  rw [hm.names, Names.exists_spelling_iff _ hx]
  exact h.identifiers_perm.mem_iff

/-- An import is behind another of its name exactly if that comes from an earlier source. -/
theorem Planned.rank_pos_iff {urn : String} {i : Import String}
    (hi : (importsOf s.members).find? urn i.member = some i) :
    0 < (importsOf s.members).rank urn i ↔
      ∃ p ∈ s.importedPairs, p.2 = i.member ∧ p.1 < urn := by
  have hidentifier : ∀ e ∈ (importsOf s.members).queue, e.2.identifier = e.2.member := fun _ he =>
    Imports.identifier_of_mem_queue h.localName_eq_none he
  have hself := hidentifier _ ((hm.keyed.mem_queue urn i).mpr hi)
  rw [hm.keyed.rank_pos_iff hi]
  constructor
  · rintro ⟨e, he, hbefore, hname⟩
    rw [hidentifier e he, hself] at hname
    refine ⟨Imports.key e, h.queue_keys.mem_iff.mp (List.mem_map_of_mem he), hname, ?_⟩
    rcases hbefore with hlt | ⟨-, hlt⟩
    · exact hlt
    · exact absurd (hname ▸ hlt) (String.lt_irrefl _)
  · rintro ⟨p, hp, hname, hlt⟩
    obtain ⟨e, he, rfl⟩ := List.mem_map.mp (h.queue_keys.mem_iff.mpr hp)
    exact ⟨e, he, .inl hlt, by rw [hidentifier e he, hself]; exact hname⟩

/-- An imported member is spelled at the position of its import. -/
theorem Planned.spell_import {u : Use}
    (hu : u ∈ s.library.map libraryUse ∨ u ∈ s.references.filterMap Reference.use?) :
    ∃ k, m.spell (.imported u.source u.member) = .ok (Name.numbered u.member k) ∧
      (k = 0 ↔ u.member ∉ s.declarations ∧
        ¬∃ p ∈ s.importedPairs, p.2 = u.member ∧ p.1 < u.source.identity) := by
  rw [← h.uses, ← requestsOf_members] at hu
  obtain ⟨i, hi⟩ := Imports.exists_find?_of_mem hu
  have hmember := Imports.member_of_find? hi
  rw [← hmember] at hi ⊢
  have hidentifier := Imports.identifier_of_mem_queue h.localName_eq_none
    ((hm.keyed.mem_queue u.source.identity i).mpr hi)
  refine ⟨s.declarations.count i.member + (importsOf s.members).rank u.source.identity i, ?_, ?_⟩
  · rw [hm.spell_eq, Module.spellIn]
    have hfound : (importsOf s.members).find? u.source.identity i.member = some i := hi
    rw [hfound]
    show Except.ok (Name.numbered i.identifier (s.declarations.count i.identifier + _)) = _
    rw [show i.identifier = i.member from hidentifier]
  · rw [← h.rank_pos_iff hm hi, Nat.add_eq_zero_iff, List.count_eq_zero, Nat.not_lt,
      Nat.le_zero_eq]

/-- The names of the support library never stand for a parameter. -/
theorem Planned.spell_support_ne {member x : String} (hmember : member ∈ s.library)
    (hx : '_' ∉ x.toList) (hne : member ≠ x) : m.spell (supportSymbol member) ≠ .ok x := by
  obtain ⟨k, hk, -⟩ := h.spell_import hm (.inl (List.mem_map_of_mem (f := libraryUse) hmember))
  intro he
  have hspelled := Except.ok.inj (hk.symm.trans he)
  exact hne ((Name.numbered_eq_iff hx k).mp hspelled).2

/-- A reference is spelled like a text without underscores exactly if that is its name and
it keeps it. -/
theorem Planned.spell_reference_iff (hlocal : s.localNames ⊆ s.declarations)
    {r : Reference String} (hr : r ∈ s.references) {x : String} (hx : '_' ∉ x.toList) :
    m.spell r.symbol = .ok x ↔ r.name = x ∧ s.isRenamed r = false := by
  cases hs : r.scope with
  | none =>
    have hname : r.localName? = some r.name := by rw [Reference.localName?, hs]
    have hdeclared : r.name ∈ s.declarations := hlocal (List.mem_filterMap.mpr ⟨r, hr, hname⟩)
    rw [Reference.symbol_of_localName? hname, hm.spell_declared hdeclared, isRenamed, hs]
    simp
  | some scope =>
    have huse : (⟨scope.source, r.name, none, true⟩ : Use) ∈ s.references.filterMap Reference.use? := by
      refine List.mem_filterMap.mpr ⟨r, hr, ?_⟩
      rw [Reference.use?, Reference.request, hs]
      rfl
    obtain ⟨k, hk, hzero⟩ := h.spell_import hm (.inr huse)
    have hsymbol : r.symbol = .imported scope.source r.name := by rw [Reference.symbol, hs]
    have hkeeps : k = 0 ↔ s.isRenamed r = false := by
      have hdecide : s.isRenamed r = true ↔ r.name ∈ s.declarations ∨
          ∃ p ∈ s.importedPairs, p.2 = r.name ∧ p.1 < scope.source.identity := by
        simp only [isRenamed, hs, Option.any_some, Bool.or_eq_true, decide_eq_true_eq,
          List.any_eq_true, Bool.and_eq_true]
      rw [← Bool.not_eq_true, hdecide, not_or]
      exact hzero
    rw [hsymbol, hk, Except.ok.injEq, Name.numbered_eq_iff hx, hkeeps, and_comm]

theorem Planned.parameters_iff (hlocal : s.localNames ⊆ s.declarations) {r : Reference String}
    (hr : s.metadata? = some r) :
    (∀ symbol ∈ (Plan.base r).spelled, ∀ x ∈ baseParameters, m.spell symbol ≠ .ok x) ↔
      (r.name ∈ baseParameters → s.isRenamed r = true) := by
  have hbare : ∀ x ∈ baseParameters, '_' ∉ x.toList := by decide
  have hresource : s.resource?.isSome = true := by rw [← h.metadata, hr]; rfl
  have hreference : r ∈ s.references := by simp [references, hr]
  have hfixed : ∀ x ∈ baseParameters, ∀ name ∈ [versionType, resourceBase, "Resource", "NameScope"],
      name ≠ x := by decide
  have hown : ∀ name ∈ [versionType, resourceBase], name ∈ s.declarations := by
    simp [declarations, hresource]
  have hlibrary : ∀ name ∈ ["Resource", "NameScope"], name ∈ s.library := by
    simp [library, hresource]
  constructor
  · intro hfree hname
    by_contra hrenamed
    have hspelled := (h.spell_reference_iff hm hlocal hreference (hbare _ hname)).mpr
      ⟨rfl, by simpa using hrenamed⟩
    exact hfree r.symbol (by simp [Plan.base, Plan.spelled]) _ hname hspelled
  · intro hrenamed symbol hsymbol x hx he
    have hcases : symbol = r.symbol ∨ (∃ name ∈ [versionType, resourceBase], symbol = .declared name) ∨
        ∃ name ∈ ["Resource", "NameScope"], symbol = supportSymbol name := by
      simp [Plan.base, Plan.spelled, ownSymbol, Label.ofText] at hsymbol ⊢
      tauto
    rcases hcases with rfl | ⟨name, hname, rfl⟩ | ⟨name, hname, rfl⟩
    · obtain ⟨rfl, hkept⟩ := (h.spell_reference_iff hm hlocal hreference (hbare x hx)).mp he
      rw [hrenamed hx] at hkept
      cases hkept
    · rw [hm.spell_declared (hown name hname)] at he
      exact hfixed x hx name (by simp at hname ⊢; tauto) (Except.ok.inj he)
    · exact h.spell_support_ne hm (hlibrary name hname) (hbare x hx)
        (hfixed x hx name (by simp at hname ⊢; tauto)) he

end

theorem Planned.hygienic_of_settled (h : s.Planned s.planned) {engine : Engine}
    {packaging : Option Packaging}
    (hm : (s.rendered engine packaging).Settled s.declarations (importsOf s.members))
    (hlocal : s.localNames ⊆ s.declarations) :
    s.Hygienic engine packaging ↔
      (Kind.array ∈ s.kinds → "Array" ∉ s.identifiers) ∧
      (Kind.map ∈ s.kinds → "Record" ∉ s.identifiers) ∧
      ∀ r, s.metadata? = some r → r.name ∈ baseParameters → s.isRenamed r = true := by
  -- a text without underscores is free exactly if no registration has it as identifier
  have hfree : ∀ x : String, '_' ∉ x.toList →
      ((∀ n ∈ (s.rendered engine packaging).names.entries, n.spelling ≠ some x) ↔
        x ∉ s.identifiers) := by
    intro x hx
    rw [← h.exists_entry_iff hm hx]
    simp
  have harray := hfree "Array" (by decide)
  have hrecord := hfree "Record" (by decide)
  constructor
  · intro hygienic
    refine ⟨fun hk => harray.mp (hygienic.array hk), fun hk => hrecord.mp (hygienic.record hk), ?_⟩
    intro r hr
    exact (h.parameters_iff hm hlocal hr).mp (hygienic.parameters r hr)
  · rintro ⟨ha, hr, hp⟩
    exact {
      array := fun hk => harray.mpr (ha hk)
      record := fun hk => hrecord.mpr (hr hk)
      parameters := fun r hmeta => (h.parameters_iff hm hlocal hmeta).mpr (hp r hmeta) }

/-- A generated module is hygienic exactly if the names that it registers avoid the type
constructors that it uses, and the metadata type of its base is not called like a parameter
of the base, or is renamed. -/
theorem hygienic_iff {engine : Engine} {packaging : Option Packaging} {text : String}
    (h : (s.generate engine packaging).result = .ok text) :
    s.Hygienic engine packaging ↔
      (Kind.array ∈ s.kinds → "Array" ∉ s.identifiers) ∧
      (Kind.map ∈ s.kinds → "Record" ∉ s.identifiers) ∧
      ∀ r, s.metadata? = some r → r.name ∈ baseParameters → s.isRenamed r = true := by
  obtain ⟨hplanned, hm⟩ := settled_rendered h
  exact hplanned.hygienic_of_settled hm (localNames_subset h)

/-- Arrays, maps, and a resource over a metadata type `K` that is imported while another `K` is
declared. -/
def sheltered : Schema String :=
  { group := { name := some "apps", directory := some "apps" }, version := "v1"
    definitions := [{ name := "K", value := .integer },
      { name := "Grid", value := .array (.map (memberOf "core" "Cell")) },
      { name := "Gadget", value :=
          .resource [.mk "metadata" (memberOf "meta" "K") true none false] defaultScope }] }

/-- The metadata of the base type is spelled `K_`, which is no parameter of it. -/
theorem hygienic_iff_sheltered :
    ∃ text, (sheltered.generate .deno none).result = .ok text ∧ sheltered.Hygienic .deno none ∧
      (Kind.array ∈ sheltered.kinds ∧ Kind.map ∈ sheltered.kinds) ∧
        ∃ r, sheltered.metadata? = some r ∧ r.name ∈ baseParameters := by
  obtain ⟨text, h⟩ := (exists_text_iff .deno none (s := sheltered)).mpr (by decide)
  refine ⟨text, h, (hygienic_iff h).mpr ⟨by decide, by decide, ?_⟩, by decide, _, rfl, by decide⟩
  intro r hr _
  obtain rfl := Option.some.inj hr
  decide

/-- The same shapes over an imported `Array`, an imported `Record` and an imported `K`. -/
def capturing : Schema String :=
  { group := { name := some "apps", directory := some "apps" }, version := "v1"
    definitions := [{ name := "Grid", value := .array (memberOf "core" "Array") },
      { name := "Table", value := .map (memberOf "core" "Record") },
      { name := "Gadget", value :=
          .resource [.mk "metadata" (memberOf "meta" "K") true none false] defaultScope }] }

/-- Each of the three parts fails: the items of `Array<Array>`, the values of
`Record<string, Record>` and the metadata `K` of a base over `K`. -/
theorem capturing_not_hygienic :
    ∃ text, (capturing.generate .deno none).result = .ok text ∧
      (∃ n ∈ (capturing.rendered .deno none).names.entries, n.spelling = some "Array") ∧
      (∃ n ∈ (capturing.rendered .deno none).names.entries, n.spelling = some "Record") ∧
      (∃ r, capturing.metadata? = some r ∧
        (capturing.rendered .deno none).spell r.symbol = .ok "K") ∧
      ¬capturing.Hygienic .deno none := by
  obtain ⟨text, h⟩ := (exists_text_iff .deno none (s := capturing)).mpr (by decide)
  obtain ⟨hplanned, hm⟩ := settled_rendered h
  have hentry := fun x hx => (hplanned.exists_entry_iff hm (x := x) hx).mpr
  refine ⟨text, h, hentry _ (by decide) (by decide), hentry _ (by decide) (by decide),
    ⟨_, rfl, ?_⟩, fun hygienic => ?_⟩
  · exact (hplanned.spell_reference_iff hm (localNames_subset h) List.mem_cons_self (by decide)).mpr
      ⟨rfl, by decide⟩
  · have hfree := (hplanned.hygienic_of_settled hm (localNames_subset h)).mp hygienic
    exact hfree.1 (by decide) (by decide)

end Schema

end ApiTypes
