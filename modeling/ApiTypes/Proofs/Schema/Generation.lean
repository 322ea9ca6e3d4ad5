import ApiTypes.Proofs.Module.Outcome
import ApiTypes.Proofs.Schema.Plans

/-! The outcome of a generation. A well-typed schema is refused for its first fault, then
for its first repeated declaration, and then for the first local reference that names no
declaration; every other schema is generated. Nothing else can stop a generation, since
every symbol that a plan reads has been requested. -/

namespace ApiTypes

open Op Traversal

/-- The name of a reference to a type of this module. -/
def Reference.localName? (r : Reference String) : Option String :=
  match r.scope with
  | none => some r.name
  | some _ => none

theorem Reference.symbol_of_localName? {r : Reference String} {x : String}
    (h : r.localName? = some x) : r.symbol = .declared x := by
  rw [localName?] at h
  rw [symbol]
  split at h
  next hscope => rw [hscope, Option.some.inj h]
  next => cases h

/-- Every other reference uses what it stands for. -/
theorem Reference.exists_use_of_localName? {r : Reference String} (h : r.localName? = none) :
    ∃ u, r.use? = some u ∧ r.symbol = .imported u.source u.member := by
  rw [localName?] at h
  rw [use?, request, symbol]
  split at h
  next => cases h
  next hscope => rw [hscope]; exact ⟨_, rfl, rfl⟩

namespace Schema

variable (s : Schema String) (engine : Engine) (packaging : Option Packaging)

/-- The names that a schema refers to in its own module, in order. -/
def localNames : List String :=
  s.references.filterMap Reference.localName?

/-- The context that a schema is generated in. -/
def context : Context String :=
  { apiVersion := s.apiVersion, dependencies := Context.tableOf s.dependencies
    modulePath := s.modulePath, engine, packaging := packaging.getD engine.defaultPackaging }

/-- The plans of a schema; one at fault has none. -/
def planned : List (Plan String) :=
  match s.plans with
  | .ok ps => ps
  | .error _ => []

def members : List (Member String) :=
  s.planned.map Plan.toMember

/-- The module of a schema as its rendering leaves it. -/
def rendered : Module String :=
  (exec (Module.render (s.context engine packaging))
    (moduleOf (Label.ofText s.modulePath) s.planned)).2

theorem ofSchema_eq :
    Context.ofSchema s (Label.ofText s.modulePath) engine packaging =
      .ok (s.context engine packaging) := by
  have hkeys : ∀ ds : List (Dependency String),
      (ds.forM fun d => Label.requireKey d.package : Except Error PUnit) = .ok ⟨⟩ := by
    intro ds
    induction ds with
    | nil => rfl
    | cons d rest ih => exact ih
  rw [Context.ofSchema, hkeys]
  rfl

theorem moduleOf_eq :
    moduleOf (Label.ofText s.modulePath) s.planned = Module.ofMembers s.modulePath s.members := rfl

theorem requestsOf_members : requestsOf s.members = s.planned.flatMap (·.requests) := by
  rw [requestsOf, members, List.flatMap_map]
  simp only [Plan.requests_toMember]

variable {s}

theorem planned_of_fault?_eq_none (h : s.fault? = none) :
    s.plans = .ok s.planned ∧ s.Planned s.planned := by
  have hy := s.planned_yields
  rw [h] at hy
  obtain ⟨ps, hps, hp⟩ := hy
  have he : s.planned = ps := by rw [planned, hps]
  rw [he]
  exact ⟨hps, hp⟩

theorem Planned.plain_members (h : s.Planned s.planned) : ∀ m ∈ s.members, m.IsPlain := by
  intro m hm
  obtain ⟨p, hp, rfl⟩ := List.mem_map.mp hm
  exact Plan.plain_toMember (h.plain p hp)

theorem Planned.declarationsOf_members (h : s.Planned s.planned) :
    declarationsOf s.members = s.declarations := by
  rw [declarationsOf, requestsOf_members, h.declared]

/-! ### Spellings of what is read -/

theorem missing?_used {us : List Use} {u : Use} (h : u ∈ us) (declared : List String) :
    missing? (Module.spellIn declared (Imports.recordAll {} us)) (.imported u.source u.member) =
      none := by
  obtain ⟨i, hi⟩ := Imports.exists_find?_of_mem h
  simp only [missing?, Module.spellIn, hi]

theorem missing?_declared (declared : List String) (t : Imports String) (x : String) :
    missing? (Module.spellIn declared t) (.declared x) =
      if x ∈ declared then none else some (.ofDefect (.undeclaredName (.text x))) := by
  by_cases hx : x ∈ declared <;> simp [missing?, Module.spellIn, hx]

/-- Among references whose imports are used, the first without a spelling is the first
local one that names no declaration. -/
theorem findSome?_references {declared : List String} {t : Imports String}
    {rs : List (Reference String)}
    (h : ∀ r ∈ rs, r.localName? = none → missing? (Module.spellIn declared t) r.symbol = none) :
    (rs.map Reference.symbol).findSome? (missing? (Module.spellIn declared t)) =
      ((rs.filterMap Reference.localName?).find? fun x => x ∉ declared).map fun x =>
        .ofDefect (.undeclaredName (.text x)) := by
  induction rs with
  | nil => rfl
  | cons r rest ih =>
    rw [List.forall_mem_cons] at h
    rw [List.map_cons, List.findSome?_cons, ih h.2]
    cases hl : r.localName? with
    | none =>
      rw [h.1 hl, List.filterMap_cons_none hl]
    | some x =>
      rw [Reference.symbol_of_localName? hl, missing?_declared, List.filterMap_cons_some hl,
        List.find?_cons]
      by_cases hx : x ∈ declared
      · simp [hx]
      · simp [hx]

theorem Planned.missing_eq (h : s.Planned s.planned) :
    (s.planned.flatMap Plan.symbols).findSome? (missing? (Module.spellOf s.members)) =
      (s.localNames.find? fun x => x ∉ s.declarations).map fun x =>
        .ofDefect (.undeclaredName (.text x)) := by
  have huses := h.uses
  rw [← requestsOf_members] at huses
  have hlibrary : ∀ member ∈ s.library,
      missing? (Module.spellOf s.members) (supportSymbol member) = none := by
    intro member hm
    have hu := (huses (libraryUse member)).mpr (.inl (List.mem_map_of_mem hm))
    exact missing?_used hu _
  have hscoped : ∀ r ∈ s.references, r.localName? = none →
      missing? (Module.spellOf s.members) r.symbol = none := by
    intro r hr hl
    obtain ⟨u, hu, hs⟩ := Reference.exists_use_of_localName? hl
    rw [hs]
    exact missing?_used ((huses u).mpr (.inr (List.mem_filterMap.mpr ⟨r, hr, hu⟩))) _
  have hdeclared : ∀ x ∈ s.declarations,
      missing? (Module.spellOf s.members) (.declared x) = none := by
    intro x hx
    rw [Module.spellOf, h.declarationsOf_members, missing?_declared, if_pos hx]
  rw [h.symbols _ hdeclared hlibrary, Module.spellOf, h.declarationsOf_members]
  rw [Module.spellOf, h.declarationsOf_members] at hscoped
  exact findSome?_references hscoped

/-! ### The outcome -/

/-- A fault of the plans stops a generation before its module is rendered. -/
theorem generate_of_fault {e : Error} (h : s.fault? = some e) :
    s.generate engine packaging = { result := .error e } := by
  have hy := s.planned_yields
  rw [h] at hy
  have hp : s.plans = .error e := hy
  rw [generate, hp]

theorem generate_eq (h : s.fault? = none) :
    (s.generate engine packaging).result =
      (Module.outcome (s.context engine packaging) s.members).map Module.joinFragments := by
  obtain ⟨hplans, hplanned⟩ := planned_of_fault?_eq_none h
  have hr : (s.generate engine packaging).result =
      (exec (Module.render (s.context engine packaging))
        (Module.ofMembers s.modulePath s.members)).1 := by
    rw [generate, hplans]
    simp only [ofSchema_eq]
    rfl
  rw [hr, Module.exec_render, Module.exec_fragments _ _ hplanned.plain_members]

theorem Planned.texts_yield (h : s.Planned s.planned) :
    Yields ((s.localNames.find? fun x => x ∉ s.declarations).map fun x =>
        .ofDefect (.undeclaredName (.text x)))
      (fun _ => True)
      (s.members.mapM (Member.text (s.context engine packaging) (Module.spellOf s.members))) := by
  have hf : Follows (Module.spellOf s.members) (s.planned.flatMap Plan.symbols)
      (s.planned.mapM (Plan.render (s.context engine packaging) (Module.spellOf s.members))) :=
    follows_mapM fun p hp => Plan.follows_render _ (h.total p hp)
  rw [Follows, h.missing_eq] at hf
  rw [members, List.mapM_map]
  simp only [Function.comp_def, Plan.text_toMember]
  exact hf

/-- What stops the generation of a schema, if anything does. -/
def failure? (s : Schema String) : Option Error :=
  s.fault?.or
    (((firstRepeated? [] s.declarations).map fun x => .ofCause (.duplicateDeclaration (.text x))).or
      ((s.localNames.find? fun x => x ∉ s.declarations).map fun x =>
        .ofDefect (.undeclaredName (.text x))))

theorem generate_yields :
    Yields s.failure? (fun _ => True) (s.generate engine packaging).result := by
  rw [failure?]
  cases hf : s.fault? with
  | some e => rw [generate_of_fault engine packaging hf]; rfl
  | none =>
    obtain ⟨-, hplanned⟩ := planned_of_fault?_eq_none hf
    have htexts := hplanned.texts_yield engine packaging
    rw [generate_eq engine packaging hf, Module.outcome, hplanned.declarationsOf_members]
    cases hd : firstRepeated? [] s.declarations with
    | some x => rfl
    | none =>
      simp only [Option.none_or, Option.map_none]
      cases hx : s.localNames.find? fun x => x ∉ s.declarations with
      | some x =>
        rw [hx] at htexts
        have he : s.members.mapM _ = Except.error _ := htexts
        rw [he]
        rfl
      | none =>
        rw [hx] at htexts
        obtain ⟨texts, ht, -⟩ := htexts
        rw [ht]
        exact yields_ok trivial

/-- A schema is generated exactly if nothing stops it. -/
theorem exists_text_iff :
    (∃ text, (s.generate engine packaging).result = .ok text) ↔ s.failure? = none := by
  have hy := generate_yields (s := s) engine packaging
  cases hf : s.failure? with
  | some e =>
    rw [hf] at hy
    have he : (s.generate engine packaging).result = .error e := hy
    simp [he]
  | none =>
    rw [hf] at hy
    obtain ⟨text, ht, -⟩ := hy
    simp [ht]

/-- The exact outcome of a generation. A fault of the plans comes first and leaves no trace
of a rendering, then a repeated declaration, then a local reference to no declaration; a
schema with none of them has a text. -/
theorem generate_outcome (s : Schema String) (engine : Engine) (packaging : Option Packaging) :
    match s.fault? with
    | some e => s.generate engine packaging = { result := .error e }
    | none =>
      match firstRepeated? [] s.declarations with
      | some x => 1 < s.declarations.count x ∧
          (s.generate engine packaging).result =
            .error (.ofCause (.duplicateDeclaration (.text x)))
      | none => s.declarations.Nodup ∧
        match s.localNames.find? fun x => x ∉ s.declarations with
        | some x => x ∈ s.localNames ∧ x ∉ s.declarations ∧
            (s.generate engine packaging).result = .error (.ofDefect (.undeclaredName (.text x)))
        | none => s.localNames ⊆ s.declarations ∧
            ∃ text, (s.generate engine packaging).result = .ok text := by
  have hy := generate_yields (s := s) engine packaging
  rw [failure?] at hy
  cases hf : s.fault? with
  | some e => exact generate_of_fault engine packaging hf
  | none =>
    rw [hf, Option.none_or] at hy
    cases hd : firstRepeated? [] s.declarations with
    | some x =>
      rw [hd] at hy
      have hcount : 1 < ([] ++ s.declarations).count x := count_of_firstRepeated? hd
      exact ⟨hcount, hy⟩
    | none =>
      rw [hd, Option.map_none, Option.none_or] at hy
      refine ⟨(firstRepeated?_eq_none_iff List.nodup_nil _).mp hd, ?_⟩
      cases hx : s.localNames.find? fun x => x ∉ s.declarations with
      | some x =>
        rw [hx] at hy
        exact ⟨List.mem_of_find?_eq_some hx, by simpa using List.find?_some hx, hy⟩
      | none =>
        rw [hx] at hy
        obtain ⟨text, ht, -⟩ := hy
        refine ⟨fun x hm => ?_, text, ht⟩
        simpa using List.find?_eq_none.mp hx x hm

section

variable {engine : Engine} {packaging : Option Packaging} {text : String}
  (h : (s.generate engine packaging).result = .ok text)

include h

theorem conditions_of_ok :
    s.fault? = none ∧ firstRepeated? [] s.declarations = none ∧
      s.localNames.find? (fun x => x ∉ s.declarations) = none := by
  have hf := (exists_text_iff engine packaging).mp ⟨text, h⟩
  rwa [failure?, Option.or_eq_none_iff, Option.or_eq_none_iff, Option.map_eq_none_iff,
    Option.map_eq_none_iff] at hf

theorem localNames_subset : s.localNames ⊆ s.declarations := by
  obtain ⟨-, -, hlocal⟩ := conditions_of_ok h
  intro x hx
  simpa using List.find?_eq_none.mp hlocal x hx

/-- A schema that is generated has plans, and its module is left settled. -/
theorem settled_rendered :
    s.Planned s.planned ∧
      (s.rendered engine packaging).Settled s.declarations (importsOf s.members) := by
  obtain ⟨hf, -, -⟩ := conditions_of_ok h
  obtain ⟨-, hplanned⟩ := planned_of_fault?_eq_none hf
  refine ⟨hplanned, ?_⟩
  rw [generate_eq engine packaging hf,
    ← Module.exec_fragments _ s.modulePath hplanned.plain_members] at h
  rw [rendered, Module.exec_render, moduleOf_eq, ← hplanned.declarationsOf_members]
  cases hr : (exec (Module.fragments (s.context engine packaging))
      (Module.ofMembers s.modulePath s.members)).1 with
  | error e => rw [hr] at h; cases h
  | ok fs => exact Module.settled_of_exec_fragments _ _ hplanned.plain_members hr

end

end Schema

end ApiTypes
