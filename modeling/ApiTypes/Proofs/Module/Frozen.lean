import ApiTypes.Proofs.Module.Code
import ApiTypes.Proofs.Name.Additions

/-! Spellings that are given out stay. As long as the names of a module are not resolved, none of
them has a spelling, so no binding reads. The resolution gives all spellings out in one go, and
from then on every operation leaves the names alone, and every import with the name that it has.
So what a binding reads once, it reads at every later moment, whatever the caller and the members
of the module do. -/

namespace ApiTypes

open Op

namespace Module

variable {m m' : Module String}

/-- Names that are not resolved have no spellings. -/
def Unspelled (m : Module String) : Prop :=
  m.names.resolved = false → ∀ n ∈ m.names.entries, n.spelling = none

/-- What holds of a later module for the sake of an earlier one. -/
structure Frozen (m m' : Module String) : Prop where
  /-- A binding that has read a spelling reads it again. -/
  read : ∀ b spelling, m.read b = .ok spelling → m'.read b = .ok spelling
  /-- Resolved names are neither added to nor spelled anew. -/
  names : m.names.resolved = true → m'.names = m.names
  /-- An import keeps the name that it has when the names are resolved. -/
  targets : m.names.resolved = true → ∀ urn member i, m.imports.find? urn member = some i →
    ∃ i', m'.imports.find? urn member = some i' ∧ i'.name = i.name

/-! ### What an operation does -/

/-- How far an operation may go. -/
structure Freezes (m m' : Module String) : Prop where
  unspelled : m.Unspelled → m'.Unspelled
  names : m.names.resolved = true → m'.names = m.names
  targets : m.names.resolved = true → ∀ urn member i, m.imports.find? urn member = some i →
    ∃ i', m'.imports.find? urn member = some i' ∧ i'.name = i.name

theorem Freezes.of_eq (hn : m'.names = m.names) (hi : m'.imports = m.imports) : Freezes m m' where
  unspelled h := by rwa [Unspelled, hn]
  names _ := hn
  targets _ _ _ i h := ⟨i, hi ▸ h, rfl⟩

instance : IsPreorder (Module String) Freezes where
  refl _ := .of_eq rfl rfl
  trans m m' m'' h h' :=
    { unspelled := fun hm => h'.unspelled (h.unspelled hm)
      names := fun hr => (h'.names (by rwa [h.names hr])).trans (h.names hr)
      targets := fun hr urn member i hi => by
        obtain ⟨i', hi', hname⟩ := h.targets hr urn member i hi
        obtain ⟨i'', hi'', hname'⟩ := h'.targets (by rwa [h.names hr]) urn member i' hi'
        exact ⟨i'', hi'', hname'.trans hname⟩ }

/-- An operation that is refused once the names are resolved, and before adds a registration. -/
theorem freezes_register {names : Names String} {serial : Nat} {imports : Imports String}
    {x : String} {usage : Usage} (h : m.names.add x usage = .ok (names, serial)) :
    Freezes m { m with names, imports } := by
  have hr := Names.resolved_of_add h
  have hadd := h
  rw [Names.add_eq hr] at hadd
  split at hadd
  next => cases hadd
  next =>
    obtain rfl := (Prod.mk.inj (Except.ok.inj hadd)).1
    refine ⟨fun hm _ n hn => ?_, fun h' => by simp [hr] at h', fun h' => by simp [hr] at h'⟩
    rcases List.mem_append.mp hn with hn | hn
    · exact hm hr n hn
    · rw [List.mem_singleton.mp hn]

theorem freezes_addName (x : String) (usage : Usage) : Within Freezes (addName x usage) := by
  intro m
  rw [exec_addName_eq]
  cases h : m.names.add x usage with
  | error e => exact Std.Refl.refl m
  | ok added => exact freezes_register h

theorem freezes_applyImport (urn : String) (i : Import String) :
    Within Freezes (applyImport urn i) := by
  intro m
  rw [exec_applyImport_eq]
  cases h : m.names.add i.identifier .imported with
  | error e => exact Std.Refl.refl m
  | ok added => exact freezes_register h

theorem freezes_useImport (u : Use) :
    Within Freezes (useImport u.source u.member u.localName u.typeOnly) := by
  intro m
  cases ha : m.imports.applied with
  | true =>
    rw [exec_useImport_of_applied ha]
    exact Std.Refl.refl m
  | false =>
    rw [exec_useImport ha u]
    refine ⟨id, fun _ => rfl, fun _ urn member i hi => ?_⟩
    -- the use merges into the import that is there, which keeps its name
    change ∃ i', (m.imports.record u).find? urn member = some i' ∧ _
    rw [Imports.find?_record, hi]
    split
    next => exact ⟨_, rfl, rfl⟩
    next => exact ⟨i, rfl, rfl⟩

theorem freezes_add (member : Member String) : Within Freezes (add member) := by
  intro m
  rw [exec_add]
  split <;> exact .of_eq rfl rfl

theorem freezes_resolveNames : Within Freezes (resolveNames : Op (Module String) Unit) := by
  intro m
  rw [exec_resolveNames_eq]
  refine ⟨fun hm hr => ?_, fun hr => by simp [Names.resolve, hr], fun _ _ _ i hi => ⟨i, hi, rfl⟩⟩
  cases hresolved : m.names.resolved with
  | true => simp [Names.resolve, hresolved] at hr
  | false =>
    have hnames := (Names.resolve_eq m.names hresolved (hm hresolved)).2
    change m.names.resolve.names.resolved = false at hr
    simp [hnames] at hr

/-- Nothing goes further that operations and renderings are made of. -/
theorem permits_freezes : Permits Freezes where
  addName := freezes_addName
  useImport := freezes_useImport
  add := freezes_add
  resolveNames := freezes_resolveNames
  applyImport := freezes_applyImport
  close _ := ⟨id, fun _ => rfl, fun _ _ _ i hi => ⟨i, hi, rfl⟩⟩
  observe _ := .of_eq rfl rfl
  enter _ _ := .of_eq rfl rfl
  note _ _ := .of_eq rfl rfl

theorem freezes_renderStep (s : RenderStep) : Within Freezes s.run :=
  permits_freezes.renderStep s

/-! ### Readings -/

/-- Nothing can be read as long as the names are not resolved. -/
theorem read_ne_ok (hm : m.Unspelled) (hr : m.names.resolved = false) (b : Binding String)
    (spelling : String) : m.read b ≠ .ok spelling := by
  have hentry : ∀ n ∈ m.names.entries, n.token ≠ .ok spelling := fun n hn => by
    simp [Name.token, Name.spelling?, hm hr n hn]
  have htoken : ∀ serial, m.names.token serial ≠ .ok spelling := by
    intro serial
    rw [Names.token]
    cases hn : m.names.entries[serial]? with
    | none => simp
    | some n => exact hentry n (List.mem_of_getElem? hn)
  cases b with
  | name serial x => exact htoken serial
  | member urn member =>
    rw [read]
    cases m.imports.find? urn member with
    | none => simp
    | some i =>
      dsimp only
      rw [Import.token]
      cases i.name with
      | none => simp
      | some serial => exact htoken serial
  | lookup x =>
    rw [read, Names.declared_eq]
    cases hfound : (Names.ofUsage x .declaration m.names.entries)[0]? with
    | none => simp [bind, Except.bind]
    | some found =>
      obtain ⟨hn, -⟩ := (Names.ofUsage_getElem? ..).mp hfound
      exact hentry found.1 (List.mem_of_getElem? hn)

theorem Freezes.frozen (h : Freezes m m') (hm : m.Unspelled) : Frozen m m' where
  names := h.names
  targets := h.targets
  read b spelling hread := by
    cases hr : m.names.resolved with
    | false => exact absurd hread (read_ne_ok hm hr b spelling)
    | true =>
      have hnames := h.names hr
      cases b with
      | name serial x => simpa only [read, hnames] using hread
      | lookup x => simpa only [read, hnames] using hread
      | member urn member =>
        rw [read] at hread ⊢
        cases hi : m.imports.find? urn member with
        | none => simp [hi] at hread
        | some i =>
          obtain ⟨i', hi', hname⟩ := h.targets hr urn member i hi
          rw [hi] at hread
          rw [hi']
          dsimp only [Import.token] at hread ⊢
          cases hserial : i.name with
          | none => simp [hserial] at hread
          | some serial =>
            rw [hserial] at hread
            rw [hname, hserial, hnames]
            exact hread

/-! ### Runs -/

/-- Whatever a caller and the members of a new module do, each of its moments is frozen in all
later ones; and a resolution that succeeds resolves the names. -/
theorem spellings_stay {κ α : Type} (b : Members κ) (caller : Code OuterCall α) (path : String) :
    let moments := b.moments caller { path }
    moments.getLast? = some (exec (caller.run (OuterCall.run b.behaviour)) { path }).2 ∧
      moments.Pairwise Frozen ∧
      ∀ m m' : Module String, exec resolveNames m = (.ok (), m') → m'.names.resolved = true := by
  intro moments
  obtain ⟨hpairs, hfrom⟩ := Code.pairwise_trace freezes_renderStep
    (caller.expand (OuterCall.code b)) { path }
  have hnew : ({ path } : Module String).Unspelled := fun _ n hn => nomatch hn
  have hunspelled : ∀ m ∈ moments, m.Unspelled := fun m hm => (hfrom m hm).unspelled hnew
  have hfrozen : moments.Pairwise Frozen :=
    hpairs.imp_of_mem fun hm _ h => h.frozen (hunspelled _ hm)
  exact ⟨b.getLast?_moments caller { path }, hfrozen,
    fun m m' h => (resolved_of_resolveNames h).resolved⟩

/-- Members that register an import twice over, resolve the names on their own, and then try to
register and to resolve again. -/
def hasty : Members Unit where
  apply _ := do
    let _ ← Code.single (.addName "Pod" .declaration)
    let _ ← Code.single (.useImport ⟨.api "apps" none, "Pod", none, false⟩)
    let _ ← Code.single .applyImports
    let _ ← Code.single .applyImports
    let _ ← Code.single (.act [] .resolve)
    let late : List Operation := [.addName "Pod" .imported, .applyImports, .act [] .resolve]
    late.forM fun o => tryCatch (discard (Code.single o)) fun _ => pure ()
  render _ _ _ := return ""

/-- The rendering of such a member fails. Both bindings read from the resolution on, also inside of
it, and keep their spellings to the end. -/
theorem spellings_stay_hasty :
    let ctx : Context String :=
      { apiVersion := "v1", dependencies := [], modulePath := "v1.ts", engine := .deno
        packaging := .hosted }
    let caller : Code OuterCall Unit := do
      let _ ← Code.single (.operation (.act [] (.add (.script [] []))))
      let _ ← Code.single (.render ctx)
    let moments := hasty.moments caller { path := "v1.ts" }
    let readings (b : Binding String) := moments.map fun m => (m.read b).toOption
    readings (.member "kure:api:apps" "Pod") =
        List.replicate 7 none ++ List.replicate 6 (some "Pod_2") ∧
      readings (.lookup "Pod") = List.replicate 7 none ++ List.replicate 6 (some "Pod") ∧
      moments.Pairwise Frozen := by
  exact ⟨by decide +kernel, by decide +kernel, (spellings_stay hasty _ "v1.ts").2.1⟩

end Module

end ApiTypes
