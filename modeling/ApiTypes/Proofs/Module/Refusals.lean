import ApiTypes.Proofs.Module.Applications
import ApiTypes.Proofs.Module.Code
import ApiTypes.Proofs.Name.Groups

/-! Registrations that are refused. Members, names and imports are registered through the module, or
past it with its tables, and the import table registers all of its imports at once. Each of these
finds out that it is refused before it has changed anything, so the module stays as it was, and so
do the groups of its names. The application of the import table is many registrations and could end
between them; but no import conflicts with anything, and names that are resolved refuse the first
of the imports. So it registers every import or none. -/

namespace ApiTypes

open Op

/-! ### Why a registration is refused -/

/-- A registration as it is called: of a member, of a name or of the use of an import through the
module, of a name or of a use in the tables themselves, or of all imports. -/
inductive Registration where
  | member (member : Member String)
  | name (identifier : String) (usage : Usage)
  | use (u : Use)
  | addName (identifier : String) (usage : Usage)
  | useImport (u : Use)
  | applyImports

def Registration.operation : Registration → Operation
  | member added => .act [] (.add added)
  | name x usage => .act [] (.request (.name x usage))
  | use u => .act [] (.request (.useMember u.source u.member u.localName u.typeOnly))
  | addName x usage => .addName x usage
  | useImport u => .useImport u
  | applyImports => .applyImports

/-- Why a table refuses a name, if it does. -/
def Names.refusal? (t : Names String) (x : String) (usage : Usage) : Option Error :=
  if t.resolved then some (.ofDefect (.lateName (.text x)))
  else if usage = .declaration ∧ x ∈ declaredIn t.entries then
    some (.ofCause (.duplicateDeclaration (.text x)))
  else none

def Imports.refusal? (t : Imports String) (u : Use) : Option Error :=
  if t.applied then some (.ofDefect (.lateImport (.text u.member) u.source.identity)) else none

namespace Module

/-- Why a request is refused, unless the members are being applied. -/
def untimely? (m : Module String) (action : String) : Option Error :=
  if m.phase = .applying then none
  else some (.ofDefect (.wrongPhase action (.text m.path) .applying m.phase))

/-- Why a module refuses a registration, if it does. -/
def refusal? (m : Module String) : Registration → Option Error
  | .member _ =>
    if m.phase = .created then none else some (.ofDefect (.lateMember (.text m.path) m.phase))
  | .name x usage => (m.untimely? ("name " ++ Label.quoted x)).or (m.names.refusal? x usage)
  | .use u => (m.untimely? ("import of " ++ Label.quoted u.member)).or (m.imports.refusal? u)
  | .addName x usage => m.names.refusal? x usage
  | .useImport u => m.imports.refusal? u
  | .applyImports =>
    if m.names.resolved then
      m.imports.queue.head?.map fun e => .ofDefect (.lateName (.text e.2.identifier))
    else none

/-- What a registration that is not refused answers, and the module that it leaves. -/
def granted (m : Module String) : Registration → Answer × Module String
  | .member member => (([], nothing), { m with members := m.members ++ [member] })
  | .name x usage | .addName x usage =>
    (([.name m.names.entries.length x], nothing),
      { m with
        names := { m.names with entries := m.names.entries ++ [{ identifier := x, usage }] } })
  | .use u | .useImport u =>
    (([.member u.source.identity u.member], nothing), { m with imports := m.imports.record u })
  | .applyImports =>
    (([], nothing),
      { m with
        names := { m.names with entries := m.names.entries ++ m.imports.registrations }
        imports := m.imports.applyBehind m.names.entries.length })

variable {m : Module String}

theorem exec_addName_refusal (m : Module String) (x : String) (usage : Usage) :
    exec (addName x usage) m =
      match m.names.refusal? x usage with
      | some e => (.error e, m)
      | none =>
        (.ok (.name m.names.entries.length x),
          { m with
            names := { m.names with
              entries := m.names.entries ++ [{ identifier := x, usage }] } }) := by
  rw [exec_addName_eq, Names.refusal?]
  cases hr : m.names.resolved with
  | true =>
    rw [Names.add_of_resolved hr]
    rfl
  | false =>
    rw [Names.add_eq hr]
    by_cases hd : usage = .declaration ∧ x ∈ Names.declaredIn m.names.entries
    · simp only [if_pos hd]
      rfl
    · simp only [if_neg hd]
      rfl

theorem exec_useImport_refusal (m : Module String) (u : Use) :
    exec (useImport u.source u.member u.localName u.typeOnly) m =
      match m.imports.refusal? u with
      | some e => (.error e, m)
      | none =>
        (.ok (.member u.source.identity u.member), { m with imports := m.imports.record u }) := by
  rw [Imports.refusal?]
  cases ha : m.imports.applied with
  | true => rw [exec_useImport_of_applied ha]; rfl
  | false => rw [exec_useImport ha]; rfl

theorem exec_applyImports_refusal (m : Module String) :
    exec applyImports m =
      match m.refusal? .applyImports with
      | some e => (.error e, m)
      | none => (.ok (), (m.granted .applyImports).2) := by
  rw [refusal?]
  cases hr : m.names.resolved with
  | false => exact exec_applyImports hr
  | true =>
    rw [exec_applyImports_of_resolved hr, if_pos rfl]
    cases hq : m.imports.queue with
    | cons e rest => rfl
    | nil =>
      -- there is nothing to register, so the names need not be open
      simp [granted, Imports.registrations, Imports.applyBehind, hq, Imports.assign]

/-- Outside of its phase a request is refused before it comes to anything. -/
theorem exec_expect_bind {α : Type} (m : Module String) (action : String)
    (op : Op (Module String) α) :
    exec (do expect .applying action; op) m =
      match m.untimely? action with
      | some e => (.error e, m)
      | none => exec op m := by
  rw [exec_bind, exec_expect_eq, untimely?]
  by_cases h : m.phase = .applying
  · rw [if_pos h, if_pos h]
  · rw [if_neg h, if_neg h]
    rfl

/-- The step lemma: a registration is refused for a reason and leaves the module as it was, or is
granted. -/
theorem exec_registration (m : Module String) (r : Registration) :
    exec r.operation.run m =
      match m.refusal? r with
      | some e => (.error e, m)
      | none => (.ok (m.granted r).1, (m.granted r).2) := by
  cases r with
  | member added =>
    show exec (add added >>= fun _ => pure ([], nothing)) m = _
    rw [exec_bind, exec_add, refusal?]
    by_cases h : m.phase = .created
    · rw [if_pos h, if_pos h]
      rfl
    · rw [if_neg h, if_neg h]
      rfl
  | name x usage =>
    show exec ((do expect .applying ("name " ++ Label.quoted x); addName x usage) >>=
      fun b => pure ([b], nothing)) m = _
    rw [exec_bind, exec_expect_bind, exec_addName_refusal, refusal?]
    cases m.untimely? ("name " ++ Label.quoted x) with
    | some e => rfl
    | none => cases m.names.refusal? x usage <;> rfl
  | use u =>
    show exec ((do
      expect .applying ("import of " ++ Label.quoted u.member)
      useImport u.source u.member u.localName u.typeOnly) >>= fun b => pure ([b], nothing)) m = _
    rw [exec_bind, exec_expect_bind, exec_useImport_refusal, refusal?]
    cases m.untimely? ("import of " ++ Label.quoted u.member) with
    | some e => rfl
    | none => cases m.imports.refusal? u <;> rfl
  | addName x usage =>
    show exec (addName x usage >>= fun b => pure ([b], nothing)) m = _
    rw [exec_bind, exec_addName_refusal, refusal?]
    cases m.names.refusal? x usage <;> rfl
  | useImport u =>
    show exec (useImport u.source u.member u.localName u.typeOnly >>=
      fun b => pure ([b], nothing)) m = _
    rw [exec_bind, exec_useImport_refusal, refusal?]
    cases m.imports.refusal? u <;> rfl
  | applyImports =>
    show exec (applyImports >>= fun _ => pure ([], nothing)) m = _
    rw [exec_bind, exec_applyImports_refusal]
    cases m.refusal? .applyImports <;> rfl

/-! ### Modules that code comes to -/

/-- The modules that any code comes to: new ones, those that an operation or a step of a rendering
leaves, also where it fails, and those with a single registration spelled. -/
inductive Reachable : Module String → Prop where
  | new (path : String) : Reachable { path }
  | step {m : Module String} (h : Reachable m) (s : RenderStep) : Reachable (exec s.run m).2
  | spell {m : Module String} {names : Names String} (h : Reachable m) (serial : Nat)
      (spelling : Option String) (hnames : m.names.resolveAt serial spelling = .ok names) :
      Reachable { m with names }

/-- Every moment of a run is such a module. -/
theorem reachable_of_mem_trace {κ : Type} (x : Code RenderStep κ) {m m' : Module String}
    (h : Reachable m) (hm' : m' ∈ x.trace RenderStep.run m) : Reachable m' := by
  induction x generalizing m with
  | keep kept =>
    rw [List.mem_singleton.mp hm']
    exact h
  | fail e =>
    rw [List.mem_singleton.mp hm']
    exact h
  | look next ih => exact ih m h hm'
  | call s next ih =>
    rcases List.mem_cons.mp hm' with rfl | hlater
    · exact h
    · exact ih _ (h.step s) hlater

theorem reachable_of_mem_moments {κ α : Type} (b : Members κ) (caller : Code OuterCall α)
    (path : String) {m : Module String} (h : m ∈ b.moments caller { path }) : Reachable m :=
  reachable_of_mem_trace _ (.new path) h

/-- A change that keeps the import table in order. -/
def KeepsKeyed (m m' : Module String) : Prop :=
  m.imports.Keyed → m'.imports.Keyed

instance : IsPreorder (Module String) KeepsKeyed where
  refl _ := id
  trans _ _ _ h h' := h' ∘ h

theorem permits_keepsKeyed : Permits KeepsKeyed where
  addName x usage m h := by
    rw [exec_addName_eq]
    cases m.names.add x usage <;> exact h
  useImport u m h := by
    rw [exec_useImport_refusal]
    split
    · exact h
    · exact h.record u
  add member m h := by
    rw [exec_add]
    split <;> exact h
  resolveNames m h := by
    rw [exec_resolveNames_eq]
    exact h
  applyImport urn i m h := by
    rw [exec_applyImport_eq]
    cases m.names.add i.identifier .imported with
    | error e => exact h
    | ok added =>
      show (m.imports.setName urn i.member added.2).Keyed
      rw [m.imports.setName_eq (urn, i) added.2]
      refine h.mapImports fun urn' i' => ?_
      split <;> rfl
  close m h := ⟨h.urns, h.identified, h.inhabited, h.members⟩
  observe _ h := h
  enter _ _ h := h
  note _ _ h := h

/-- The run lemma: no source and no member of a source is ever listed twice. -/
theorem Reachable.keyed {m : Module String} (h : Reachable m) : m.imports.Keyed := by
  induction h with
  | new path => exact Imports.keyed_recordAll []
  | step h s ih => exact permits_keepsKeyed.renderStep s _ ih
  | spell h serial spelling hnames ih => exact ih

/-! ### Registrations as a whole -/

/-- An application that has registered every import of a table. -/
structure RegistersAll (m m' : Module String) : Prop where
  applied : m'.imports.applied = true
  /-- The queue has every import of the table once. -/
  queue : (m.imports.queue.map Imports.key).Nodup ∧
    ∀ urn i, (urn, i) ∈ m.imports.queue ↔ m.imports.find? urn i.member = some i
  /-- Each has one registration, behind all that there were. -/
  entries : m'.names.entries = m.names.entries ++ m.imports.queue.map importName
  /-- And each has the name that is registered for it. -/
  named : ∀ urn member i, m.imports.find? urn member = some i →
    ∃ serial, m.names.entries.length ≤ serial ∧
      m'.names.entries[serial]? = some (importName (urn, i)) ∧
      m'.imports.find? urn member = some { i with name := some serial }

/-- A module at which every registration is made as a whole or not at all. -/
structure RegistersWhole (m : Module String) : Prop where
  /-- A registration that fails leaves the module as it was: its names, its imports and its
  members. -/
  unchanged : ∀ (r : Registration) (e : Error) (m' : Module String),
    exec r.operation.run m = (.error e, m') → m' = m
  /-- It fails exactly if there is a reason to refuse it. -/
  fails_iff : ∀ (r : Registration) (e : Error),
    (exec r.operation.run m).1 = .error e ↔ m.refusal? r = some e
  /-- A dictionary of the names refuses a name where they do, and has nothing entered then. -/
  groups : ∀ g : Groups, g.StandsFor m.names → ∀ x usage,
    match m.names.add x usage with
    | .error e => g.add m.names.resolved x usage = (g, .error e)
    | .ok (t, _) => ∃ g', g.add m.names.resolved x usage = (g', .ok ()) ∧ g'.StandsFor t
  /-- The application of the import table registers every import or none. -/
  application : (∃ e, exec applyImports m = (.error e, m)) ∨
    ∃ m', exec applyImports m = (.ok (), m') ∧ RegistersAll m m'

theorem registersAll_granted (h : m.imports.Keyed) :
    RegistersAll m (m.granted .applyImports).2 where
  applied := rfl
  queue := ⟨h.nodup_keys, h.mem_queue⟩
  entries := rfl
  named urn member i hi := by
    refine ⟨m.names.entries.length + m.imports.place urn member, Nat.le_add_right .., ?_, ?_⟩
    · show (m.names.entries ++ m.imports.registrations)[_]? = _
      rw [List.getElem?_append_right (Nat.le_add_right ..), Nat.add_sub_cancel_left,
        Imports.registrations, List.getElem?_map, h.queue_place hi]
      rfl
    · show (m.imports.applyBehind m.names.entries.length).find? urn member = _
      rw [h.find?_applyBehind, hi]
      rfl

/-- Wherever any code has brought a module, a registration that is refused changes nothing, and an
application of the import table registers every import or none. -/
theorem refused_registrations_change_nothing (h : Reachable m) : RegistersWhole m where
  unchanged r e m' hr := by
    rw [exec_registration] at hr
    cases hrefusal : m.refusal? r with
    | none => simp [hrefusal] at hr
    | some reason =>
      rw [hrefusal] at hr
      exact (Prod.mk.inj hr).2.symm
  fails_iff r e := by
    rw [exec_registration]
    cases m.refusal? r <;> simp
  groups g hg x usage := by
    cases hadd : m.names.add x usage with
    | error e => exact hg.add_error hadd
    | ok added => exact hg.add_ok hadd
  application := by
    rw [exec_applyImports_refusal]
    cases m.refusal? .applyImports with
    | some e => exact .inl ⟨e, rfl⟩
    | none => exact .inr ⟨_, rfl, registersAll_granted h.keyed⟩

/-- A caller that resolves the names while an import still waits for its own. -/
def impatient : Code OuterCall Unit := do
  let _ ← Code.single (.operation (.addName "Pod" .declaration))
  let _ ← Code.single (.operation (.useImport ⟨.api "apps" none, "Pod", none, false⟩))
  let _ ← Code.single (.operation (.act [] .resolve))

/-- The application is refused then, and the table still takes uses; a name is refused whether or
not its identifier is new, which the dictionary of the names does not enter. -/
theorem refused_registrations_change_nothing_impatient :
    let m := (exec (impatient.run (OuterCall.run Members.scripts.behaviour)) { path := "v1.ts" }).2
    let g := Groups.ofTable m.names
    let late (x : String) : Error := .ofDefect (.lateName (.text x))
    Reachable m ∧ g.StandsFor m.names ∧
      m.refusal? .applyImports = some (late "Pod") ∧
      m.refusal? (.useImport ⟨.api "core" none, "Node", none, false⟩) = none ∧
      m.refusal? (.addName "Node" .declaration) = some (late "Node") ∧
      g = [("Pod", [⟨"Pod", .declaration, some "Pod"⟩])] ∧
      g.add m.names.resolved "Node" .declaration = (g, .error (late "Node")) ∧
      RegistersWhole m := by
  intro m g late
  have hm : Reachable m := reachable_of_mem_moments Members.scripts impatient "v1.ts"
    (List.mem_of_getLast? (Members.scripts.getLast?_moments impatient { path := "v1.ts" }))
  have hg : g.StandsFor m.names := Groups.standsFor_ofTable m.names
  exact ⟨hm, hg, by with_unfolding_all rfl, by decide, rfl, rfl, rfl,
    refused_registrations_change_nothing hm⟩

end Module

end ApiTypes
