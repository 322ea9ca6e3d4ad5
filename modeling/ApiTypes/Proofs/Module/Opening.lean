import ApiTypes.Proofs.Module.Rendering

/-! The opening of a module. A rendering first opens its module: it applies the members, registers
the imports and resolves the names. Only then it writes, the import block first. A module that
fails to open has not come to its rendering phase, and one that opens is in it. -/

namespace ApiTypes

open Op

namespace Module

variable {τ κ : Type} [Label τ]

/-- What a rendering does before it writes. It leaves the members with what they have kept. -/
def openBy (b : Behaviour τ κ) : Op (Module τ) (List (Member τ × κ)) := do
  let kept ← (← get).members.mapM b.apply
  applyImports
  setPhase .resolving
  resolveNames
  let m ← get
  note [.assembled (Label.plain m.path) m.members.length m.imports.size m.names.size]
  setPhase .rendering
  return m.members.zip kept

/-- What a rendering writes: the import block, and then its members. -/
def writeBy (b : Behaviour τ κ) (ctx : Context τ) (turns : List (Member τ × κ)) :
    Op (Module τ) (List String) := do
  let block ← importBlock ctx
  let texts ← turns.mapM fun (member, bound) => b.render ctx bound member
  return block :: texts

theorem workBy_eq (b : Behaviour τ κ) (ctx : Context τ) :
    workBy b ctx = openBy b >>= writeBy b ctx := by
  simp only [workBy, openBy, writeBy, bind_assoc, pure_bind]

/-- A module that fails to open has not come to its rendering phase. -/
theorem phase_of_openBy {b : Behaviour τ κ} (hb : ∀ member, Keeps (· ≠ .created) (b.apply member))
    {m t : Module τ} {e : Error} (hm : m.phase = .applying)
    (h : exec (openBy b) m = (.error e, t)) : t.phase = .applying ∨ t.phase = .resolving := by
  have happly := keeps_mapM hb m.members m (by simp [hm])
  rw [openBy, exec_bind_of_ok (exec_get m)] at h
  rcases exec_bind_eq_error h with h | ⟨kept, applied, happlied, h⟩
  · rw [h] at happly
    exact .inl (happly.1.trans hm)
  · rw [happlied] at happly
    have hregister := keeps_applyImports (P := fun _ => True) applied trivial
    rcases exec_bind_eq_error h with h | ⟨_, named, -, h⟩
    · rw [h] at hregister
      exact .inl (hregister.1.trans (happly.1.trans hm))
    · rw [setPhase, exec_bind_of_ok (exec_modify ..)] at h
      have hresolve := keeps_resolveNames (P := fun _ => True) { named with phase := .resolving }
        trivial
      rcases exec_bind_eq_error h with h | ⟨_, settled, -, h⟩
      · rw [h] at hresolve
        exact .inr hresolve.1
      · rw [exec_bind_of_ok (exec_get _), note, exec_bind_of_ok (exec_modify ..), setPhase,
          exec_bind_of_ok (exec_modify ..)] at h
        cases h

/-- An opening that succeeds, step by step. -/
structure Opens (b : Behaviour τ κ) (m : Module τ) (kept : List κ)
    (applied named settled : Module τ) : Prop where
  apply : exec (m.members.mapM b.apply) m = (.ok kept, applied)
  register : exec applyImports applied = (.ok (), named)
  resolve : exec resolveNames { named with phase := .resolving } = (.ok (), settled)

/-- A module that renders, with its names resolved. -/
def opened (m : Module τ) : Module τ :=
  { m with
    phase := .rendering
    log := m.log ++
      [.assembled (Label.plain m.path) m.members.length m.imports.size m.names.size] }

theorem opens_of_openBy {b : Behaviour τ κ} {m t : Module τ} {turns : List (Member τ × κ)}
    (h : exec (openBy b) m = (.ok turns, t)) :
    ∃ kept applied named settled, Opens b m kept applied named settled ∧
      turns = settled.members.zip kept ∧ t = settled.opened := by
  rw [openBy, exec_bind_of_ok (exec_get m)] at h
  obtain ⟨kept, applied, happly, h⟩ := exec_bind_eq_ok h
  obtain ⟨_, named, hnamed, h⟩ := exec_bind_eq_ok h
  rw [setPhase, exec_bind_of_ok (exec_modify ..)] at h
  obtain ⟨_, settled, hsettled, h⟩ := exec_bind_eq_ok h
  rw [exec_bind_of_ok (exec_get _), note, exec_bind_of_ok (exec_modify ..), setPhase,
    exec_bind_of_ok (exec_modify ..)] at h
  obtain ⟨hturns, ht⟩ := Prod.mk.inj h
  exact ⟨kept, applied, named, settled, ⟨happly, hnamed, hsettled⟩, (Except.ok.inj hturns).symm,
    ht.symm⟩

end Module

end ApiTypes
