import ApiTypes.Proofs.Module.Opening
import ApiTypes.Proofs.Module.Outcome

/-! What becomes of a module on its way from the application of one member to the rendering of
another. Scripts act on it in between, and any of their actions may fail; the import table is
applied, the names are resolved. Whatever the scripts do, an import that the module has is
never lost, it has a name once the table is applied, and the name has a spelling once the
module renders, which no script can change any more. -/

namespace ApiTypes

open Op

namespace Module

/-! ### Actions of scripts -/

section

variable {R : Module String → Module String → Prop} [IsPreorder (Module String) R]

theorem within_expect (required : Phase) (action : String) :
    Within R (expect required action : Op (Module String) Unit) := by
  refine within_of_fixed fun m => ?_
  rw [exec_expect_eq]
  split <;> rfl

/-- An action changes a module as the operations do that it may come to. -/
theorem within_perform (bindings : List (Binding String)) (a : Action String)
    (hname : ∀ x usage, Within R (addName x usage))
    (huse : ∀ u, a.use? = some u → Within R (useImport u.source u.member u.localName u.typeOnly))
    (hadd : ∀ member, Within R (add member))
    (hresolve : Within R (resolveNames : Op (Module String) Unit))
    (hobserve : ∀ m : Module String, R m { m with observed := m.observed ++ [m.phase] }) :
    Within R (perform bindings a) := by
  cases a with
  | request r =>
    have hrequest : Within R (request r) := by
      cases r with
      | name x usage => exact (within_expect _ _).bind fun _ => hname x usage
      | useMember source member localName typeOnly =>
        exact (within_expect _ _).bind fun _ => huse ⟨source, member, localName, typeOnly⟩ rfl
      | lookup x => exact within_pure _
    exact hrequest.bind fun _ => within_pure _
  | read index =>
    refine within_get.bind fun m => ?_
    split
    next => exact (within_liftExcept _).bind fun _ => within_pure _
    next => exact within_throw _
  | add member => exact (hadd member).bind fun _ => within_pure _
  | render => exact within_get.bind fun _ => within_throw _
  | resolve => exact hresolve.bind fun _ => within_pure _
  | use source member =>
    exact ((huse ⟨source, member, none, false⟩ rfl).bind fun _ => within_pure _).bind
      fun _ => within_pure _
  | observe => exact fun m => hobserve m

end

/-- What an action may do to a module: it adds names and imports, and more names only before they
are resolved, more imports only before the table is applied. -/
structure Adds (m m' : Module String) : Prop where
  phase : m'.phase = m.phase
  members : m.phase ≠ .created → m'.members = m.members
  length : m.names.entries.length ≤ m'.names.entries.length
  listed : ∀ urn member, (m.imports.find? urn member).isSome →
    (m'.imports.find? urn member).isSome
  names : m.names.resolved = true → m'.names = m.names
  imports : m.imports.applied = true → m'.imports = m.imports

/-- A change that is neither of the names nor of the imports nor of the members. -/
theorem Adds.of_eq {m m' : Module String} (hp : m'.phase = m.phase) (hm : m'.members = m.members)
    (hn : m'.names = m.names) (hi : m'.imports = m.imports) : Adds m m' :=
  ⟨hp, fun _ => hm, hn ▸ Nat.le_refl _, fun _ _ h => hi ▸ h, fun _ => hn, fun _ => hi⟩

instance : IsPreorder (Module String) Adds where
  refl _ := .of_eq rfl rfl rfl rfl
  trans m m' m'' h h' :=
    { phase := h'.phase.trans h.phase
      members := fun hm => (h'.members (h.phase ▸ hm)).trans (h.members hm)
      length := Nat.le_trans h.length h'.length
      listed := fun urn member hi => h'.listed urn member (h.listed urn member hi)
      names := fun hr => (h'.names (by rwa [h.names hr])).trans (h.names hr)
      imports := fun ha => (h'.imports (by rwa [h.imports ha])).trans (h.imports ha) }

theorem adds_addName (x : String) (usage : Usage) : Within Adds (addName x usage) := by
  intro m
  rw [exec_addName_eq]
  cases hr : m.names.resolved with
  | true =>
    rw [Names.add_of_resolved hr]
    exact Std.Refl.refl m
  | false =>
    rw [Names.add_eq hr]
    by_cases hd : usage = .declaration ∧ x ∈ Names.declaredIn m.names.entries
    · rw [if_pos hd]
      exact Std.Refl.refl m
    · rw [if_neg hd]
      exact
        { phase := rfl
          members := fun _ => rfl
          length := (List.prefix_append m.names.entries [_]).length_le
          listed := fun _ _ h => h
          names := fun h => by simp [hr] at h
          imports := fun _ => rfl }

theorem exec_useImport_of_applied {m : Module String} (ha : m.imports.applied = true)
    (source : Source String) (member : String) (localName : Option String) (typeOnly : Bool) :
    exec (useImport source member localName typeOnly) m =
      (.error (.ofDefect (.lateImport (Label.document member) source.identity)), m) := by
  have huse : m.imports.use source member localName typeOnly =
      (m.imports, .error (.ofDefect (.lateImport (Label.document member) source.identity))) := by
    simp [Imports.use, Source.urn_eq, ha]
  rw [useImport, exec_bind_of_ok (exec_get m), huse]
  rfl

theorem adds_useImport (source : Source String) (member : String) (localName : Option String)
    (typeOnly : Bool) : Within Adds (useImport source member localName typeOnly) := by
  intro m
  cases ha : m.imports.applied with
  | true =>
    rw [exec_useImport_of_applied ha]
    exact Std.Refl.refl m
  | false =>
    let u : Use := ⟨source, member, localName, typeOnly⟩
    have hlisted : ∀ urn x, (m.imports.find? urn x).isSome →
        ((m.imports.record u).find? urn x).isSome := by
      intro urn x h
      rw [Imports.find?_record]
      split
      next => rfl
      next => exact h
    rw [exec_useImport ha u]
    exact
      { phase := rfl
        members := fun _ => rfl
        length := Nat.le_refl _
        listed := hlisted
        names := fun _ => rfl
        imports := fun h => by simp [ha] at h }

theorem adds_add (member : Member String) : Within Adds (add member) := by
  intro m
  rw [exec_add]
  split
  next hphase =>
    exact
      { phase := rfl
        members := fun h => absurd hphase h
        length := Nat.le_refl _
        listed := fun _ _ h => h
        names := fun _ => rfl
        imports := fun _ => rfl }
  next => exact Std.Refl.refl m

theorem adds_resolveNames : Within Adds (resolveNames : Op (Module String) Unit) := by
  intro m
  rw [exec_resolveNames_eq]
  exact
    { phase := rfl
      members := fun _ => rfl
      length := Nat.le_of_eq (Names.length_resolve m.names).symm
      listed := fun _ _ h => h
      names := fun h => by simp [Names.resolve, h]
      imports := fun _ => rfl }

/-- An action only adds to a module, also where it fails. -/
theorem adds_perform (bindings : List (Binding String)) (a : Action String) :
    Within Adds (perform bindings a) :=
  within_perform bindings a adds_addName
    (fun u _ => adds_useImport u.source u.member u.localName u.typeOnly) adds_add adds_resolveNames
    fun _ => .of_eq rfl rfl rfl rfl

/-! ### The end of the application, and the resolution -/

theorem exec_applyImport_of_resolved {m : Module String} (hr : m.names.resolved = true)
    (urn : String) (i : Import String) :
    exec (applyImport urn i) m =
      (.error (.ofDefect (.lateName (Label.document i.identifier))), m) := by
  rw [exec_applyImport_eq, Names.add_of_resolved hr]

/-- Once the names are resolved, the first import of a table is refused, and the module stays as it
was; a table without imports is applied. -/
theorem exec_applyImports_of_resolved {m : Module String} (hr : m.names.resolved = true) :
    exec applyImports m =
      match m.imports.queue.head? with
      | none => (.ok (), { m with imports := { m.imports with applied := true } })
      | some e => (.error (.ofDefect (.lateName (Label.document e.2.identifier))), m) := by
  have hloop := exec_forM_of_refused
    (fun e : String × Import String => exec_applyImport_of_resolved hr e.1 e.2) m.imports.queue
  rw [applyImports_eq, exec_bind_of_ok (exec_get m), exec_bind, hloop]
  cases m.imports.queue.head? <;> rfl

/-- Once the names are resolved, only a table without imports can be applied. -/
theorem applyImports_of_resolved {m m' : Module String} (hr : m.names.resolved = true)
    (h : exec applyImports m = (.ok (), m')) :
    (∀ urn member, m.imports.find? urn member = none) ∧
      m' = { m with imports := { m.imports with applied := true } } := by
  rw [exec_applyImports_of_resolved hr] at h
  cases hq : m.imports.queue with
  | cons e rest => simp [hq] at h
  | nil =>
    rw [hq] at h
    refine ⟨fun urn member => ?_, (Prod.mk.inj h).2.symm⟩
    cases hi : m.imports.find? urn member with
    | none => rfl
    | some i =>
      have hmem := Imports.mem_queue_of_find? hi
      simp [hq] at hmem

/-- What the end of the application leaves of a module: its imports are those that it had, each
with the serial number of a registration. -/
structure Applied (m m' : Module String) : Prop where
  phase : m'.phase = m.phase
  members : m'.members = m.members
  listed : ∀ urn member, (m'.imports.find? urn member).isSome = (m.imports.find? urn member).isSome
  applied : m'.imports.applied = true
  named : ∀ urn member i, m'.imports.find? urn member = some i →
    ∃ serial < m'.names.entries.length, i.name = some serial

theorem applied_of_applyImports {m m' : Module String} (h : exec applyImports m = (.ok (), m')) :
    Applied m m' := by
  cases hr : m.names.resolved with
  | false =>
    rw [exec_applyImports hr] at h
    obtain rfl := (Prod.mk.inj h).2
    refine ⟨rfl, rfl, fun urn member => ?_, rfl, fun urn member i hi => ?_⟩
    · exact Imports.isSome_find?_assign m.imports _ _ urn member
    · obtain ⟨serial, hlt, hname⟩ := Imports.exists_name_of_assign hi
      refine ⟨serial, ?_, hname⟩
      rw [List.length_append, List.length_map]
      exact hlt
  | true =>
    obtain ⟨hnone, rfl⟩ := applyImports_of_resolved hr h
    refine ⟨rfl, rfl, fun _ _ => rfl, rfl, fun urn member i hi => ?_⟩
    have hnot : m.imports.find? urn member = some i := hi
    rw [hnone] at hnot
    cases hnot

/-- What the resolution leaves of a module: every registration has a spelling. -/
structure Resolved (m m' : Module String) : Prop where
  phase : m'.phase = m.phase
  members : m'.members = m.members
  imports : m'.imports = m.imports
  length : m'.names.entries.length = m.names.entries.length
  resolved : m'.names.resolved = true
  spelled : ∀ serial < m'.names.entries.length, ∃ x, m'.names.token serial = .ok x

/-- A resolution that succeeds settles names that were not resolved before. -/
theorem settled_of_resolveNames {m m' : Module String} (h : exec resolveNames m = (.ok (), m')) :
    m.names.resolved = false ∧
      m' = { m with
        names := Names.ofSettled m.names.entries
        log := m.log ++ m.names.resolve.events } := by
  rw [exec_resolveNames_eq] at h
  cases he : m.names.resolve.error with
  | some e =>
    rw [he] at h
    cases h
  | none =>
    rw [he] at h
    rw [← Names.settled_of_resolve he]
    refine ⟨?_, (Prod.mk.inj h).2.symm⟩
    cases hr : m.names.resolved with
    | false => rfl
    | true => simp [Names.resolve, hr] at he

theorem resolved_of_resolveNames {m m' : Module String} (h : exec resolveNames m = (.ok (), m')) :
    Resolved m m' := by
  obtain ⟨-, rfl⟩ := settled_of_resolveNames h
  have hlength : (Names.ofSettled m.names.entries).entries.length = m.names.entries.length :=
    List.length_mapIdx
  refine ⟨rfl, rfl, rfl, hlength, rfl, fun serial hlt => ?_⟩
  change serial < (Names.ofSettled m.names.entries).entries.length at hlt
  rw [hlength] at hlt
  exact ⟨_, Names.token_ofSettled _ (List.getElem?_eq_getElem hlt)⟩

/-! ### Later states -/

/-- One step of a module behind the application of a member: an action of a script, which may
fail, or an event; and at the end of the application, and at that of the resolution, the step
to the next phase. -/
inductive Next : Module String → Module String → Prop where
  | act (bindings : List (Binding String)) (a : Action String) (m : Module String) :
      Next m (exec (perform bindings a) m).2
  | note (events : List Event) (m : Module String) : Next m { m with log := m.log ++ events }
  | apply {m m' : Module String} (hphase : m.phase = .applying)
      (h : exec applyImports m = (.ok (), m')) : Next m { m' with phase := .resolving }
  | resolve {m m' : Module String} (hphase : m.phase = .resolving)
      (h : exec resolveNames m = (.ok (), m')) : Next m { m' with phase := .rendering }

/-- The states that some steps lead to. -/
def Later : Module String → Module String → Prop :=
  Relation.ReflTransGen Next

/-- What a module that was applying has become. -/
structure Became (m m' : Module String) : Prop where
  phase : m'.phase.Working
  members : m'.members = m.members
  listed : ∀ urn member, (m.imports.find? urn member).isSome →
    (m'.imports.find? urn member).isSome
  applied : m'.phase ≠ .applying → m'.imports.applied = true ∧
    ∀ urn member i, m'.imports.find? urn member = some i →
      ∃ serial < m'.names.entries.length, i.name = some serial
  resolved : m'.phase = .rendering → m'.names.resolved = true ∧
    ∀ serial < m'.names.entries.length, ∃ x, m'.names.token serial = .ok x

theorem Became.refl {m : Module String} (hm : m.phase = .applying) : Became m m where
  phase := .inl hm
  members := rfl
  listed _ _ h := h
  applied h := absurd hm h
  resolved h := by simp [hm] at h

theorem Became.adds {m m' m'' : Module String} (h : Became m m') (ha : Adds m' m'') :
    Became m m'' where
  phase := ha.phase ▸ h.phase
  members := (ha.members h.phase.ne_created).trans h.members
  listed urn member hi := ha.listed urn member (h.listed urn member hi)
  applied hp := by
    obtain ⟨happlied, hnamed⟩ := h.applied (ha.phase ▸ hp)
    rw [ha.imports happlied]
    refine ⟨happlied, fun urn member i hi => ?_⟩
    obtain ⟨serial, hlt, hname⟩ := hnamed urn member i hi
    exact ⟨serial, Nat.lt_of_lt_of_le hlt ha.length, hname⟩
  resolved hp := by
    have hresolved := h.resolved (ha.phase ▸ hp)
    rwa [ha.names hresolved.1]

theorem Became.next {m m' m'' : Module String} (h : Became m m') (hn : Next m' m'') :
    Became m m'' := by
  cases hn with
  | act bindings a => exact h.adds (adds_perform bindings a m')
  | note events => exact h.adds (.of_eq rfl rfl rfl rfl)
  | @apply _ u hphase happly =>
    have ha := applied_of_applyImports happly
    exact
      { phase := .inr (.inl rfl)
        members := ha.members.trans h.members
        listed := fun urn member hi => (ha.listed urn member).trans (h.listed urn member hi)
        applied := fun _ => ⟨ha.applied, ha.named⟩
        resolved := fun hp => by cases hp }
  | @resolve _ u hphase hresolve =>
    have hr := resolved_of_resolveNames hresolve
    obtain ⟨happlied, hnamed⟩ := h.applied (by simp [hphase])
    exact
      { phase := .inr (.inr rfl)
        members := hr.members.trans h.members
        listed := by
          show ∀ urn member, _ → (u.imports.find? urn member).isSome
          rw [hr.imports]
          exact h.listed
        applied := fun _ => by
          show u.imports.applied = true ∧ ∀ urn member i, u.imports.find? urn member = some i →
            ∃ serial < u.names.entries.length, i.name = some serial
          rw [hr.imports, hr.length]
          exact ⟨happlied, hnamed⟩
        resolved := fun _ => ⟨hr.resolved, hr.spelled⟩ }

/-- The run lemma: whatever happens to a module that was applying, it is as its phase says. -/
theorem Later.became {m m' : Module String} (h : Later m m') (hm : m.phase = .applying) :
    Became m m' := by
  induction h with
  | refl => exact .refl hm
  | tail _ hnext ih => exact ih.next hnext

/-- In a module that renders, every import has a spelling. -/
theorem Became.exists_spelling {m m' : Module String} (h : Became m m')
    (hp : m'.phase = .rendering) {source : Source String} {member : String}
    (hi : (m.imports.find? source.identity member).isSome) :
    ∃ i x, m'.imports.find? source.identity member = some i ∧ i.token m'.names = .ok x ∧
      m'.spell (.imported source member) = .ok x := by
  obtain ⟨i, hfind⟩ := Option.isSome_iff_exists.mp (h.listed _ _ hi)
  obtain ⟨serial, hlt, hname⟩ := (h.applied (by simp [hp])).2 _ _ i hfind
  obtain ⟨x, hx⟩ := (h.resolved hp).2 serial hlt
  have htoken : i.token m'.names = .ok x := by
    rw [Import.token, hname]
    exact hx
  refine ⟨i, x, hfind, htoken, ?_⟩
  rw [spell, Source.urn_eq, Traversal.ok_bind, read, hfind]
  exact htoken

/-- Readings and spellings are a matter of the tables alone. -/
theorem read_eq_of_tables {m m' : Module String} (hn : m'.names = m.names)
    (hi : m'.imports = m.imports) : m'.read = m.read := by
  funext b
  cases b <;> simp only [read, hn, hi]

theorem spell_eq_of_tables {m m' : Module String} (hn : m'.names = m.names)
    (hi : m'.imports = m.imports) : m'.spell = m.spell := by
  funext symbol
  cases symbol <;> simp only [spell, read_eq_of_tables hn hi]

/-- A module that goes on rendering, with the tables that it has. -/
structure Stands (m m' : Module String) : Prop where
  phase : m'.phase = .rendering
  names : m'.names = m.names
  imports : m'.imports = m.imports

/-- Nothing that happens to a module that renders changes its tables, once they are closed. -/
theorem stands_of_later {m m' : Module String} (hp : m.phase = .rendering)
    (ha : m.imports.applied = true) (hr : m.names.resolved = true) (h : Later m m') :
    Stands m m' := by
  induction h with
  | refl => exact ⟨hp, rfl, rfl⟩
  | @tail u _ _ hnext ih =>
    cases hnext with
    | act bindings a =>
      have hadds := adds_perform bindings a u
      exact
        { phase := hadds.phase.trans ih.phase
          names := (hadds.names (by rwa [ih.names])).trans ih.names
          imports := (hadds.imports (by rwa [ih.imports])).trans ih.imports }
    | note events => exact ⟨ih.phase, ih.names, ih.imports⟩
    | apply hphase => simp [ih.phase] at hphase
    | resolve hphase => simp [ih.phase] at hphase

/-- Nothing that happens to a module that renders changes a spelling. -/
theorem Later.stands {m m' m'' : Module String} (hm : m.phase = .applying) (h : Later m m')
    (hp : m'.phase = .rendering) (h' : Later m' m'') : Stands m' m'' := by
  have hbecame := h.became hm
  exact stands_of_later hp (hbecame.applied (by simp [hp])).1 (hbecame.resolved hp).1 h'

/-! ### The turn of a member -/

instance : IsPreorder (Module String) Later :=
  inferInstanceAs (IsPreorder (Module String) (Relation.ReflTransGen Next))

theorem later_perform (bindings : List (Binding String)) (a : Action String) :
    Within Later (perform bindings a) :=
  fun m => .single (.act bindings a m)

theorem later_applyMember (member : Member String) : Within Later (applyMember member) := by
  cases member with
  | script actions parts =>
    exact within_foldlM (fun bindings a => (later_perform bindings a).bind fun _ => within_pure _)
      actions []

theorem later_renderPart (ctx : Context String) (bindings : List (Binding String))
    (part : Part String) : Within Later (renderPart ctx bindings part) := by
  cases part with
  | piece p => exact within_get.bind fun m => (within_liftExcept _).bind fun _ => within_pure _
  | binding index => exact later_perform bindings (.read index)
  | action a => exact later_perform bindings a

theorem later_renderMember (ctx : Context String) (bindings : List (Binding String))
    (member : Member String) : Within Later (renderMember ctx bindings member) := by
  cases member with
  | script actions parts =>
    exact (within_foldlM (fun _ part => (later_renderPart ctx _ part).bind fun _ => within_pure _)
      parts (bindings, [])).bind fun _ => (within_liftExcept _).bind fun _ => within_pure _

theorem later_importBlock (ctx : Context String) : Within Later (importBlock ctx) := by
  have hnote : ∀ events, Within Later (note events : Op (Module String) Unit) :=
    fun events m => .single (.note events m)
  have hlocate : Within Later (locateImports ctx) :=
    within_get.bind fun m => within_mapM (fun imported =>
      ((within_liftExcept _).bind fun events => (hnote events).bind fun _ =>
        within_liftExcept _).bind fun _ => within_pure _) _
  exact hlocate.bind fun _ => within_get.bind fun _ => within_liftExcept _

/-- While a member is applied, its module keeps applying. -/
theorem phase_of_applyMember {m m' : Module String} {member : Member String}
    {kept : List (Binding String)} (hm : m.phase = .applying)
    (h : exec (applyMember member) m = (.ok kept, m')) : m'.phase = .applying := by
  have hstays := (isClient_scripts.apply member).keeps m (by simp [hm])
  change Stays m (exec (applyMember member) m).2 at hstays
  rw [h] at hstays
  exact hstays.1.trans hm

theorem phase_of_applyMembers {m m' : Module String} {members : List (Member String)}
    {kept : List (List (Binding String))} (hm : m.phase = .applying)
    (h : exec (members.mapM applyMember) m = (.ok kept, m')) : m'.phase = .applying := by
  induction members generalizing m kept with
  | nil =>
    obtain rfl := (Prod.mk.inj h).2
    exact hm
  | cons member rest ih =>
    rw [List.mapM_cons] at h
    obtain ⟨_, t, hmember, h⟩ := exec_bind_eq_ok h
    obtain ⟨ks, u, hrest, h⟩ := exec_bind_eq_ok h
    obtain rfl := (Prod.mk.inj h).2
    exact ih (phase_of_applyMember hm hmember) hrest

/-- The work of a module that gives its texts: its members are applied, it settles, and its block
and its members are written. -/
theorem course_of_workBy {ctx : Context String} {m t : Module String} {fs : List String}
    (hm : m.phase = .applying) (h : exec (workBy scripts ctx) m = (.ok fs, t)) :
    ∃ kept applied opened block written texts,
      exec (m.members.mapM applyMember) m = (.ok kept, applied) ∧
      Later applied opened ∧ opened.phase = .rendering ∧
      exec (importBlock ctx) opened = (.ok block, written) ∧
      exec ((m.members.zip kept).mapM fun pair => renderMember ctx pair.2 pair.1) written =
        (.ok texts, t) ∧
      fs = block :: texts := by
  rw [workBy_eq] at h
  obtain ⟨turns, opened, hopen, h⟩ := exec_bind_eq_ok h
  obtain ⟨kept, applied, named, settled, hopens, rfl, rfl⟩ := opens_of_openBy hopen
  obtain ⟨block, written, hblock, h⟩ := exec_bind_eq_ok h
  obtain ⟨texts, t', htexts, h⟩ := exec_bind_eq_ok h
  obtain ⟨rfl, rfl⟩ : block :: texts = fs ∧ t' = t := by simpa using h
  have happly : exec (m.members.mapM applyMember) m = (.ok kept, applied) := hopens.apply
  have hlater : Later m applied := by
    have hwithin : Within Later (m.members.mapM applyMember) :=
      within_mapM later_applyMember m.members
    simpa only [happly] using hwithin m
  have hmembers : settled.members = m.members := by
    rw [(resolved_of_resolveNames hopens.resolve).members,
      (applied_of_applyImports hopens.register).members]
    exact (hlater.became hm).members
  rw [hmembers] at htexts
  have hresolving : Later applied { named with phase := .resolving } :=
    .single (.apply (phase_of_applyMembers hm happly) hopens.register)
  have hopened : Later applied { settled with phase := .rendering } :=
    hresolving.tail (.resolve rfl hopens.resolve)
  exact ⟨kept, applied, _, block, written, texts, happly, hopened.tail (.note _ _), rfl, hblock,
    htexts, rfl⟩

theorem workBy_of_fragments {ctx : Context String} {m mₑ : Module String} {fs : List String}
    (h : exec (fragments ctx) m = (.ok fs, mₑ)) :
    ∃ t, exec (workBy scripts ctx) { m with phase := .applying } = (.ok fs, t) ∧
      mₑ = { t with phase := .done } := by
  have hfragments := exec_fragmentsBy scripts ctx m
  have hrun : exec (runPhasesBy scripts ctx) m =
    exec (workBy scripts ctx) { m with phase := .applying } := exec_bind_of_ok rfl _
  change exec (fragments ctx) m = _ at hfragments
  rw [h, hrun] at hfragments
  split at hfragments
  next =>
    rcases hwork : exec (workBy scripts ctx) { m with phase := .applying } with ⟨e | fs', t⟩
    · rw [hwork] at hfragments
      cases hfragments
    · rw [hwork] at hfragments
      obtain ⟨rfl, rfl⟩ : fs = fs' ∧ mₑ = { t with phase := .done } := by simpa using hfragments
      exact ⟨t, rfl, rfl⟩
  next => cases hfragments

/-- The run of a module that gives its texts, seen at one of its members: the member is applied
and later rendered, to the text at its place. -/
theorem turn_of_fragments {ctx : Context String} {m mₑ : Module String}
    {before after : List (Member String)} {member : Member String} {fs : List String}
    (hm : m.members = before ++ member :: after)
    (h : exec (fragments ctx) m = (.ok fs, mₑ)) :
    ∃ m₁ kept m₂ m₃ text m₄, m₁.phase = .applying ∧
      exec (applyMember member) m₁ = (.ok kept, m₂) ∧ Later m₂ m₃ ∧ m₃.phase = .rendering ∧
      exec (renderMember ctx kept member) m₃ = (.ok text, m₄) ∧
      fs[before.length + 1]? = some text ∧ ∃ m₅, Later m₄ m₅ ∧ mₑ = { m₅ with phase := .done } := by
  obtain ⟨t, hwork, rfl⟩ := workBy_of_fragments h
  obtain ⟨kept, applied, opened, block, written, texts, happly, hopened, hphase, hblock, htexts,
    rfl⟩ := course_of_workBy rfl hwork
  change exec (m.members.mapM applyMember) _ = _ at happly
  change exec ((m.members.zip kept).mapM _) _ = _ at htexts
  rw [hm] at happly htexts
  -- the turn of the member among those that are applied, and among those that are rendered
  obtain ⟨ks₁, k, ks₂, m₁, m₂, rfl, hlen, hbefore, hmember, hafter⟩ := exec_mapM_split happly
  rw [List.zip_append hlen.symm, List.zip_cons_cons] at htexts
  obtain ⟨xs₁, text, xs₂, m₃, m₄, rfl, hlen', hwritten, htext, hrest⟩ := exec_mapM_split htexts
  have hm₁ : m₁.phase = .applying := phase_of_applyMembers rfl hbefore
  have hm₂ : m₂.phase = .applying := phase_of_applyMember hm₁ hmember
  have happlied : Later m₂ opened := by
    have hwithin := within_mapM later_applyMember after m₂
    rw [hafter] at hwithin
    exact hwithin.trans hopened
  have hrender : ∀ pair : Member String × List (Binding String),
      Within Later (renderMember ctx pair.2 pair.1) :=
    fun pair => later_renderMember ctx pair.2 pair.1
  have hturn : Later opened m₃ := by
    have hopening := later_importBlock ctx opened
    have hwithin := within_mapM hrender (before.zip ks₁) written
    rw [hblock] at hopening
    rw [hwritten] at hwithin
    exact hopening.trans hwithin
  have hend : Later m₄ t := by
    have hwithin := within_mapM hrender (after.zip ks₂) m₄
    rwa [hrest] at hwithin
  have hplace : (block :: (xs₁ ++ text :: xs₂))[before.length + 1]? = some text := by
    have hcount : before.length = xs₁.length := by
      rw [hlen', List.length_zip, hlen, Nat.min_self]
    rw [List.getElem?_cons_succ, List.getElem?_append_right (by omega), hcount, Nat.sub_self]
    rfl
  exact ⟨m₁, k, m₂, m₃, text, m₄, hm₁, hmember, happlied.trans hturn,
    (happlied.stands hm₂ hphase hturn).phase, htext, hplace, t, hend, rfl⟩

end Module

end ApiTypes
