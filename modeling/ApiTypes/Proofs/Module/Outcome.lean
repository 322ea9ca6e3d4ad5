import ApiTypes.Proofs.Module.Settled

/-! The outcome of a rendering. A module of plain members fails with its first repeated
declaration if it has one. Otherwise all of its phases up to the texts succeed, and what
it renders is the import block of its demands and then the text of every member over one
spelling of symbols, so that only a text can fail. -/

namespace ApiTypes

open Op Traversal

/-- The import table of all uses that some members request. -/
def importsOf (ms : List (Member String)) : Imports String :=
  .recordAll {} (usesBy (requestsOf ms))

/-- The identifiers that some members declare. -/
def declarationsOf (ms : List (Member String)) : List String :=
  declaredBy (requestsOf ms)

namespace Module

/-- The spelling of symbols in a module of some members. -/
def spellOf (ms : List (Member String)) : Symbol String → Except Error String :=
  spellIn (declarationsOf ms) (importsOf ms)

/-- The import block of a module of some members. -/
def blockOf (ctx : Context String) (ms : List (Member String)) : String :=
  Statement.block ((importsOf ms).statementsIn ctx (declarationsOf ms))

variable {m : Module String} (ctx : Context String)

/-! ### Rendering members -/

theorem bindingAt?_map (bindings : List (Binding String)) (index : Int) :
    (bindingAt? bindings index).map m.read =
      if index < 0 then (bindings.map m.read).reverse[index.natAbs - 1]?
      else (bindings.map m.read)[index.toNat]? := by
  rw [bindingAt?]
  split
  · rw [← List.map_reverse, List.getElem?_map]
  · rw [List.getElem?_map]

theorem exec_renderPart {part : Part String} (h : part.IsPlain)
    (bindings : List (Binding String)) :
    exec (renderPart ctx bindings part) m =
      ((part.text ctx m.spell (bindings.map m.read)).map fun s => (bindings, s), m) := by
  cases part with
  | action a => exact h.elim
  | piece p =>
    rw [renderPart, exec_bind_of_ok (exec_get m), exec_bind, exec_liftExcept, Part.text]
    cases p.render ctx m.spell <;> rfl
  | binding index =>
    rw [renderPart, perform, exec_bind_of_ok (exec_get m), Part.text, ← bindingAt?_map]
    cases bindingAt? bindings index with
    | none => rfl
    | some b =>
      simp only [Option.map_some]
      rw [exec_bind, exec_liftExcept]
      cases m.read b <;> rfl

/-- One part of a member, with the bindings and the texts that are there. -/
def renderStep (state : List (Binding String) × List String) (part : Part String) :
    Op (Module String) (List (Binding String) × List String) := do
  let (bindings, label) ← renderPart ctx state.1 part
  return (bindings, state.2 ++ [label])

theorem exec_renderParts {parts : List (Part String)} (h : ∀ p ∈ parts, p.IsPlain)
    (bindings : List (Binding String)) (labels : List String) :
    exec (parts.foldlM (renderStep ctx) (bindings, labels)) m =
      ((parts.mapM (Part.text ctx m.spell (bindings.map m.read))).map fun texts =>
        (bindings, labels ++ texts), m) := by
  induction parts generalizing labels with
  | nil => simp [Except.map]
  | cons part rest ih =>
    rw [List.foldlM_cons, List.mapM_cons, exec_bind, renderStep, exec_bind,
      exec_renderPart ctx (h part List.mem_cons_self)]
    cases part.text ctx m.spell (bindings.map m.read) with
    | error e => rfl
    | ok s =>
      have hr := ih (fun p hp => h p (List.mem_cons_of_mem _ hp)) (labels ++ [s])
      simp only [Except.map, exec_pure, ok_bind]
      rw [hr]
      cases rest.mapM (Part.text ctx m.spell (bindings.map m.read)) with
      | error e => rfl
      | ok texts => simp [Except.map]

theorem renderMember_eq (bindings : List (Binding String)) (member : Member String) :
    renderMember ctx bindings member = do
      let state ← member.parts.foldlM (renderStep ctx) (bindings, [])
      return String.join (← liftExcept (state.2.mapM Label.requireText)) := by
  cases member
  rfl

theorem exec_renderMember {member : Member String} (h : member.IsPlain)
    {bindings : List (Binding String)}
    (hb : bindings.map m.read = member.requests.map fun r => m.spell r.symbol) :
    exec (renderMember ctx bindings member) m = (member.text ctx m.spell, m) := by
  rw [renderMember_eq, exec_bind, exec_renderParts ctx h.parts, Member.text, hb]
  cases member.parts.mapM (Part.text ctx m.spell (member.requests.map fun r => m.spell r.symbol)) with
  | error e => rfl
  | ok texts =>
    show exec (do return String.join (← liftExcept (texts.mapM Label.requireText))) m = _
    rw [Label.mapM_requireText]
    rfl

/-- Bindings read as the symbols that were requested, if the names among them do. -/
theorem map_read_bindingsFrom {serial : Nat} {rs : List (Request String)}
    (h : ∀ j x, (declaredBy rs)[j]? = some x →
      m.names.token (serial + j) = m.read (.lookup x)) :
    (bindingsFrom serial rs).map m.read = rs.map fun r => m.spell r.symbol := by
  induction rs generalizing serial with
  | nil => rfl
  | cons r rest ih =>
    rw [bindingsFrom, List.map_cons, List.map_cons]
    rw [declaredBy_cons] at h
    have hn : ∀ j x, (declaredBy rest)[j]? = some x →
        m.names.token (serial + r.declared?.toList.length + j) = m.read (.lookup x) := by
      intro j x hj
      rw [Nat.add_assoc]
      exact h _ x (by rw [List.getElem?_append_right (by omega), Nat.add_sub_cancel_left, hj])
    rw [ih hn]
    congr 1
    cases r with
    | name x usage => exact h 0 x rfl
    | useMember source member _ _ =>
      show m.read _ = (do m.read (.member (← source.urn) member))
      rw [Source.urn_eq]
      rfl
    | lookup x => rfl

theorem exec_renderMembers {ms : List (Member String)} (h : ∀ member ∈ ms, member.IsPlain)
    {serial : Nat}
    (hn : ∀ j x, (declarationsOf ms)[j]? = some x →
      m.names.token (serial + j) = m.read (.lookup x)) :
    exec ((ms.zip (memberBindings serial ms)).mapM fun (member, bound) =>
        renderMember ctx bound member) m =
      (ms.mapM (Member.text ctx m.spell), m) := by
  induction ms generalizing serial with
  | nil => rfl
  | cons member rest ih =>
    rw [declarationsOf, requestsOf, List.flatMap_cons, declaredBy_append] at hn
    have hfirst : ∀ j x, (declaredBy member.requests)[j]? = some x →
        m.names.token (serial + j) = m.read (.lookup x) := by
      intro j x hj
      exact hn j x (by rw [List.getElem?_append_left (List.getElem?_eq_some_iff.mp hj).1, hj])
    have hlater : ∀ j x, (declarationsOf rest)[j]? = some x →
        m.names.token (serial + (declaredBy member.requests).length + j) =
          m.read (.lookup x) := by
      intro j x hj
      rw [Nat.add_assoc]
      refine hn _ x ?_
      rw [List.getElem?_append_right (by omega), Nat.add_sub_cancel_left]
      exact hj
    have hb := map_read_bindingsFrom hfirst
    have hrest := ih (fun a ha => h a (List.mem_cons_of_mem _ ha)) hlater
    rw [memberBindings, List.zip_cons_cons, List.mapM_cons, List.mapM_cons, exec_bind]
    simp only
    rw [exec_renderMember ctx (h member List.mem_cons_self) hb]
    cases member.text ctx m.spell with
    | error e => rfl
    | ok s =>
      simp only [ok_bind]
      rw [exec_bind, hrest]
      cases rest.mapM (Member.text ctx m.spell) <;> rfl

/-! ### The phases -/

/-- A module of some members, before it renders. -/
def ofMembers (path : String) (ms : List (Member String)) : Module String :=
  { path, members := ms }

/-- The module of some members as it is while it applies them. -/
def applying (path : String) (ms : List (Member String)) : Module String :=
  { path, members := ms, phase := .applying }

theorem accepting_applying (path : String) (ms : List (Member String)) :
    (applying path ms).Accepting :=
  ⟨rfl, rfl, rfl⟩

theorem exec_setPhase (phase : Phase) (m : Module String) :
    exec (setPhase phase) m = (.ok (), { m with phase }) := rfl

theorem exec_resolveNames (hr : m.names.resolved = false)
    (hf : ∀ n ∈ m.names.entries, n.spelling = none) :
    ∃ log, exec resolveNames m =
      (.ok (), { m with names := Names.ofSettled m.names.entries, log }) := by
  obtain ⟨he, hn⟩ := Names.resolve_eq m.names hr hf
  rw [exec_resolveNames_eq, he, hn]
  exact ⟨_, rfl⟩

theorem exec_runPhases_repeated (path : String) {ms : List (Member String)}
    (h : ∀ member ∈ ms, member.IsPlain) {x : String}
    (hx : firstRepeated? [] (declarationsOf ms) = some x) :
    (exec (runPhases ctx) (ofMembers path ms)).1 =
      .error (.ofCause (.duplicateDeclaration (.text x))) := by
  have ha := exec_applyMembers_repeated (accepting_applying path ms) h hx
  rw [runPhases, exec_bind_of_ok (exec_setPhase ..), exec_bind_of_ok (exec_get _)]
  exact exec_bind_of_error ha _

/-- The names of a module that is applied have no spellings yet. -/
theorem spelling_registrations (declared : List String) (t : Imports String) :
    ∀ n ∈ registrations declared t, n.spelling = none := by
  intro n hn
  rcases List.mem_append.mp hn with hd | hi
  · obtain ⟨x, -, rfl⟩ := List.mem_map.mp hd
    rfl
  · obtain ⟨e, -, rfl⟩ := List.mem_map.mp hi
    rfl

theorem exec_runPhases (path : String) {ms : List (Member String)}
    (h : ∀ member ∈ ms, member.IsPlain) (hd : (declarationsOf ms).Nodup) :
    ∃ m : Module String, m.Settled (declarationsOf ms) (importsOf ms) ∧
      exec (runPhases ctx) (ofMembers path ms) =
        (do return blockOf ctx ms :: (← ms.mapM (Member.text ctx (spellOf ms))), m) := by
  have hnone := (firstRepeated?_eq_none_iff List.nodup_nil (declarationsOf ms)).mpr hd
  have happly := exec_applyMembers (accepting_applying path ms) h hnone
  -- the registrations of the members, and then those of their imports
  let applied : Module String := (applying path ms).after (requestsOf ms)
  have hentries : applied.names.entries ++ applied.imports.queue.map importName =
      registrations (declarationsOf ms) (importsOf ms) := rfl
  have hlength : applied.names.entries.length = (declarationsOf ms).length :=
    List.length_map _
  have himports := exec_applyImports (m := applied) rfl
  rw [hentries, hlength] at himports
  let imported : Module String := { applied with
    phase := .resolving
    names := { entries := registrations (declarationsOf ms) (importsOf ms) }
    imports := { (importsOf ms).assign (declarationsOf ms).length (importsOf ms).queue with
      applied := true } }
  obtain ⟨log, hresolve⟩ :=
    exec_resolveNames (m := imported) rfl (spelling_registrations _ _)
  let resolved (log : List Event) : Module String := { imported with
    phase := .rendering
    names := Names.ofSettled (registrations (declarationsOf ms) (importsOf ms)), log }
  have hsettled : ∀ log, (resolved log).Settled (declarationsOf ms) (importsOf ms) := fun log =>
    ⟨hd, Imports.keyed_recordAll _, rfl, rfl⟩
  let assembled : Event := .assembled path ms.length imported.imports.size
    (Names.ofSettled (registrations (declarationsOf ms) (importsOf ms))).size
  obtain ⟨log', hblock⟩ := (hsettled (log ++ [assembled])).exec_importBlock ctx
  have hnames : ∀ j x, (declarationsOf ms)[j]? = some x →
      (resolved log').names.token (0 + j) = (resolved log').read (.lookup x) := by
    intro j x hj
    rw [Nat.zero_add, (hsettled log').token_declared hj, (hsettled log').read_lookup, spellIn,
      if_pos (List.mem_of_getElem? hj)]
  have htexts := exec_renderMembers ctx h hnames
  rw [(hsettled log').spell_eq] at htexts
  refine ⟨resolved log', hsettled log', ?_⟩
  rw [runPhases, exec_bind_of_ok (exec_setPhase ..), exec_bind_of_ok (exec_get _)]
  refine (exec_bind_of_ok happly _).trans ?_
  refine (exec_bind_of_ok himports _).trans ?_
  refine (exec_bind_of_ok (exec_setPhase ..) _).trans ?_
  refine (exec_bind_of_ok hresolve _).trans ?_
  refine (exec_bind_of_ok (exec_get _) _).trans ?_
  refine (exec_bind_of_ok (exec_modify ..) _).trans ?_
  refine (exec_bind_of_ok (exec_setPhase ..) _).trans ?_
  refine (exec_bind_of_ok hblock _).trans ?_
  exact exec_bind_pure htexts _

/-- A rendering runs its phases and notes how they ended. -/
theorem exec_fragments_eq (hm : m.phase = .created) :
    exec (fragments ctx) m =
      match exec (runPhases ctx) m with
      | (.ok texts, t) => (.ok texts, { t with phase := .done })
      | (.error e, t) => (.error e, { t with phase := .failed }) := by
  have he : exec (expect .created "render") m = (.ok (), m) := by
    rw [expect, exec_bind_of_ok (exec_get m), hm]
    rfl
  rw [fragments, exec_bind_of_ok he, exec_bind, exec_tryCatch, exec_bind]
  rcases exec (runPhases ctx) m with ⟨_ | _, t⟩ <;> rfl

/-! ### The outcome -/

/-- What a module of plain members renders to. -/
def outcome (ctx : Context String) (ms : List (Member String)) : Except Error (List String) :=
  match firstRepeated? [] (declarationsOf ms) with
  | some x => .error (.ofCause (.duplicateDeclaration (.text x)))
  | none => do return blockOf ctx ms :: (← ms.mapM (Member.text ctx (spellOf ms)))

theorem exec_fragments (path : String) {ms : List (Member String)}
    (h : ∀ member ∈ ms, member.IsPlain) :
    (exec (fragments ctx) (ofMembers path ms)).1 = outcome ctx ms := by
  have hphases : (exec (fragments ctx) (ofMembers path ms)).1 =
      (exec (runPhases ctx) (ofMembers path ms)).1 := by
    rw [exec_fragments_eq ctx rfl]
    rcases exec (runPhases ctx) (ofMembers path ms) with ⟨_ | _, t⟩ <;> rfl
  rw [hphases, outcome]
  cases hd : firstRepeated? [] (declarationsOf ms) with
  | some x => exact exec_runPhases_repeated ctx path h hd
  | none =>
    have hn := (firstRepeated?_eq_none_iff List.nodup_nil _).mp hd
    obtain ⟨m, -, hp⟩ := exec_runPhases ctx path h hn
    rw [hp]

theorem exec_render (m : Module String) :
    exec (render ctx) m =
      ((exec (fragments ctx) m).1.map joinFragments, (exec (fragments ctx) m).2) := by
  rw [render, exec_bind]
  rcases exec (fragments ctx) m with ⟨_ | _, t⟩ <;> rfl

/-- A module that has rendered is settled. -/
theorem settled_of_exec_fragments (path : String) {ms : List (Member String)}
    (h : ∀ member ∈ ms, member.IsPlain) {texts : List String}
    (hr : (exec (fragments ctx) (ofMembers path ms)).1 = .ok texts) :
    (exec (fragments ctx) (ofMembers path ms)).2.Settled (declarationsOf ms) (importsOf ms) := by
  have ho := (exec_fragments ctx path h).symm.trans hr
  rw [outcome] at ho
  cases hd : firstRepeated? [] (declarationsOf ms) with
  | some x => rw [hd] at ho; cases ho
  | none =>
    have hn := (firstRepeated?_eq_none_iff List.nodup_nil _).mp hd
    obtain ⟨m, hm, hp⟩ := exec_runPhases ctx path h hn
    rw [exec_fragments_eq ctx rfl, hp]
    cases ms.mapM (Member.text ctx (spellOf ms)) with
    | error e => exact ⟨hm.nodup, hm.keyed, hm.names, hm.imports⟩
    | ok texts => exact ⟨hm.nodup, hm.keyed, hm.names, hm.imports⟩

end Module

end ApiTypes
