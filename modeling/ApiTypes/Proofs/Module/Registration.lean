import ApiTypes.Proofs.Import.Queue
import ApiTypes.Proofs.Module.Plain
import ApiTypes.Proofs.Name.Additions

/-! Registration. Plain members are applied without failure exactly if no identifier is
declared twice, and else the first repeated declaration is reported. What they leave is
the module after all of their requests; applying the import table then adds one
registration for each import of the queue. -/

namespace ApiTypes

open Op

namespace Module

variable {m : Module String}

theorem exec_expect (h : m.phase = .applying) (action : String) :
    exec (expect .applying action) m = (.ok (), m) := by
  rw [exec_expect_eq, if_pos h]

/-! ### Requests -/

/-- A table that is not applied yet takes every use. -/
theorem exec_useImport (ha : m.imports.applied = false) (u : Use) :
    exec (useImport u.source u.member u.localName u.typeOnly) m =
      (.ok (.member u.source.identity u.member), { m with imports := m.imports.record u }) := by
  have hmember : (((m.imports.record u).find? u.source.identity u.member).map
      (·.member)).getD u.member = u.member := by
    cases hf : (m.imports.record u).find? u.source.identity u.member with
    | none => rfl
    | some i => exact Imports.member_of_find? hf
  rw [useImport, exec_bind_of_ok (exec_get m), Imports.use_eq ha]
  simp only [exec_bind, exec_set, exec_liftExcept, exec_pure, hmember]

theorem exec_request (hm : m.Accepting) {r : Request String} (hr : r.IsPlain)
    (hd : ∀ x, r.declared? = some x → x ∉ Names.declaredIn m.names.entries) :
    exec (request r) m = (.ok (r.binding m.names.entries.length), m.after [r]) := by
  cases r with
  | lookup x => rw [after_lookup]; rfl
  | name x usage =>
    have hu : usage = .declaration := hr
    subst hu
    have ha := Names.add_eq hm.names x .declaration
    rw [if_neg fun h => hd x rfl h.2] at ha
    rw [request, exec_bind_of_ok (exec_expect hm.phase _), exec_addName_eq, ha]
    rfl
  | useMember source member localName typeOnly =>
    rw [request, exec_bind_of_ok (exec_expect hm.phase _),
      exec_useImport hm.imports ⟨source, member, localName, typeOnly⟩, ← after_useMember]
    rfl

theorem exec_request_repeated (hm : m.Accepting) {r : Request String} (hr : r.IsPlain) {x : String}
    (hd : r.declared? = some x) (hx : x ∈ Names.declaredIn m.names.entries) :
    (exec (request r) m).1 = .error (.ofCause (.duplicateDeclaration (.text x))) := by
  cases r with
  | lookup _ => cases hd
  | useMember _ _ _ _ => cases hd
  | name y usage =>
    obtain rfl : y = x := Option.some.inj hd
    have hu : usage = .declaration := hr
    subst hu
    have ha := Names.add_eq hm.names y .declaration
    rw [if_pos ⟨rfl, hx⟩] at ha
    rw [request, exec_bind_of_ok (exec_expect hm.phase _), exec_addName_eq, ha]

/-! ### Members -/

/-- One request of a member, with the bindings that it had so far. -/
def applyAction (bindings : List (Binding String)) (a : Action String) :
    Op (Module String) (List (Binding String)) := do
  return (← perform bindings a).1

theorem exec_applyAction (hm : m.Accepting) {r : Request String} (hr : r.IsPlain)
    (hd : ∀ x, r.declared? = some x → x ∉ Names.declaredIn m.names.entries)
    (bindings : List (Binding String)) :
    exec (applyAction bindings (.request r)) m =
      (.ok (bindings ++ [r.binding m.names.entries.length]), m.after [r]) := by
  rw [applyAction, perform, exec_bind, exec_bind_of_ok (exec_request hm hr hd)]
  rfl

theorem exec_actions (hm : m.Accepting) {rs : List (Request String)} (hr : ∀ r ∈ rs, r.IsPlain)
    (hd : firstRepeated? (Names.declaredIn m.names.entries) (declaredBy rs) = none)
    (bindings : List (Binding String)) :
    exec ((rs.map .request).foldlM applyAction bindings) m =
      (.ok (bindings ++ bindingsFrom m.names.entries.length rs), m.after rs) := by
  induction rs generalizing m bindings with
  | nil => rw [after_nil, bindingsFrom, List.append_nil]; rfl
  | cons r rest ih =>
    rw [firstRepeated?_declaredBy_cons, Option.or_eq_none_iff] at hd
    have hx : ∀ x, r.declared? = some x → x ∉ Names.declaredIn m.names.entries := by
      intro x hx
      have hf := hd.1
      rw [hx] at hf
      simpa using hf
    rw [← declaredIn_after] at hd
    rw [List.map_cons, List.foldlM_cons,
      exec_bind_of_ok (exec_applyAction hm (hr r List.mem_cons_self) hx bindings),
      ih (hm.after [r]) (fun r' h' => hr r' (List.mem_cons_of_mem _ h')) hd.2, after_append,
      length_after, declaredBy_singleton, bindingsFrom, List.append_assoc]
    rfl

theorem exec_actions_repeated (hm : m.Accepting) {rs : List (Request String)}
    (hr : ∀ r ∈ rs, r.IsPlain) {x : String}
    (hd : firstRepeated? (Names.declaredIn m.names.entries) (declaredBy rs) = some x)
    (bindings : List (Binding String)) :
    (exec ((rs.map .request).foldlM applyAction bindings) m).1 =
      .error (.ofCause (.duplicateDeclaration (.text x))) := by
  induction rs generalizing m bindings with
  | nil => cases hd
  | cons r rest ih =>
    have hplain := hr r List.mem_cons_self
    have hrest : ∀ r' ∈ rest, r'.IsPlain := fun r' h' => hr r' (List.mem_cons_of_mem _ h')
    rw [List.map_cons, List.foldlM_cons]
    rw [firstRepeated?_declaredBy_cons] at hd
    cases hf : r.declared?.filter fun y => y ∈ Names.declaredIn m.names.entries with
    | some y =>
      -- the request itself repeats a declaration, so it is the first to do so
      rw [hf] at hd
      obtain rfl : y = x := Option.some.inj hd
      obtain ⟨hy, hmem⟩ := Option.filter_eq_some_iff.mp hf
      refine exec_bind_of_error ?_ _
      rw [applyAction, perform]
      exact exec_bind_of_error (exec_bind_of_error
        (exec_request_repeated hm hplain hy (of_decide_eq_true hmem)) _) _
    | none =>
      rw [hf, Option.none_or, ← declaredIn_after] at hd
      have hx : ∀ y, r.declared? = some y → y ∉ Names.declaredIn m.names.entries := by
        intro y hy
        rw [hy] at hf
        simpa using hf
      rw [exec_bind_of_ok (exec_applyAction hm hplain hx bindings)]
      exact ih (hm.after [r]) hrest hd _

theorem applyMember_eq (member : Member String) :
    applyMember member = member.actions.foldlM applyAction [] := by
  cases member
  rfl

theorem exec_applyMember (hm : m.Accepting) {member : Member String} (h : member.IsPlain)
    (hd : firstRepeated? (Names.declaredIn m.names.entries) (declaredBy member.requests) = none) :
    exec (applyMember member) m =
      (.ok (bindingsFrom m.names.entries.length member.requests), m.after member.requests) := by
  rw [applyMember_eq, h.actions_eq, exec_actions hm h.requests_plain hd, List.nil_append]

theorem exec_applyMember_repeated (hm : m.Accepting) {member : Member String} (h : member.IsPlain)
    {x : String}
    (hd : firstRepeated? (Names.declaredIn m.names.entries) (declaredBy member.requests) = some x) :
    (exec (applyMember member) m).1 = .error (.ofCause (.duplicateDeclaration (.text x))) := by
  rw [applyMember_eq, h.actions_eq]
  exact exec_actions_repeated hm h.requests_plain hd []

theorem exec_applyMembers (hm : m.Accepting) {ms : List (Member String)}
    (h : ∀ member ∈ ms, member.IsPlain)
    (hd : firstRepeated? (Names.declaredIn m.names.entries) (declaredBy (requestsOf ms)) = none) :
    exec (ms.mapM applyMember) m =
      (.ok (memberBindings m.names.entries.length ms), m.after (requestsOf ms)) := by
  induction ms generalizing m with
  | nil => rw [requestsOf, List.flatMap_nil, after_nil]; rfl
  | cons member rest ih =>
    rw [requestsOf, List.flatMap_cons, declaredBy_append, firstRepeated?_append,
      Option.or_eq_none_iff, ← declaredIn_after] at hd
    have hr := ih (hm.after member.requests) (fun a ha => h a (List.mem_cons_of_mem _ ha)) hd.2
    rw [List.mapM_cons, exec_bind_of_ok (exec_applyMember hm (h member List.mem_cons_self) hd.1),
      exec_bind_of_ok hr, length_after, after_append]
    rfl

theorem exec_applyMembers_repeated (hm : m.Accepting) {ms : List (Member String)}
    (h : ∀ member ∈ ms, member.IsPlain) {x : String}
    (hd : firstRepeated? (Names.declaredIn m.names.entries) (declaredBy (requestsOf ms)) = some x) :
    (exec (ms.mapM applyMember) m).1 = .error (.ofCause (.duplicateDeclaration (.text x))) := by
  induction ms generalizing m with
  | nil => cases hd
  | cons member rest ih =>
    rw [requestsOf, List.flatMap_cons, declaredBy_append, firstRepeated?_append,
      ← declaredIn_after] at hd
    have hmember := h member List.mem_cons_self
    rw [List.mapM_cons]
    cases hf : firstRepeated? (Names.declaredIn m.names.entries) (declaredBy member.requests) with
    | some y =>
      rw [hf] at hd
      obtain rfl : y = x := Option.some.inj hd
      exact exec_bind_of_error (exec_applyMember_repeated hm hmember hf) _
    | none =>
      rw [hf, Option.none_or] at hd
      rw [exec_bind_of_ok (exec_applyMember hm hmember hf)]
      refine exec_bind_of_error ?_ _
      exact ih (hm.after member.requests) (fun a ha => h a (List.mem_cons_of_mem _ ha)) hd

/-! ### The import table -/

/-- The registration that an import asks for. -/
def importName (e : String × Import String) : Name String :=
  { identifier := e.2.identifier, usage := .imported }

/-- The module after the registration of one import. -/
def register (m : Module String) (e : String × Import String) : Module String :=
  { m with
    names := { m.names with entries := m.names.entries ++ [importName e] }
    imports := m.imports.setName e.1 e.2.member m.names.entries.length }

theorem foldl_register (m : Module String) (q : List (String × Import String)) :
    q.foldl register m =
      { m with
        names := { m.names with entries := m.names.entries ++ q.map importName }
        imports := m.imports.assign m.names.entries.length q } := by
  induction q generalizing m with
  | nil => simp [Imports.assign]
  | cons e rest ih =>
    rw [List.foldl_cons, ih]
    simp [register, Imports.assign]

theorem exec_applyImport (hr : m.names.resolved = false) (e : String × Import String) :
    exec (applyImport e.1 e.2) m = (.ok (), m.register e) := by
  have ha := Names.add_eq hr e.2.identifier .imported
  rw [if_neg fun h => nomatch h.1] at ha
  rw [exec_applyImport_eq, ha]
  rfl

/-- The import table is applied along its queue. -/
theorem applyImports_eq :
    applyImports = (do
      let m ← get
      m.imports.queue.forM fun e => applyImport e.1 e.2
      modify fun m => { m with imports := { m.imports with applied := true } } :
        Op (Module String) Unit) := by
  have hmodule : ∀ i : ImportedModule String,
      (do (← liftExcept i.sorted).forM (applyImport i.urn) : Op (Module String) Unit) =
        (i.ranked.map fun e => (i.urn, e)).forM fun e => applyImport e.1 e.2 := by
    intro i
    rw [ImportedModule.sorted_eq]
    show i.ranked.forM (applyImport i.urn) = forM (i.ranked.map fun e => (i.urn, e)) _
    rw [List.forM_map]
    rfl
  simp only [applyImports, Imports.queue, forM_flatMap, hmodule]

theorem exec_applyImports (hr : m.names.resolved = false) :
    exec applyImports m =
      (.ok (),
        { m with
          names := { m.names with
            entries := m.names.entries ++ m.imports.queue.map importName }
          imports := { m.imports.assign m.names.entries.length m.imports.queue with
            applied := true } }) := by
  have hstep : ∀ m' : Module String, m'.names.resolved = false → ∀ e ∈ m.imports.queue,
      exec (applyImport e.1 e.2) m' = (.ok (), m'.register e) ∧
        (m'.register e).names.resolved = false :=
    fun m' hm' e _ => ⟨exec_applyImport hm' e, hm'⟩
  have hall := (exec_forM m.imports.queue hstep m hr).1
  rw [applyImports_eq, exec_bind_of_ok (exec_get m), exec_bind_of_ok hall, exec_modify,
    foldl_register]

end Module

end ApiTypes
