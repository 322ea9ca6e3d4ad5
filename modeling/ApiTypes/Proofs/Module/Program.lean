import ApiTypes.Proofs.Module.Later

/-! Members whose code is a program. A program acts on its module again and again. It sees what
each action answers, also that one fails, and may look at the module in between, before it decides
how to go on. Its demands are the imports that it is granted on the way, each with the binding
that is handed out for it. However the program goes on and ends, the import table takes in its
demands, one after the other, and nothing else. -/

namespace ApiTypes

open Op

/-- An import that was asked for and granted, with the binding that was handed out. -/
structure Demand where
  use : Use
  binding : Binding String

/-- What an action is granted in a module: the import that it asks for, if it gets a binding. -/
def Action.demands : Action String → Module String → List Demand
  | .request r, m =>
    match r.use?, (exec (Module.request r) m).1 with
    | some asked, .ok binding => [{ use := asked, binding }]
    | _, _ => []
  | .use source member, m =>
    match (exec (Module.useImport source member none false) m).1 with
    | .ok binding => [{ use := ⟨source, member, none, false⟩, binding }]
    | .error _ => []
  | _, _ => []

/-- Code that acts on a module and keeps something in the end. -/
inductive Program (κ : Type) where
  | keep (kept : κ)
  | fail (e : Error)
  | look (next : Module String → Program κ)
  | act (bindings : List (Binding String)) (a : Action String)
      (next : Except Error (List (Binding String) × String) → Program κ)

namespace Program

variable {κ : Type}

/-- An action with its failure as an answer. -/
def attempt (bindings : List (Binding String)) (a : Action String) :
    Op (Module String) (Except Error (List (Binding String) × String)) :=
  tryCatch (do return .ok (← Module.perform bindings a)) fun e => pure (.error e)

def run : Program κ → Op (Module String) κ
  | keep kept => pure kept
  | fail e => throw e
  | look next => do (next (← get)).run
  | act bindings a next => do (next (← attempt bindings a)).run

/-- What a program is granted in a module. -/
def demands : Program κ → Module String → List Demand
  | keep _, _ => []
  | fail _, _ => []
  | look next, m => (next m).demands m
  | act bindings a next, m =>
    let (answer, m') := exec (Module.perform bindings a) m
    a.demands m ++ (next answer).demands m'

/-- What programs are granted that run one after the other, as long as none of them fails. -/
def demandsAll : List (Program κ) → Module String → List Demand
  | [], _ => []
  | p :: rest, m =>
    p.demands m ++
      match exec p.run m with
      | (.ok _, m') => demandsAll rest m'
      | (.error _, _) => []

theorem exec_attempt (bindings : List (Binding String)) (a : Action String) (m : Module String) :
    exec (attempt bindings a) m =
      (.ok (exec (Module.perform bindings a) m).1, (exec (Module.perform bindings a) m).2) := by
  rw [attempt, exec_tryCatch, exec_bind]
  rcases exec (Module.perform bindings a) m with ⟨_ | _, m'⟩ <;> rfl

theorem exec_run_act (bindings : List (Binding String)) (a : Action String)
    (next : Except Error (List (Binding String) × String) → Program κ) (m : Module String) :
    exec (act bindings a next).run m =
      exec (next (exec (Module.perform bindings a) m).1).run
        (exec (Module.perform bindings a) m).2 :=
  exec_bind_of_ok (exec_attempt bindings a m) _

end Program

namespace Module

variable {κ : Type} {P : Phase → Prop}

/-- A program leaves the phase of its module alone. -/
theorem keeps_run (p : Program κ) : Keeps P p.run := by
  induction p with
  | keep kept => exact keeps_pure kept
  | fail e => exact keeps_throw e
  | look next ih => exact keeps_get.bind ih
  | act bindings a next ih =>
    have hperform : Keeps P (perform bindings a) := keeps_perform bindings a
    exact ((hperform.bind fun _ => keeps_pure _).tryCatch fun _ => keeps_pure _).bind ih

/-! ### The demands of one action -/

/-- A module whose import table has taken in some demands, which were answered by their pairs. -/
structure Records (m m' : Module String) (ds : List Demand) : Prop where
  imports : m'.imports = m.imports.recordAll (ds.map (·.use))
  answers : ∀ d ∈ ds, d.binding = .member d.use.source.identity d.use.member

theorem Records.nil {m m' : Module String} (h : m'.imports = m.imports) : Records m m' [] :=
  ⟨h, fun _ hd => nomatch hd⟩

theorem Records.append {m m' m'' : Module String} {ds ds' : List Demand} (h : Records m m' ds)
    (h' : Records m' m'' ds') : Records m m'' (ds ++ ds') where
  imports := by
    rw [h'.imports, h.imports, List.map_append]
    exact List.foldl_append.symm
  answers d hd := (List.mem_append.mp hd).elim (h.answers d) (h'.answers d)

theorem Records.applied {m m' : Module String} {ds : List Demand} (h : Records m m' ds) :
    m'.imports.applied = m.imports.applied := by
  rw [h.imports, Imports.applied_recordAll]

/-- Modules with one import table. -/
def SameImports (m m' : Module String) : Prop :=
  m'.imports = m.imports

instance : IsPreorder (Module String) SameImports where
  refl _ := rfl
  trans _ _ _ h h' := h'.trans h

theorem sameImports_addName (x : String) (usage : Usage) : Within SameImports (addName x usage) := by
  intro m
  rw [exec_addName_eq]
  cases m.names.add x usage <;> exact rfl

/-- An action that asks for no import leaves the table as it is. -/
theorem sameImports_perform {a : Action String} (h : a.use? = none)
    (bindings : List (Binding String)) : Within SameImports (perform bindings a) := by
  have hnone : ∀ u, a.use? = some u →
      Within SameImports (useImport u.source u.member u.localName u.typeOnly) :=
    fun u hu => nomatch h.symm.trans hu
  refine within_perform bindings a sameImports_addName hnone (fun member m => ?_) (fun m => ?_)
    fun m => rfl
  · rw [exec_add]
    split <;> rfl
  · rw [exec_resolveNames_eq]
    rfl

theorem demands_of_use?_eq_none {a : Action String} (h : a.use? = none) (m : Module String) :
    a.demands m = [] := by
  cases a with
  | request r =>
    have hr : r.use? = none := h
    rw [Action.demands, hr]
  | use source member => cases h
  | read index | add member | render | resolve | observe => rfl

/-- The step lemma: before it is applied, the import table takes in what an action is granted. -/
theorem records_perform {m : Module String} (ha : m.imports.applied = false)
    (bindings : List (Binding String)) (a : Action String) :
    Records m (exec (perform bindings a) m).2 (a.demands m) := by
  cases hu : a.use? with
  | none =>
    rw [demands_of_use?_eq_none hu]
    exact .nil (sameImports_perform hu bindings m)
  | some u =>
    have hanswer := exec_useImport ha u
    cases a with
    | request r =>
      have hr : r.use? = some u := hu
      cases r with
      | useMember source member localName typeOnly =>
        obtain rfl : ⟨source, member, localName, typeOnly⟩ = u := Option.some.inj hr
        by_cases hphase : m.phase = .applying
        · have hrequest : exec (request (.useMember source member localName typeOnly)) m = _ :=
            (exec_bind_of_ok (exec_expect hphase _) _).trans hanswer
          rw [Action.demands, hr, perform, exec_bind, hrequest]
          exact ⟨rfl, by simp⟩
        · obtain ⟨e, hrequest⟩ := exec_request_of_ne
            (r := .useMember source member localName typeOnly) rfl hphase
          rw [Action.demands, hr, perform, exec_bind, hrequest]
          exact .nil rfl
      | name x usage => cases hu
      | lookup x => cases hu
    | use source member =>
      obtain rfl : ⟨source, member, none, false⟩ = u := Option.some.inj hu
      have hperform : exec (perform bindings (.use source member)) m =
          (.ok (bindings, nothing),
            { m with imports := m.imports.record ⟨source, member, none, false⟩ }) := by
        rw [perform, discard, Functor.mapConst]
        exact exec_bind_of_ok (exec_bind_of_ok hanswer _) _
      rw [Action.demands, hanswer, hperform]
      exact ⟨rfl, by simp⟩
    | read index | add member | render | resolve | observe => cases hu

/-! ### The demands of programs -/

/-- The run lemma: the table takes in what a program is granted, also if the program fails. -/
theorem records_run (p : Program κ) {m : Module String} (ha : m.imports.applied = false) :
    Records m (exec p.run m).2 (p.demands m) := by
  induction p generalizing m with
  | keep kept => exact .nil rfl
  | fail e => exact .nil rfl
  | look next ih => exact ih m ha
  | act bindings a next ih =>
    have hstep := records_perform ha bindings a
    rw [Program.exec_run_act]
    exact hstep.append (ih _ (hstep.applied.trans ha))

theorem records_runAll (ps : List (Program κ)) {m : Module String}
    (ha : m.imports.applied = false) :
    Records m (exec (ps.mapM Program.run) m).2 (Program.demandsAll ps m) := by
  induction ps generalizing m with
  | nil => exact .nil rfl
  | cons p rest ih =>
    have hfirst := records_run p ha
    rw [List.mapM_cons, exec_bind, Program.demandsAll]
    rcases hrun : exec p.run m with ⟨e | kept, m'⟩
    · rw [hrun] at hfirst
      simpa using hfirst
    · rw [hrun] at hfirst
      have hrest := ih (hfirst.applied.trans ha)
      rcases hrun' : exec (rest.mapM Program.run) m' with ⟨r, t⟩
      rw [hrun'] at hrest
      simp only
      rw [exec_bind_pure hrun' (kept :: ·)]
      exact hfirst.append hrest

end Module

/-! ### Scripts as programs -/

namespace Program

/-- The actions of a script, which go on with the bindings of those before them and stop at the
first that fails. -/
def ofActions : List (Binding String) → List (Action String) → Program (List (Binding String))
  | bindings, [] => keep bindings
  | bindings, a :: rest => act bindings a fun
    | .ok (more, _) => ofActions more rest
    | .error e => fail e

def ofMember (member : Member String) : Program (List (Binding String)) :=
  ofActions [] member.actions

theorem exec_run_ofActions (bindings : List (Binding String)) (actions : List (Action String))
    (m : Module String) :
    exec (ofActions bindings actions).run m =
      exec (actions.foldlM Module.applyAction bindings) m := by
  induction actions generalizing bindings m with
  | nil => rfl
  | cons a rest ih =>
    rw [ofActions, exec_run_act, List.foldlM_cons, Module.applyAction, exec_bind, exec_bind]
    rcases exec (Module.perform bindings a) m with ⟨e | ⟨more, text⟩, m'⟩
    · rfl
    · exact ih more m'

theorem run_ofMember (member : Member String) : (ofMember member).run = Module.applyMember member := by
  funext m
  rw [Module.applyMember_eq]
  exact exec_run_ofActions [] member.actions m

end Program

end ApiTypes
