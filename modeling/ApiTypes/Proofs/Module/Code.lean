import ApiTypes.Proofs.Module.Later

/-! Code around a module, call by call. Code looks at the module, calls one of its operations, sees
the answer, also that the call failed, and decides how to go on. The members of a module are such
code, and so is the caller that renders it. A rendering is code as well, whose calls are those of
the members and its own steps between them. So a run of a caller is one sequence of calls, also
inside of its renderings, and the modules between them are its moments. What every call does to a
module at most, any two moments do. -/

namespace ApiTypes

open Op

/-! ### Code -/

/-- What a call answers: bindings, and a text. -/
abbrev Answer := List (Binding String) × String

/-- Code with calls of some kind, which keeps something in the end. -/
inductive Code (ω κ : Type) where
  | keep (kept : κ)
  | fail (e : Error)
  | look (next : Module String → Code ω κ)
  | call (o : ω) (next : Except Error Answer → Code ω κ)

namespace Code

variable {ω ω' κ κ' : Type}

/-- Goes on with what the code has come to. -/
def andThen : Code ω κ → (Except Error κ → Code ω κ') → Code ω κ'
  | keep kept, f => f (.ok kept)
  | fail e, f => f (.error e)
  | look next, f => look fun m => (next m).andThen f
  | call o next, f => call o fun answer => (next answer).andThen f

instance : Monad (Code ω) where
  pure := keep
  bind x f := x.andThen fun
    | .ok kept => f kept
    | .error e => fail e

instance : MonadExceptOf Error (Code ω) where
  throw := fail
  tryCatch x handle := x.andThen fun
    | .ok kept => keep kept
    | .error e => handle e

instance : LawfulMonad (Code ω) :=
  LawfulMonad.mk' _
    (fun x => by
      induction x with
      | keep kept => rfl
      | fail e => rfl
      | look next ih => exact congrArg look (funext ih)
      | call o next ih => exact congrArg (call o) (funext ih))
    (fun _ _ => rfl)
    (fun x f g => by
      induction x with
      | keep kept => rfl
      | fail e => rfl
      | look next ih => exact congrArg look (funext ih)
      | call o next ih => exact congrArg (call o) (funext ih))

/-- A single call. -/
def single (o : ω) : Code ω Answer :=
  call o fun
    | .ok answer => keep answer
    | .error e => fail e

/-- The module as it is. -/
def module : Code ω (Module String) :=
  look keep

def ofExcept : Except Error κ → Code ω κ
  | .ok kept => keep kept
  | .error e => fail e

/-- Code with each call replaced by code. -/
def expand (f : ω → Code ω' Answer) : Code ω κ → Code ω' κ
  | keep kept => keep kept
  | fail e => fail e
  | look next => look fun m => (next m).expand f
  | call o next => (f o).andThen fun answer => (next answer).expand f

/-- An operation with its failure as an answer. -/
def attempt {α : Type} (op : Op (Module String) α) : Op (Module String) (Except Error α) :=
  tryCatch (do return .ok (← op)) fun e => pure (.error e)

variable (perform : ω → Op (Module String) Answer)

def run : Code ω κ → Op (Module String) κ
  | keep kept => pure kept
  | fail e => throw e
  | look next => do (next (← get)).run
  | call o next => do (next (← attempt (perform o))).run

/-- The modules that code leaves call by call, from the first one on. -/
def trace : Code ω κ → Module String → List (Module String)
  | keep _, m => [m]
  | fail _, m => [m]
  | look next, m => (next m).trace m
  | call o next, m => m :: (next (exec (perform o) m).1).trace (exec (perform o) m).2

/-! ### Runs -/

theorem exec_attempt {α : Type} (op : Op (Module String) α) (m : Module String) :
    exec (attempt op) m = (.ok (exec op m).1, (exec op m).2) := by
  rw [attempt, exec_tryCatch, exec_bind]
  rcases exec op m with ⟨_ | _, m'⟩ <;> rfl

theorem exec_run_call (o : ω) (next : Except Error Answer → Code ω κ) (m : Module String) :
    exec ((call o next).run perform) m =
      exec ((next (exec (perform o) m).1).run perform) (exec (perform o) m).2 :=
  exec_bind_of_ok (exec_attempt (perform o) m) _

theorem exec_run_andThen (x : Code ω κ) (f : Except Error κ → Code ω κ') (m : Module String) :
    exec ((x.andThen f).run perform) m =
      exec ((f (exec (x.run perform) m).1).run perform) (exec (x.run perform) m).2 := by
  induction x generalizing m with
  | keep kept => rfl
  | fail e => rfl
  | look next ih => exact ih m m
  | call o next ih =>
    rw [exec_run_call, andThen, exec_run_call]
    exact ih _ _

@[simp] theorem run_pure (kept : κ) : (pure kept : Code ω κ).run perform = pure kept := rfl

@[simp] theorem run_throw (e : Error) : (throw e : Code ω κ).run perform = throw e := rfl

@[simp] theorem run_module : (module : Code ω _).run perform = get := rfl

@[simp] theorem run_bind (x : Code ω κ) (f : κ → Code ω κ') :
    (x >>= f).run perform = x.run perform >>= fun kept => (f kept).run perform := by
  funext m
  change exec ((x.andThen _).run perform) m = exec _ m
  rw [exec_run_andThen, exec_bind]
  rcases exec (x.run perform) m with ⟨_ | _, m'⟩ <;> rfl

@[simp] theorem run_map (f : κ → κ') (x : Code ω κ) :
    (f <$> x).run perform = f <$> x.run perform := by
  simp only [map_eq_pure_bind, run_bind, run_pure]

@[simp] theorem run_tryCatch (x : Code ω κ) (handle : Error → Code ω κ) :
    (tryCatch x handle).run perform = tryCatch (x.run perform) fun e => (handle e).run perform := by
  funext m
  change exec ((x.andThen _).run perform) m = exec _ m
  rw [exec_run_andThen, exec_tryCatch]
  rcases exec (x.run perform) m with ⟨_ | _, m'⟩ <;> rfl

@[simp] theorem run_single (o : ω) : (single o).run perform = perform o := by
  funext m
  change exec ((single o).run perform) m = exec (perform o) m
  rw [single, exec_run_call]
  rcases exec (perform o) m with ⟨_ | _, m'⟩ <;> rfl

@[simp] theorem run_ofExcept (r : Except Error κ) :
    (ofExcept r : Code ω κ).run perform = liftExcept r := by
  cases r <;> rfl

@[simp] theorem run_mapM {α : Type} (f : α → Code ω κ) (l : List α) :
    (l.mapM f).run perform = l.mapM fun a => (f a).run perform := by
  induction l with
  | nil => rfl
  | cons a rest ih => simp only [List.mapM_cons, run_bind, run_pure, ih]

@[simp] theorem run_foldlM {α : Type} (f : κ → α → Code ω κ) (l : List α) (kept : κ) :
    (l.foldlM f kept).run perform = l.foldlM (fun kept a => (f kept a).run perform) kept := by
  induction l generalizing kept with
  | nil => rfl
  | cons a rest ih => simp only [List.foldlM_cons, run_bind, ih]

@[simp] theorem run_expand (perform : ω' → Op (Module String) Answer) (f : ω → Code ω' Answer)
    (x : Code ω κ) : (x.expand f).run perform = x.run fun o => (f o).run perform := by
  funext m
  change exec _ m = exec _ m
  induction x generalizing m with
  | keep kept => rfl
  | fail e => rfl
  | look next ih => exact ih m m
  | call o next ih =>
    rw [expand, exec_run_andThen, exec_run_call]
    exact ih _ _

/-! ### Traces -/

variable {perform}

/-- A trace ends where the run does. -/
theorem getLast?_trace (x : Code ω κ) (m : Module String) :
    (x.trace perform m).getLast? = some (exec (x.run perform) m).2 := by
  induction x generalizing m with
  | keep kept => rfl
  | fail e => rfl
  | look next ih => exact ih m m
  | call o next ih =>
    rw [trace, List.getLast?_cons, ih, exec_run_call]
    rfl

/-- The run lemma: what each call does at most, any two moments of a run do. -/
theorem pairwise_trace {R : Module String → Module String → Prop} [IsPreorder (Module String) R]
    (h : ∀ o, Within R (perform o)) (x : Code ω κ) (m : Module String) :
    (x.trace perform m).Pairwise R ∧ ∀ m' ∈ x.trace perform m, R m m' := by
  induction x generalizing m with
  | keep kept => simpa [trace] using Std.Refl.refl m
  | fail e => simpa [trace] using Std.Refl.refl m
  | look next ih => exact ih m m
  | call o next ih =>
    obtain ⟨hlater, hfrom⟩ := ih (exec (perform o) m).1 (exec (perform o) m).2
    have hnext : ∀ m' ∈ (next _).trace perform _, R m m' :=
      fun m' hm' => IsTrans.trans _ _ _ (h o m) (hfrom m' hm')
    rw [trace]
    exact ⟨List.pairwise_cons.mpr ⟨hnext, hlater⟩,
      List.forall_mem_cons.mpr ⟨Std.Refl.refl m, hnext⟩⟩

end Code

/-! ### Members and callers -/

/-- What code may do to a module and to its tables: the actions of scripts, which ask for names and
imports, read bindings, add members and resolve the names; and the operations of the tables, which
go past the module. -/
inductive Operation where
  | act (bindings : List (Binding String)) (a : Action String)
  | addName (identifier : String) (usage : Usage)
  | useImport (u : Use)
  | applyImports
  | applyImport (urn member : String)

def Operation.run : Operation → Op (Module String) Answer
  | act bindings a => Module.perform bindings a
  | addName identifier usage => do
    return ([← Module.addName identifier usage], Module.nothing)
  | useImport u => do
    return ([← Module.useImport u.source u.member u.localName u.typeOnly], Module.nothing)
  | applyImports => do
    Module.applyImports
    return ([], Module.nothing)
  | applyImport urn member => do
    if let some i := (← get).imports.find? urn member then
      Module.applyImport urn i
    return ([], Module.nothing)

/-- What a rendering does: the operations of the members, and its own steps. -/
inductive RenderStep where
  | member (o : Operation)
  | enter (phase : Phase)
  | note (events : List Event)
  | block (ctx : Context String)

def RenderStep.run : RenderStep → Op (Module String) Answer
  | member o => o.run
  | enter phase => do
    Module.setPhase phase
    return ([], Module.nothing)
  | note events => do
    Module.note events
    return ([], Module.nothing)
  | block ctx => do return ([], ← Module.importBlock ctx)

section

variable {R : Module String → Module String → Prop}

/-- A relation that nothing goes beyond of what operations and renderings are made of. -/
structure Permits (R : Module String → Module String → Prop) : Prop where
  addName : ∀ x usage, Within R (Module.addName x usage)
  useImport : ∀ u : Use, Within R (Module.useImport u.source u.member u.localName u.typeOnly)
  add : ∀ member, Within R (Module.add member)
  resolveNames : Within R (Module.resolveNames : Op (Module String) Unit)
  applyImport : ∀ urn i, Within R (Module.applyImport urn i)
  close : ∀ m : Module String, R m { m with imports := { m.imports with applied := true } }
  observe : ∀ m : Module String, R m { m with observed := m.observed ++ [m.phase] }
  enter : ∀ (phase : Phase) (m : Module String), R m { m with phase }
  note : ∀ (events : List Event) (m : Module String), R m { m with log := m.log ++ events }

variable [IsPreorder (Module String) R]

/-- Then no operation goes beyond it. -/
theorem Permits.operation (h : Permits R) (o : Operation) : Within R o.run := by
  cases o with
  | act bindings a =>
    exact Module.within_perform bindings a h.addName (fun u _ => h.useImport u) h.add
      h.resolveNames h.observe
  | addName x usage => exact (h.addName x usage).bind fun _ => within_pure _
  | useImport u => exact (h.useImport u).bind fun _ => within_pure _
  | applyImports =>
    have hloop : ∀ queue : List (String × Import String),
        Within R (queue.forM fun e => Module.applyImport e.1 e.2) :=
      within_forM fun e => h.applyImport e.1 e.2
    have happly : Within R (Module.applyImports : Op (Module String) Unit) := by
      rw [Module.applyImports_eq]
      exact within_get.bind fun m => (hloop m.imports.queue).bind fun _ => h.close
    exact happly.bind fun _ => within_pure _
  | applyImport urn member =>
    refine within_get.bind fun m => ?_
    cases m.imports.find? urn member with
    | none => exact within_pure _
    | some i => exact (h.applyImport urn i).bind fun _ => within_pure _

/-- And no step of a rendering does. -/
theorem Permits.renderStep (h : Permits R) (s : RenderStep) : Within R s.run := by
  have hnote : ∀ events, Within R (Module.note events : Op (Module String) Unit) := h.note
  have henter : ∀ phase, Within R (Module.setPhase phase : Op (Module String) Unit) := h.enter
  cases s with
  | member o => exact h.operation o
  | enter phase => exact (henter phase).bind fun _ => within_pure _
  | note events => exact (hnote events).bind fun _ => within_pure _
  | block ctx =>
    have hlocate : Within R (Module.locateImports ctx) :=
      within_get.bind fun m => within_mapM (fun imported =>
        ((within_liftExcept _).bind fun events => (hnote events).bind fun _ =>
          within_liftExcept _).bind fun _ => within_pure _) _
    exact (hlocate.bind fun _ => within_get.bind fun _ => within_liftExcept _).bind
      fun _ => within_pure _

end

/-- Members whose code calls operations. -/
structure Members (κ : Type) where
  apply : Member String → Code Operation κ
  render : Context String → κ → Member String → Code Operation String

namespace Members

variable {κ : Type}

def behaviour (b : Members κ) : Behaviour String κ where
  apply member := (b.apply member).run Operation.run
  render ctx kept member := (b.render ctx kept member).run Operation.run

/-- The code of a member as a part of a rendering. -/
def ofMember {α : Type} (x : Code Operation α) : Code RenderStep α :=
  x.expand fun o => .single (.member o)

/-- What a rendering does once its members may register, as code. -/
def work (b : Members κ) (ctx : Context String) : Code RenderStep (List String) := do
  let kept ← (← Code.module).members.mapM fun member => ofMember (b.apply member)
  let _ ← Code.single (.member .applyImports)
  let _ ← Code.single (.enter .resolving)
  let _ ← Code.single (.member (.act [] .resolve))
  let m ← Code.module
  let _ ← Code.single
    (.note [.assembled (Label.plain m.path) m.members.length m.imports.size m.names.size])
  let _ ← Code.single (.enter .rendering)
  let block ← Code.single (.block ctx)
  let texts ← (m.members.zip kept).mapM fun pair => ofMember (b.render ctx pair.2 pair.1)
  return block.2 :: texts

/-- Refuses a rendering of a module that is more than created. -/
def expectCreated : Code RenderStep Unit :=
  .look fun m =>
    if m.phase = .created then .keep ()
    else .fail (.ofDefect (.wrongPhase "render" (Label.document m.path) .created m.phase))

/-- A rendering as code. -/
def rendering (b : Members κ) (ctx : Context String) : Code RenderStep String := do
  expectCreated
  let fragments ←
    try
      let _ ← Code.single (.enter .applying)
      let texts ← b.work ctx
      let _ ← Code.single (.enter .done)
      pure texts
    catch e =>
      let _ ← Code.single (.enter .failed)
      throw e
  return Module.joinFragments fragments

theorem run_ofMember {α : Type} (x : Code Operation α) :
    (ofMember x).run RenderStep.run = x.run Operation.run := by
  rw [ofMember, Code.run_expand]
  simp only [Code.run_single]
  rfl

theorem run_work (b : Members κ) (ctx : Context String) :
    (b.work ctx).run RenderStep.run = Module.workBy b.behaviour ctx := by
  simp only [work, Module.workBy, behaviour, Code.run_bind, Code.run_module, Code.run_mapM,
    run_ofMember, Code.run_single, Code.run_pure, RenderStep.run, Operation.run, Module.perform,
    bind_assoc, pure_bind]

theorem run_expectCreated :
    expectCreated.run RenderStep.run = Module.expect .created "render" := by
  funext m
  change exec (expectCreated.run RenderStep.run) m = exec (Module.expect .created "render") m
  rw [Module.exec_expect_eq, expectCreated, Code.run, exec_bind_of_ok (exec_get m)]
  split <;> rfl

/-- The code of a rendering does what the rendering does. -/
theorem run_rendering (b : Members κ) (ctx : Context String) :
    (b.rendering ctx).run RenderStep.run = Module.renderBy b.behaviour ctx := by
  funext m
  change exec ((b.rendering ctx).run RenderStep.run) m = exec (Module.renderBy b.behaviour ctx) m
  have hphases : exec (Module.runPhasesBy b.behaviour ctx) m =
      exec (Module.workBy b.behaviour ctx) { m with phase := .applying } := exec_bind_of_ok rfl _
  have hexpect := Module.exec_expect_eq .created "render" m
  simp only [rendering, Code.run_bind, run_expectCreated, Code.run_tryCatch, Code.run_single,
    Code.run_pure, Code.run_throw, run_work, RenderStep.run, bind_assoc, pure_bind]
  rw [Module.exec_renderBy, Module.exec_fragmentsBy, hphases]
  by_cases hm : m.phase = .created
  · rw [if_pos hm] at hexpect
    rw [exec_bind_of_ok hexpect, exec_bind, exec_tryCatch, Module.setPhase,
      exec_bind_of_ok (exec_modify ..), exec_bind, if_pos hm]
    rcases exec (Module.workBy b.behaviour ctx) _ with ⟨_ | _, t⟩ <;> rfl
  · rw [if_neg hm] at hexpect
    rw [exec_bind, hexpect, if_neg hm]
    rfl

/-! ### Scripts -/

/-- A part of a script, as code. -/
def renderPart (ctx : Context String) (bindings : List (Binding String)) :
    Part String → Code Operation Answer
  | .piece p => do
    let m ← Code.module
    return (bindings, Label.ofText (← Code.ofExcept (p.render ctx m.spell)))
  | .binding index => .single (.act bindings (.read index))
  | .action a => .single (.act bindings a)

/-- Scripts as the code that they are. -/
def scripts : Members (List (Binding String)) where
  apply
    | .script actions _ =>
      actions.foldlM (fun bindings a => do return (← Code.single (.act bindings a)).1) []
  render
    | ctx, kept, .script _ parts => do
      let (_, labels) ← parts.foldlM (fun (bindings, labels) part => do
        let (bindings, label) ← renderPart ctx bindings part
        return (bindings, labels ++ [label])) (kept, [])
      return String.join (← Code.ofExcept (labels.mapM Label.requireText))

theorem run_renderPart (ctx : Context String) (bindings : List (Binding String))
    (part : Part String) :
    (renderPart ctx bindings part).run Operation.run = Module.renderPart ctx bindings part := by
  cases part with
  | piece p => simp [renderPart, Module.renderPart]
  | binding index | action a => exact Code.run_single ..

/-- The members of a module are such members. -/
theorem behaviour_scripts : scripts.behaviour = Module.scripts := by
  have happly : ∀ member, (scripts.apply member).run Operation.run = Module.applyMember member := by
    rintro ⟨actions, parts⟩
    simp [scripts, Module.applyMember, Operation.run]
  have hrender : ∀ ctx kept member, (scripts.render ctx kept member).run Operation.run =
      Module.renderMember ctx kept member := by
    rintro ctx kept ⟨actions, parts⟩
    simp [scripts, Module.renderMember, run_renderPart]
  simp only [behaviour, Module.scripts, happly, hrender]

end Members

/-! ### Callers -/

/-- What is done to a module from outside. -/
inductive OuterCall where
  | operation (o : Operation)
  | render (ctx : Context String)

namespace OuterCall

variable {κ α : Type}

def run (b : Behaviour String κ) : OuterCall → Op (Module String) Answer
  | operation o => o.run
  | render ctx => do return ([], ← Module.renderBy b ctx)

/-- A call from outside with all that it does inside. -/
def code (b : Members κ) : OuterCall → Code RenderStep Answer
  | operation o => .single (.member o)
  | render ctx => do return ([], ← b.rendering ctx)

theorem run_code (b : Members κ) (c : OuterCall) :
    (c.code b).run RenderStep.run = c.run b.behaviour := by
  cases c with
  | operation o => exact Code.run_single ..
  | render ctx => rw [code, Code.run_bind, Members.run_rendering]; rfl

end OuterCall

/-- The moments of a module while a caller is at work: the modules between the calls, also those
inside of its renderings. -/
def Members.moments {κ α : Type} (b : Members κ) (caller : Code OuterCall α) (m : Module String) :
    List (Module String) :=
  (caller.expand (OuterCall.code b)).trace RenderStep.run m

/-- The last moment is the module that the caller leaves. -/
theorem Members.getLast?_moments {κ α : Type} (b : Members κ) (caller : Code OuterCall α)
    (m : Module String) : (b.moments caller m).getLast? =
      some (exec (caller.run (OuterCall.run b.behaviour)) m).2 := by
  have hrun : ∀ c, (OuterCall.code b c).run RenderStep.run = c.run b.behaviour :=
    OuterCall.run_code b
  rw [moments, Code.getLast?_trace, Code.run_expand]
  simp only [hrun]

end ApiTypes
