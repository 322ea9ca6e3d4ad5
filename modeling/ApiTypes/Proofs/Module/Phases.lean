import ApiTypes.Proofs.Module.Run
import Mathlib.Logic.Relation
import Mathlib.Data.List.Basic

/-! The phases of a module under arbitrary members. The code of a member may call back into
its module at any time: ask for names and imports, add members, resolve the names, change the
tables, catch failures, or render again. Whatever it does, it leaves the phase alone, since
each operation that could change the phase is guarded by the phase it needs. So every
operation moves the phase along its arrows, also as the members see it, and a run of any
length has one rendering at most. -/

namespace ApiTypes

/-- The moves of a phase. -/
inductive Phase.Next : Phase → Phase → Prop where
  | apply : Next .created .applying
  | resolve : Next .applying .resolving
  | render : Next .resolving .rendering
  | finish : Next .rendering .done
  | fail {p : Phase} (h : p = .applying ∨ p = .resolving ∨ p = .rendering) : Next p .failed

/-- The phases that some moves lead to. -/
def Phase.Reach : Phase → Phase → Prop :=
  Relation.ReflTransGen Phase.Next

namespace Phase

theorem Reach.trans {p q r : Phase} (h : Reach p q) (h' : Reach q r) : Reach p r :=
  Relation.ReflTransGen.trans h h'

theorem Reach.refl (p : Phase) : Reach p p :=
  Relation.ReflTransGen.refl

theorem Next.reach {p q : Phase} (h : Next p q) : Reach p q :=
  Relation.ReflTransGen.single h

/-- What is done or failed stays so. -/
theorem Reach.eq_of_final {p q : Phase} (h : Reach p q) (hp : p = .done ∨ p = .failed) : q = p := by
  induction h with
  | refl => rfl
  | tail _ hnext ih =>
    subst ih
    rcases hp with rfl | rfl <;> cases hnext <;> simp_all

/-- Nothing leads back to a module that is only created. -/
theorem Reach.ne_created {p q : Phase} (h : Reach p q) (hp : p ≠ .created) : q ≠ .created := by
  induction h with
  | refl => exact hp
  | tail _ hnext _ => cases hnext <;> simp

/-- Phases that were seen one after the other on the way from one phase to another. -/
def Along : Phase → List Phase → Phase → Prop
  | p, [], q => Reach p q
  | p, s :: seen, q => Reach p s ∧ Along s seen q

theorem Along.of_reach {p q r : Phase} {seen : List Phase} (h : Reach p q) (h' : Along q seen r) :
    Along p seen r := by
  cases seen with
  | nil => exact h.trans h'
  | cons s seen => exact ⟨h.trans h'.1, h'.2⟩

theorem Along.trans_reach {p q r : Phase} {seen : List Phase} (h : Along p seen q)
    (h' : Reach q r) : Along p seen r := by
  induction seen generalizing p with
  | nil => exact h.trans h'
  | cons s seen ih => exact ⟨h.1, ih h.2⟩

theorem Along.append {p q r : Phase} {seen more : List Phase} (h : Along p seen q)
    (h' : Along q more r) : Along p (seen ++ more) r := by
  induction seen generalizing p with
  | nil => exact h'.of_reach h
  | cons s seen ih => exact ⟨h.1, ih h.2⟩

theorem Along.reach {p q : Phase} {seen : List Phase} (h : Along p seen q) : Reach p q := by
  induction seen generalizing p with
  | nil => exact h
  | cons s seen ih => exact h.1.trans (ih h.2)

/-- Every phase that was seen lies between the first one and the last. -/
theorem Along.reach_of_mem {p q s : Phase} {seen : List Phase} (h : Along p seen q)
    (hs : s ∈ seen) : Reach p s ∧ Reach s q := by
  induction seen generalizing p with
  | nil => cases hs
  | cons s' seen ih =>
    rcases List.mem_cons.mp hs with rfl | hs
    · exact ⟨h.1, h.2.reach⟩
    · obtain ⟨hto, hfrom⟩ := ih h.2 hs
      exact ⟨h.1.trans hto, hfrom⟩

/-- A phase of a module that is rendering. -/
def Working (p : Phase) : Prop :=
  p = .applying ∨ p = .resolving ∨ p = .rendering

theorem Working.ne_created {p : Phase} (h : p.Working) : p ≠ .created := by
  rcases h with rfl | rfl | rfl <;> simp

/-- Between two working phases there are only working phases. -/
theorem Working.between {p q s : Phase} (hp : p.Working) (hq : q.Working) (h : Reach p s)
    (h' : Reach s q) : s.Working := by
  have hcreated := h.ne_created hp.ne_created
  have hfinal := h'.eq_of_final
  rcases hq with rfl | rfl | rfl <;> cases s <;> simp_all [Working]

end Phase

open Op

namespace Module

variable {τ : Type}

/-- A module that came from another one through phases along the arrows, with those between
that were observed on the way. -/
def Travels (m m' : Module τ) : Prop :=
  ∃ seen, m'.observed = m.observed ++ seen ∧ m.phase.Along seen m'.phase

/-- A module that is in the phase of the one that it came from. -/
def Stays (m m' : Module τ) : Prop :=
  m'.phase = m.phase ∧ Travels m m'

theorem Travels.of_eq {m m' : Module τ} (h : m'.observed = m.observed)
    (hp : Phase.Reach m.phase m'.phase) : Travels m m' :=
  ⟨[], by rw [h, List.append_nil], hp⟩

theorem Travels.trans {m m' m'' : Module τ} (h : Travels m m') (h' : Travels m' m'') :
    Travels m m'' := by
  obtain ⟨seen, hseen, hp⟩ := h
  obtain ⟨more, hmore, hq⟩ := h'
  exact ⟨seen ++ more, by rw [hmore, hseen, List.append_assoc], hp.append hq⟩

theorem Travels.reach {m m' : Module τ} (h : Travels m m') : Phase.Reach m.phase m'.phase := by
  obtain ⟨seen, -, hp⟩ := h
  exact hp.reach

theorem Stays.trans {m m' m'' : Module τ} (h : Stays m m') (h' : Stays m' m'') : Stays m m'' :=
  ⟨h'.1.trans h.1, h.2.trans h'.2⟩

theorem Stays.of_eq {m m' : Module τ} (h : m'.observed = m.observed) (hp : m'.phase = m.phase) :
    Stays m m' :=
  ⟨hp, .of_eq h (hp ▸ .refl _)⟩

theorem Stays.refl (m : Module τ) : Stays m m :=
  .of_eq rfl rfl

/-! ### Operations that keep the phase -/

variable {α β : Type}

/-- An operation that leaves a module in its phase, if that is one of some. -/
def Keeps (P : Phase → Prop) (op : Op (Module τ) α) : Prop :=
  ∀ m, P m.phase → Stays m (exec op m).2

section

variable {P : Phase → Prop}

theorem Keeps.bind {op : Op (Module τ) α} {f : α → Op (Module τ) β} (h : Keeps P op)
    (hf : ∀ a, Keeps P (f a)) : Keeps P (op >>= f) := by
  intro m hm
  have hop := h m hm
  rw [exec_bind]
  rcases hx : exec op m with ⟨_ | a, t⟩
  · rw [hx] at hop
    exact hop
  · rw [hx] at hop
    exact hop.trans (hf a t (by rw [hop.1]; exact hm))

theorem Keeps.tryCatch {op : Op (Module τ) α} {handle : Error → Op (Module τ) α} (h : Keeps P op)
    (hf : ∀ e, Keeps P (handle e)) : Keeps P (tryCatch op handle) := by
  intro m hm
  have hop := h m hm
  rw [exec_tryCatch]
  rcases hx : exec op m with ⟨e | _, t⟩
  · rw [hx] at hop
    exact hop.trans (hf e t (by rw [hop.1]; exact hm))
  · rw [hx] at hop
    exact hop

theorem keeps_pure (a : α) : Keeps P (pure a : Op (Module τ) α) :=
  fun m _ => .refl m

theorem keeps_throw (e : Error) : Keeps P (throw e : Op (Module τ) α) :=
  fun m _ => .refl m

theorem keeps_get : Keeps P (get : Op (Module τ) (Module τ)) :=
  fun m _ => .refl m

theorem keeps_liftExcept (r : Except Error α) : Keeps P (liftExcept r : Op (Module τ) α) := by
  intro m _
  rw [exec_liftExcept]
  exact .refl m

theorem keeps_modify {f : Module τ → Module τ} (h : ∀ m, Stays m (f m)) :
    Keeps P (modify f : Op (Module τ) Unit) :=
  fun m _ => h m

/-- An operation that reads the module and sets one in the same phase. -/
theorem keeps_get_bind {f : Module τ → Op (Module τ) α}
    (h : ∀ m, P m.phase → Stays m (exec (f m) m).2) : Keeps P (get >>= f) := by
  intro m hm
  rw [exec_bind_of_ok (exec_get m)]
  exact h m hm

theorem keeps_mapM {f : α → Op (Module τ) β} (h : ∀ a, Keeps P (f a)) (l : List α) :
    Keeps P (l.mapM f) := by
  induction l with
  | nil =>
    rw [List.mapM_nil]
    exact keeps_pure _
  | cons a rest ih =>
    rw [List.mapM_cons]
    exact (h a).bind fun _ => ih.bind fun _ => keeps_pure _

theorem keeps_forM {f : α → Op (Module τ) Unit} (h : ∀ a, Keeps P (f a)) (l : List α) :
    Keeps P (l.forM f) := by
  induction l with
  | nil => exact keeps_pure ()
  | cons a rest ih => exact (h a).bind fun _ => ih

end

end Module

/-- Whether a request registers something. -/
def Request.registers {τ : Type} : Request τ → Bool
  | .lookup _ => false
  | _ => true

namespace Module

variable {τ α : Type} [Label τ]

/-- Outside of its phase a request registers nothing. -/
theorem exec_request_of_ne {r : Request τ} (hr : r.registers = true) {m : Module τ}
    (hm : m.phase ≠ .applying) : ∃ e, exec (request r) m = (.error e, m) := by
  cases r with
  | name identifier usage =>
    rw [request, exec_bind, exec_expect_eq, if_neg hm]
    exact ⟨_, rfl⟩
  | useMember source member localName typeOnly =>
    rw [request, exec_bind, exec_expect_eq, if_neg hm]
    exact ⟨_, rfl⟩
  | lookup identifier => cases hr

section

variable {P : Phase → Prop}

theorem keeps_expect (required : Phase) (action : String) :
    Keeps P (expect required action : Op (Module τ) Unit) := by
  intro m _
  rw [exec_expect_eq]
  split <;> exact .refl m

theorem keeps_add (member : Member τ) : Keeps P (add member) := by
  intro m _
  rw [exec_add]
  split
  next => exact .of_eq rfl rfl
  next => exact .refl m

omit [Label τ] in
theorem keeps_note (events : List Event) : Keeps P (note events : Op (Module τ) Unit) :=
  keeps_modify fun _ => .of_eq rfl rfl

theorem keeps_addName (identifier : τ) (usage : Usage) : Keeps P (addName identifier usage) := by
  intro m _
  rw [exec_addName_eq]
  cases m.names.add identifier usage <;> exact .of_eq rfl rfl

theorem keeps_useImport (source : Source τ) (member : τ) (localName : Option τ) (typeOnly : Bool) :
    Keeps P (useImport source member localName typeOnly) := by
  refine keeps_get_bind fun m hm => ?_
  rcases m.imports.use source member localName typeOnly with ⟨imports, result⟩
  cases result <;> exact .of_eq rfl rfl

theorem keeps_request (r : Request τ) : Keeps P (request r) := by
  cases r with
  | name identifier usage => exact (keeps_expect _ _).bind fun _ => keeps_addName _ _
  | useMember source member localName typeOnly =>
    exact (keeps_expect _ _).bind fun _ => keeps_useImport _ _ _ _
  | lookup identifier => exact keeps_pure _

theorem keeps_resolveNames : Keeps P (resolveNames : Op (Module τ) Unit) := by
  intro m _
  rw [exec_resolveNames_eq]
  exact .of_eq rfl rfl

theorem keeps_applyImport (urn : String) (i : Import τ) : Keeps P (applyImport urn i) := by
  intro m _
  rw [exec_applyImport_eq]
  cases m.names.add i.identifier .imported <;> exact .of_eq rfl rfl

theorem keeps_applyImports : Keeps P (applyImports : Op (Module τ) Unit) := by
  refine keeps_get.bind fun m => Keeps.bind ?_ fun _ => keeps_modify fun _ => .of_eq rfl rfl
  refine keeps_forM (fun imported => ?_) _
  exact (keeps_liftExcept _).bind fun imports => keeps_forM (fun i => keeps_applyImport _ i) _

theorem keeps_importBlock (ctx : Context τ) : Keeps P (importBlock ctx) := by
  have hlocate : Keeps P (locateImports ctx) :=
    keeps_get.bind fun m => keeps_mapM (fun imported =>
      ((keeps_liftExcept _).bind fun events => (keeps_note events).bind fun _ =>
        keeps_liftExcept _).bind fun _ => keeps_pure _) _
  exact hlocate.bind fun _ => keeps_get.bind fun _ => keeps_liftExcept _

/-- No action of a script moves the phase, not even in a module that is only created. -/
theorem keeps_perform (bindings : List (Binding τ)) (a : Action τ) :
    Keeps P (perform bindings a) := by
  cases a with
  | request r =>
    rw [perform]
    exact (keeps_request r).bind fun _ => keeps_pure _
  | read index =>
    rw [perform]
    refine keeps_get.bind fun m => ?_
    split
    next => exact (keeps_liftExcept _).bind fun _ => keeps_pure _
    next => exact keeps_throw _
  | add member =>
    rw [perform]
    exact (keeps_add member).bind fun _ => keeps_pure _
  | render =>
    rw [perform]
    exact keeps_get.bind fun _ => keeps_throw _
  | resolve =>
    rw [perform]
    exact keeps_resolveNames.bind fun _ => keeps_pure _
  | use source member =>
    rw [perform]
    exact ((keeps_useImport source member none false).bind fun _ => keeps_pure _).bind
      fun _ => keeps_pure _
  | observe =>
    rw [perform]
    have hobserve : ∀ m : Module τ, Stays m { m with observed := m.observed ++ [m.phase] } :=
      fun m => ⟨rfl, [m.phase], rfl, .refl _, .refl _⟩
    exact (keeps_modify hobserve).bind fun _ => keeps_pure _

end

/-! ### Arbitrary members -/

end Module

/-- What the members of a module do: how one is applied, which may keep something, and how it
is rendered with what was kept. -/
structure Behaviour (τ κ : Type) where
  apply : Member τ → Op (Module τ) κ
  render : Context τ → κ → Member τ → Op (Module τ) String

namespace Module

variable {τ α κ : Type} [Label τ]

/-- What a rendering does once its members may register. -/
def workBy (b : Behaviour τ κ) (ctx : Context τ) : Op (Module τ) (List String) := do
  let kept ← (← get).members.mapM b.apply
  applyImports
  setPhase .resolving
  resolveNames
  let m ← get
  note [.assembled (Label.plain m.path) m.members.length m.imports.size m.names.size]
  setPhase .rendering
  let block ← importBlock ctx
  let texts ← (m.members.zip kept).mapM fun (member, bound) => b.render ctx bound member
  return block :: texts

/-- The steps of a rendering between `created` and `done`. -/
def runPhasesBy (b : Behaviour τ κ) (ctx : Context τ) : Op (Module τ) (List String) := do
  setPhase .applying
  workBy b ctx

/-- The import block and the text of every member. -/
def fragmentsBy (b : Behaviour τ κ) (ctx : Context τ) : Op (Module τ) (List String) := do
  expect .created "render"
  try
    let texts ← runPhasesBy b ctx
    setPhase .done
    return texts
  catch e =>
    setPhase .failed
    throw e

/-- The text of the module, whose members behave in some way. -/
def renderBy (b : Behaviour τ κ) (ctx : Context τ) : Op (Module τ) String := do
  return joinFragments (← fragmentsBy b ctx)

/-- A module that is only created runs its phases and notes how they ended; in any other a
rendering is refused. -/
theorem exec_fragmentsBy (b : Behaviour τ κ) (ctx : Context τ) (m : Module τ) :
    exec (fragmentsBy b ctx) m =
      if m.phase = .created then
        match exec (runPhasesBy b ctx) m with
        | (.ok texts, t) => (.ok texts, { t with phase := .done })
        | (.error e, t) => (.error e, { t with phase := .failed })
      else (.error (.ofDefect (.wrongPhase "render" (Label.document m.path) .created m.phase)),
        m) := by
  have he := exec_expect_eq .created "render" m
  by_cases h : m.phase = .created
  · rw [if_pos h] at he
    rw [fragmentsBy, exec_bind_of_ok he, exec_bind, exec_tryCatch, exec_bind, if_pos h]
    rcases exec (runPhasesBy b ctx) m with ⟨_ | _, t⟩ <;> rfl
  · rw [if_neg h] at he
    rw [fragmentsBy, exec_bind, he, if_neg h]

theorem exec_renderBy (b : Behaviour τ κ) (ctx : Context τ) (m : Module τ) :
    exec (renderBy b ctx) m =
      ((exec (fragmentsBy b ctx) m).1.map joinFragments, (exec (fragmentsBy b ctx) m).2) := by
  rw [renderBy, exec_bind]
  rcases exec (fragmentsBy b ctx) m with ⟨_ | _, t⟩ <;> rfl

/-- Code that reaches its module through the operations of the module alone. It may go on as
it likes with what they answer, catch their failures, fail on its own, read the module,
change the tables, and render the module again, with members of any behaviour. -/
inductive Client : {α : Type} → Op (Module τ) α → Prop where
  | pure {α : Type} (a : α) : Client (pure a)
  | throw {α : Type} (e : Error) : Client (throw e : Op (Module τ) α)
  | read : Client get
  | perform (bindings : List (Binding τ)) (a : Action τ) : Client (perform bindings a)
  | tables (f : Names τ → Imports τ → Names τ × Imports τ) :
      Client (modify fun m =>
        { m with names := (f m.names m.imports).1, imports := (f m.names m.imports).2 })
  | render {κ : Type} (b : Behaviour τ κ) (ctx : Context τ) : Client (renderBy b ctx)
  | bind {α β : Type} {op : Op (Module τ) α} {f : α → Op (Module τ) β} (h : Client op)
      (hf : ∀ a, Client (f a)) : Client (op >>= f)
  | tryCatch {α : Type} {op : Op (Module τ) α} {handle : Error → Op (Module τ) α} (h : Client op)
      (hf : ∀ e, Client (handle e)) : Client (tryCatch op handle)

/-- In a module that is more than created, client code leaves the phase alone. -/
theorem Client.keeps {op : Op (Module τ) α} (h : Client op) : Keeps (· ≠ .created) op := by
  induction h with
  | pure a => exact keeps_pure a
  | throw e => exact keeps_throw e
  | read => exact keeps_get
  | perform bindings a => exact keeps_perform bindings a
  | tables f => exact keeps_modify fun _ => .of_eq rfl rfl
  | render b ctx =>
    intro m hm
    rw [exec_renderBy, exec_fragmentsBy, if_neg hm]
    exact .refl m
  | bind _ _ ih ihf => exact ih.bind ihf
  | tryCatch _ _ ih ihf => exact ih.tryCatch ihf

end Module

end ApiTypes
