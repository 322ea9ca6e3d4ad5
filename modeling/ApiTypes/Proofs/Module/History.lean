import ApiTypes.Proofs.Module.Rendering

/-! Runs of a module of any length. Its operations are called from outside, one after the
other, and each may fail on its own; a rendering among them runs the members, which call back
into the module. Every call follows the arrows of the phases, so does the whole run with all
that its members saw, and one call of the run has a text at most. -/

namespace ApiTypes

open Op

namespace Module

variable {τ κ : Type} [Label τ]

/-- Runs one action from outside; a module that is only created renders as a whole. -/
def stepBy (b : Behaviour τ κ) (ctx : Context τ) (bindings : List (Binding τ)) :
    Action τ → Op (Module τ) (List (Binding τ) × τ)
  | .render => do return (bindings, Label.ofText (← renderBy b ctx))
  | a => perform bindings a

theorem stepBy_scripts (ctx : Context τ) (bindings : List (Binding τ)) (a : Action τ) :
    stepBy scripts ctx bindings a = step ctx bindings a := by
  cases a <;> rfl

end Module

/-- A call from outside, in a context that counts if the module is to render. -/
structure Call (τ : Type) where
  ctx : Context τ
  action : Action τ

/-- A call as it went. -/
structure Moment (τ : Type) where
  before : Module τ
  action : Action τ
  result : Except Error (List (Binding τ) × τ)
  after : Module τ

/-- Whether the module gave its text. -/
def Moment.rendered {τ : Type} (x : Moment τ) : Bool :=
  match x.action, x.result with
  | .render, .ok _ => true
  | _, _ => false

namespace Module

variable {τ κ : Type} [Label τ]

/-- A call of a module. -/
def call (b : Behaviour τ κ) (bindings : List (Binding τ)) (m : Module τ) (c : Call τ) : Moment τ :=
  { before := m, action := c.action
    result := (exec (stepBy b c.ctx bindings c.action) m).1
    after := (exec (stepBy b c.ctx bindings c.action) m).2 }

/-- The bindings that the caller has after a call. -/
def bindingsAfter (bindings : List (Binding τ)) (x : Moment τ) : List (Binding τ) :=
  match x.result with
  | .ok (bindings, _) => bindings
  | .error _ => bindings

/-- The calls of a run, as they went. -/
def history (b : Behaviour τ κ) : List (Binding τ) → Module τ → List (Call τ) → List (Moment τ)
  | _, _, [] => []
  | bindings, m, c :: rest =>
    let x := call b bindings m c
    x :: history b (bindingsAfter bindings x) x.after rest

/-- The module at the end of a run. -/
def last (m : Module τ) (run : List (Moment τ)) : Module τ :=
  (run.getLast?.map (·.after)).getD m

/-- What the operations of a module may do in its phases. -/
structure Disciplined (b : Behaviour τ κ) : Prop where
  /-- Members are added to a module that is only created. -/
  add : ∀ member (m : Module τ), exec (add member) m =
    if m.phase = .created then (.ok (), { m with members := m.members ++ [member] })
    else (.error (.ofDefect (.lateMember (Label.document m.path) m.phase)), m)
  /-- Names and imports are registered while the members are applied. -/
  request : ∀ (r : Request τ) (m : Module τ), r.registers = true → m.phase ≠ .applying →
    ∃ e, exec (request r) m = (.error e, m)
  /-- A module renders from the first phase on; otherwise it stays as it is. -/
  refused : ∀ ctx (m : Module τ), m.phase ≠ .created → exec (renderBy b ctx) m =
    (.error (.ofDefect (.wrongPhase "render" (Label.document m.path) .created m.phase)), m)
  /-- A rendering ends done or failed, and its members see the phases between. -/
  rendered : ∀ ctx (m : Module τ), m.phase = .created →
    ∃ seen, (∀ p ∈ seen, Phase.Working p) ∧
      (exec (renderBy b ctx) m).2.observed = m.observed ++ seen ∧
      Phase.Along .applying seen (exec (renderBy b ctx) m).2.phase ∧
      match (exec (renderBy b ctx) m).1 with
      | .ok _ => (exec (renderBy b ctx) m).2.phase = .done
      | .error _ => (exec (renderBy b ctx) m).2.phase = .failed
  /-- Members run in the phases for it alone. -/
  inside : ∀ (b' : Behaviour τ κ) ctx (m : Module τ), Alike b b' →
    exec (renderBy b' ctx) m = exec (renderBy b ctx) m

/-- A run whose calls follow the phases of a module. -/
structure Orderly (m : Module τ) (run : List (Moment τ)) : Prop where
  /-- Each call leads along the arrows, and so does the run with all that was seen in it. -/
  travels : Travels m (last m run) ∧ ∀ x ∈ run, Travels x.before x.after
  /-- What is done or failed stays so. -/
  final : ∀ x ∈ run, x.before.phase = .done ∨ x.before.phase = .failed →
    x.after.phase = x.before.phase
  /-- One call has a text at most. -/
  once : (run.filter Moment.rendered).length ≤ 1

/-! ### One call -/

variable {b : Behaviour τ κ}

theorem exec_renderBy_refused (b : Behaviour τ κ) (ctx : Context τ) {m : Module τ}
    (hm : m.phase ≠ .created) : exec (renderBy b ctx) m =
      (.error (.ofDefect (.wrongPhase "render" (Label.document m.path) .created m.phase)), m) := by
  rw [exec_renderBy, exec_fragmentsBy, if_neg hm]
  rfl

/-- Members that run outside of their phases run in no rendering. -/
theorem exec_renderBy_congr (hb : IsClient b) {b' : Behaviour τ κ} (h : Alike b b')
    (ctx : Context τ) (m : Module τ) : exec (renderBy b' ctx) m = exec (renderBy b ctx) m := by
  have hrun : exec (runPhasesBy b' ctx) m = exec (runPhasesBy b ctx) m := by
    show exec (workBy b' ctx) { m with phase := .applying } =
      exec (workBy b ctx) { m with phase := .applying }
    exact exec_workBy_congr hb h ctx _ rfl
  rw [exec_renderBy, exec_renderBy, exec_fragmentsBy, exec_fragmentsBy, hrun]

theorem travels_renderBy (hb : IsClient b) (ctx : Context τ) (m : Module τ) :
    Travels m (exec (renderBy b ctx) m).2 := by
  by_cases hm : m.phase = .created
  · obtain ⟨seen, -, hseen, halong, -⟩ := exec_renderBy_created hb ctx hm
    exact ⟨seen, hseen, hm ▸ halong.of_reach Phase.Next.apply.reach⟩
  · rw [exec_renderBy_refused b ctx hm]
    exact .of_eq rfl (.refl _)

/-- What a call does to a module: a rendering has its phases, and any other action has none. -/
theorem exec_stepBy (b : Behaviour τ κ) (ctx : Context τ) (bindings : List (Binding τ))
    (a : Action τ) (m : Module τ) :
    (a = .render ∧ (exec (stepBy b ctx bindings a) m).2 = (exec (renderBy b ctx) m).2 ∧
      (exec (stepBy b ctx bindings a) m).1.isOk = (exec (renderBy b ctx) m).1.isOk) ∨
    (a ≠ .render ∧ stepBy b ctx bindings a = perform bindings a) := by
  cases a with
  | render =>
    refine .inl ⟨rfl, ?_⟩
    show (exec (renderBy b ctx >>= _) m).2 = _ ∧ (exec (renderBy b ctx >>= _) m).1.isOk = _
    rw [exec_bind]
    rcases exec (renderBy b ctx) m with ⟨_ | _, t⟩ <;> exact ⟨rfl, rfl⟩
  | request r => exact .inr ⟨by simp, rfl⟩
  | read index => exact .inr ⟨by simp, rfl⟩
  | add member => exact .inr ⟨by simp, rfl⟩
  | resolve => exact .inr ⟨by simp, rfl⟩
  | use source member => exact .inr ⟨by simp, rfl⟩
  | observe => exact .inr ⟨by simp, rfl⟩

theorem travels_call (hb : IsClient b) (bindings : List (Binding τ)) (m : Module τ) (c : Call τ) :
    Travels m (call b bindings m c).after := by
  rcases exec_stepBy b c.ctx bindings c.action m with ⟨-, hm, -⟩ | ⟨-, hop⟩
  · rw [call, hm]
    exact travels_renderBy hb c.ctx m
  · rw [call, hop]
    exact (keeps_perform (P := fun _ => True) bindings c.action m trivial).2

/-- A module that gave its text was only created before, and is done. -/
theorem phase_of_rendered (hb : IsClient b) {bindings : List (Binding τ)} {m : Module τ}
    {c : Call τ} (h : (call b bindings m c).rendered = true) :
    m.phase = .created ∧ (call b bindings m c).after.phase = .done := by
  obtain ⟨ctx, a⟩ := c
  rcases exec_stepBy b ctx bindings a m with ⟨rfl, hafter, hok⟩ | ⟨ha, -⟩
  · have hresult : (exec (renderBy b ctx) m).1.isOk = true := by
      rw [← hok]
      cases hx : (exec (stepBy b ctx bindings .render) m).1 with
      | ok answer => rfl
      | error e => simp [Moment.rendered, call, hx] at h
    have hm : m.phase = .created := by
      by_contra hm
      rw [exec_renderBy_refused b ctx hm] at hresult
      cases hresult
    obtain ⟨seen, -, -, -, hlast⟩ := exec_renderBy_created hb ctx hm
    refine ⟨hm, ?_⟩
    show (exec (stepBy b ctx bindings .render) m).2.phase = _
    rw [hafter]
    revert hresult hlast
    cases (exec (renderBy b ctx) m).1 <;> simp [Except.isOk, Except.toBool]
  · unfold Moment.rendered call at h
    cases a <;> simp_all

/-! ### A run of calls -/

omit [Label τ] in
theorem last_cons (m : Module τ) (x : Moment τ) (run : List (Moment τ)) :
    last m (x :: run) = last x.after run := by
  cases run <;> simp [last, List.getLast?_cons]

/-- A run leads along the arrows, call by call. -/
theorem travels_history (hb : IsClient b) (calls : List (Call τ)) (bindings : List (Binding τ))
    (m : Module τ) : Travels m (last m (history b bindings m calls)) ∧
      ∀ x ∈ history b bindings m calls, Travels x.before x.after := by
  induction calls generalizing bindings m with
  | nil => exact ⟨.of_eq rfl (.refl _), by simp [history]⟩
  | cons c rest ih =>
    have hcall := travels_call hb bindings m c
    obtain ⟨hlast, hall⟩ := ih (bindingsAfter bindings (call b bindings m c))
      (call b bindings m c).after
    constructor
    · rw [history, last_cons]
      exact hcall.trans hlast
    · intro x hx
      rcases List.mem_cons.mp hx with rfl | hx
      · exact hcall
      · exact hall x hx

/-- A module that is more than created has no text to give. -/
theorem not_rendered_of_ne (hb : IsClient b) (calls : List (Call τ)) (bindings : List (Binding τ))
    {m : Module τ} (hm : m.phase ≠ .created) :
    (history b bindings m calls).filter Moment.rendered = [] := by
  induction calls generalizing bindings m with
  | nil => rfl
  | cons c rest ih =>
    have hnot : ¬ (call b bindings m c).rendered = true := fun h => hm (phase_of_rendered hb h).1
    rw [history, List.filter_cons_of_neg hnot]
    exact ih _ ((travels_call hb bindings m c).reach.ne_created hm)

theorem length_rendered_le (hb : IsClient b) (calls : List (Call τ)) (bindings : List (Binding τ))
    (m : Module τ) : ((history b bindings m calls).filter Moment.rendered).length ≤ 1 := by
  induction calls generalizing bindings m with
  | nil => simp [history]
  | cons c rest ih =>
    rw [history]
    by_cases h : (call b bindings m c).rendered = true
    · have hdone := (phase_of_rendered hb h).2
      rw [List.filter_cons_of_pos h, not_rendered_of_ne hb rest _ (by simp [hdone])]
      simp
    · rw [List.filter_cons_of_neg h]
      exact ih _ _

/-- A module whose members are arbitrary client code follows its phases: one call by one, as
its members see it, and over runs of any length. -/
theorem follows_phases (b : Behaviour τ κ) (hb : IsClient b) :
    Disciplined b ∧ ∀ bindings m calls, Orderly m (history b bindings m calls) := by
  refine ⟨⟨exec_add, fun r m hr hm => exec_request_of_ne hr hm, ?_, ?_, ?_⟩, ?_⟩
  · exact fun ctx m hm => exec_renderBy_refused b ctx hm
  · exact fun ctx m hm => exec_renderBy_created hb ctx hm
  · exact fun b' ctx m h => exec_renderBy_congr hb h ctx m
  · intro bindings m calls
    have htravels := travels_history hb calls bindings m
    exact
      { travels := htravels
        final := fun x hx hfinal => (htravels.2 x hx).reach.eq_of_final hfinal
        once := length_rendered_le hb calls bindings m }

/-- Members that whenever they run try to add a member and to render their module, and go
on. -/
def meddling : Behaviour String Unit :=
  let ctx : Context String :=
    { apiVersion := "v1", dependencies := [], modulePath := "v1.ts", engine := .deno
      packaging := .hosted }
  let attempt (op : Op (Module String) Unit) : Op (Module String) Unit :=
    tryCatch op fun _ => pure ()
  let meddle : Op (Module String) Unit := do
    attempt do let _ ← perform [] (.add (.script [] []))
    attempt do let _ ← renderBy scripts ctx
    let _ ← perform [] .observe
  { apply := fun _ => meddle
    render := fun _ _ _ => do
      meddle
      return "text" }

theorem isClient_meddling : IsClient meddling := by
  have hattempt : ∀ {op : Op (Module String) Unit}, Client op →
      Client (tryCatch op fun _ => pure ()) := fun h => h.tryCatch fun _ => .pure ()
  have hperform : ∀ a : Action String, Client (do let _ ← perform [] a) :=
    fun a => (Client.perform [] a).bind fun _ => .pure ()
  have hmeddle : ∀ member, Client (meddling.apply member) := fun _ =>
    (hattempt (hperform _)).bind fun _ =>
      (hattempt ((Client.render _ _).bind fun _ => .pure ())).bind fun _ => hperform _
  exact ⟨hmeddle, fun _ _ member => (hmeddle member).bind fun _ => .pure _⟩

/-- A module with two such members is rendered and then rendered again. -/
theorem follows_phases_meddling :
    let ctx : Context String :=
      { apiVersion := "v1", dependencies := [], modulePath := "v1.ts", engine := .deno
        packaging := .hosted }
    let adding : Call String := ⟨ctx, .add (.script [] [])⟩
    let naming : Call String := ⟨ctx, .request (.name "Foo" .declaration)⟩
    let rendering : Call String := ⟨ctx, .render⟩
    let run := history meddling [] { path := "v1.ts" }
      [adding, naming, adding, ⟨ctx, .observe⟩, rendering, rendering, adding]
    (run.map fun x => (x.result.isOk, x.rendered, x.after.phase)) =
        [(true, false, .created), (false, false, .created), (true, false, .created),
          (true, false, .created), (true, true, .done), (false, false, .done),
          (false, false, .done)] ∧
      (last { path := "v1.ts" } run).observed =
        [.created, .applying, .applying, .rendering, .rendering] ∧
      Disciplined meddling ∧ Orderly { path := "v1.ts" } run := by
  intro ctx adding naming rendering run
  obtain ⟨hdisciplined, horderly⟩ := follows_phases meddling isClient_meddling
  exact ⟨by decide +kernel, by decide +kernel, hdisciplined, horderly [] _ _⟩

end Module

end ApiTypes
