import ApiTypes.Proofs.Module.Phases

/-! One rendering of a module, whose members are client code, scripts among them. It takes a
module that is only created through its working phases, applies its members in the first of
them and renders them in the last, and leaves it done or failed. The members see no other
phases, so what they would do in one has no part in the rendering. -/

namespace ApiTypes

open Op

namespace Module

variable {τ κ α β : Type} [Label τ]

/-- Members that reach their module through its operations alone. -/
structure IsClient (b : Behaviour τ κ) : Prop where
  apply : ∀ member, Client (b.apply member)
  render : ∀ ctx kept member, Client (b.render ctx kept member)

/-- Members that do the same as others do, where they are applied in the phase for it and
where they are rendered in the phase for it. -/
structure Alike (b b' : Behaviour τ κ) : Prop where
  apply : ∀ member (m : Module τ), m.phase = .applying →
    exec (b'.apply member) m = exec (b.apply member) m
  render : ∀ ctx kept member (m : Module τ), m.phase = .rendering →
    exec (b'.render ctx kept member) m = exec (b.render ctx kept member) m

/-! ### Scripts -/

section

theorem Client.liftExcept (r : Except Error α) : Client (liftExcept r : Op (Module τ) α) := by
  cases r with
  | ok a => exact .pure a
  | error e => exact .throw e

theorem Client.foldlM {f : β → α → Op (Module τ) β} (h : ∀ b a, Client (f b a)) (l : List α)
    (b : β) : Client (l.foldlM f b) := by
  induction l generalizing b with
  | nil => exact .pure b
  | cons a rest ih =>
    rw [List.foldlM_cons]
    exact (h b a).bind fun c => ih c

/-- Members as the scripts that they are. -/
def scripts : Behaviour τ (List (Binding τ)) :=
  { apply := applyMember, render := renderMember }

theorem renderBy_scripts (ctx : Context τ) : renderBy scripts ctx = render ctx := rfl

theorem client_renderPart (ctx : Context τ) (bindings : List (Binding τ)) (part : Part τ) :
    Client (renderPart ctx bindings part) := by
  cases part with
  | piece p => exact Client.read.bind fun m => (Client.liftExcept _).bind fun _ => .pure _
  | binding index => exact .perform bindings (.read index)
  | action a => exact .perform bindings a

/-- A script is client code. -/
theorem isClient_scripts : IsClient (scripts : Behaviour τ (List (Binding τ))) where
  apply
    | .script actions _ =>
      Client.foldlM (fun bindings a => (Client.perform bindings a).bind fun _ => .pure _) actions []
  render
    | ctx, kept, .script _ parts =>
      (Client.foldlM (fun _ part => (client_renderPart ctx _ part).bind fun _ => .pure _) parts
        (kept, [])).bind fun _ => (Client.liftExcept _).bind fun _ => .pure _

end

/-! ### The phases of one rendering -/

/-- An operation that leads from one phase to another if it succeeds, and otherwise stops in
a working phase. -/
def Advances (p q : Phase) (op : Op (Module τ) α) : Prop :=
  ∀ m, m.phase = p → Travels m (exec op m).2 ∧
    match (exec op m).1 with
    | .ok _ => (exec op m).2.phase = q
    | .error _ => (exec op m).2.phase.Working

section

variable {p q r : Phase}

omit [Label τ] in
theorem Advances.bind {op : Op (Module τ) α} {f : α → Op (Module τ) β} (h : Advances p q op)
    (hf : ∀ a, Advances q r (f a)) : Advances p r (op >>= f) := by
  intro m hm
  obtain ⟨htravels, hphase⟩ := h m hm
  rw [exec_bind]
  rcases hx : exec op m with ⟨_ | a, t⟩
  · rw [hx] at htravels hphase
    exact ⟨htravels, hphase⟩
  · rw [hx] at htravels hphase
    obtain ⟨hmore, hlast⟩ := hf a t hphase
    exact ⟨htravels.trans hmore, hlast⟩

omit [Label τ] in
theorem Keeps.advances {op : Op (Module τ) α} (h : Keeps (· ≠ .created) op) (hp : p.Working) :
    Advances p p op := by
  intro m hm
  obtain ⟨hphase, htravels⟩ := h m (hm ▸ hp.ne_created)
  refine ⟨htravels, ?_⟩
  rw [hphase, hm]
  cases (exec op m).1 with
  | ok _ => rfl
  | error _ => exact hp

omit [Label τ] in
theorem advances_setPhase (h : p.Next q) : Advances p q (setPhase q : Op (Module τ) Unit) := by
  rintro m rfl
  exact ⟨.of_eq rfl h.reach, rfl⟩

omit [Label τ] in
/-- Operations that do the same from a module on, if what follows does so from the phase that
the first one leads to. -/
theorem Advances.exec_bind_congr {op op' : Op (Module τ) α} {f f' : α → Op (Module τ) β}
    (h : Advances p q op) {m : Module τ} (hm : m.phase = p) (hop : exec op' m = exec op m)
    (hf : ∀ a t, t.phase = q → exec (f' a) t = exec (f a) t) :
    exec (op' >>= f') m = exec (op >>= f) m := by
  have hphase := (h m hm).2
  rw [exec_bind, exec_bind, hop]
  rcases hx : exec op m with ⟨_ | a, t⟩
  · rfl
  · rw [hx] at hphase
    exact hf a t hphase

/-- An operation that advances, and another one that does the same from its phase. -/
def Matches (p q : Phase) (op op' : Op (Module τ) α) : Prop :=
  Advances p q op ∧ ∀ m, m.phase = p → exec op' m = exec op m

omit [Label τ] in
theorem Advances.matches {op : Op (Module τ) α} (h : Advances p q op) : Matches p q op op :=
  ⟨h, fun _ _ => rfl⟩

omit [Label τ] in
theorem Matches.bind {op op' : Op (Module τ) α} {f f' : α → Op (Module τ) β}
    (h : Matches p q op op') (hf : ∀ a, Matches q r (f a) (f' a)) :
    Matches p r (op >>= f) (op' >>= f') :=
  ⟨h.1.bind fun a => (hf a).1,
    fun m hm => h.1.exec_bind_congr hm (h.2 m hm) fun a => (hf a).2⟩

omit [Label τ] in
theorem matches_mapM (hp : p.Working) {f f' : α → Op (Module τ) β}
    (h : ∀ a, Matches p p (f a) (f' a)) (l : List α) :
    Matches p p (l.mapM f) (l.mapM f') := by
  have hpure : ∀ bs : List β, Matches p p (pure bs : Op (Module τ) (List β)) (pure bs) :=
    fun bs => ((keeps_pure bs).advances hp).matches
  induction l with
  | nil =>
    rw [List.mapM_nil, List.mapM_nil]
    exact hpure []
  | cons a rest ih =>
    rw [List.mapM_cons, List.mapM_cons]
    exact (h a).bind fun b => ih.bind fun bs => hpure (b :: bs)

end

section

variable {b : Behaviour τ κ}

/-- The members of a module are applied, its names are resolved, and the members are rendered.
What they would do elsewhere has no part in this. -/
theorem matches_workBy (hb : IsClient b) {b' : Behaviour τ κ} (h : Alike b b') (ctx : Context τ) :
    Matches .applying .rendering (workBy b ctx) (workBy b' ctx) := by
  have happlying : Phase.Working .applying := .inl rfl
  have hresolving : Phase.Working .resolving := .inr (.inl rfl)
  have hrendering : Phase.Working .rendering := .inr (.inr rfl)
  have happly : ∀ member, Matches .applying .applying (b.apply member) (b'.apply member) :=
    fun member => ⟨(hb.apply member).keeps.advances happlying, h.apply member⟩
  have hrender : ∀ pair : Member τ × κ, Matches .rendering .rendering
      (b.render ctx pair.2 pair.1) (b'.render ctx pair.2 pair.1) := fun pair =>
    ⟨(hb.render ctx pair.2 pair.1).keeps.advances hrendering, h.render ctx pair.2 pair.1⟩
  refine (keeps_get.advances happlying).matches.bind fun m => ?_
  refine (matches_mapM happlying happly m.members).bind fun kept => ?_
  refine (keeps_applyImports.advances happlying).matches.bind fun _ => ?_
  refine (advances_setPhase .resolve).matches.bind fun _ => ?_
  refine (keeps_resolveNames.advances hresolving).matches.bind fun _ => ?_
  refine (keeps_get.advances hresolving).matches.bind fun m => ?_
  refine ((keeps_note _).advances hresolving).matches.bind fun _ => ?_
  refine (advances_setPhase .render).matches.bind fun _ => ?_
  refine ((keeps_importBlock ctx).advances hrendering).matches.bind fun block => ?_
  refine (matches_mapM hrendering hrender (m.members.zip kept)).bind fun texts => ?_
  exact ((keeps_pure _).advances hrendering).matches

theorem advances_workBy (hb : IsClient b) (ctx : Context τ) :
    Advances .applying .rendering (workBy b ctx) :=
  (matches_workBy hb ⟨fun _ _ _ => rfl, fun _ _ _ _ _ => rfl⟩ ctx).1

theorem exec_workBy_congr (hb : IsClient b) {b' : Behaviour τ κ} (h : Alike b b')
    (ctx : Context τ) (m : Module τ) (hm : m.phase = .applying) :
    exec (workBy b' ctx) m = exec (workBy b ctx) m :=
  (matches_workBy hb h ctx).2 m hm

/-- A rendering of a module that is only created: its members see working phases, and it is
done with a text or failed without one. -/
theorem exec_renderBy_created (hb : IsClient b) (ctx : Context τ) {m : Module τ}
    (hm : m.phase = .created) :
    ∃ seen, (∀ p ∈ seen, Phase.Working p) ∧
      (exec (renderBy b ctx) m).2.observed = m.observed ++ seen ∧
      Phase.Along .applying seen (exec (renderBy b ctx) m).2.phase ∧
      match (exec (renderBy b ctx) m).1 with
      | .ok _ => (exec (renderBy b ctx) m).2.phase = .done
      | .error _ => (exec (renderBy b ctx) m).2.phase = .failed := by
  obtain ⟨⟨seen, hseen, halong⟩, hlast⟩ := advances_workBy hb ctx { m with phase := .applying } rfl
  have hworking : ∀ q, Phase.Along .applying seen q → q.Working → ∀ p ∈ seen, Phase.Working p :=
    fun q hq hlast p hp => (Phase.Working.between (.inl rfl) hlast (hq.reach_of_mem hp).1
      (hq.reach_of_mem hp).2)
  have hrun : exec (runPhasesBy b ctx) m = exec (workBy b ctx) { m with phase := .applying } :=
    exec_bind_of_ok rfl _
  rw [exec_renderBy, exec_fragmentsBy, if_pos hm, hrun]
  rcases hx : exec (workBy b ctx) { m with phase := .applying } with ⟨e | texts, t⟩
  · rw [hx] at hseen halong hlast
    have hfailed : Phase.Next t.phase .failed := .fail hlast
    exact ⟨seen, hworking _ halong hlast, hseen, halong.trans_reach hfailed.reach, rfl⟩
  · rw [hx] at hseen halong hlast
    have hdone : Phase.Next t.phase .done := hlast ▸ .finish
    have hrendering : t.phase.Working := .inr (.inr hlast)
    exact ⟨seen, hworking _ halong hrendering, hseen, halong.trans_reach hdone.reach, rfl⟩

end

end Module

end ApiTypes
