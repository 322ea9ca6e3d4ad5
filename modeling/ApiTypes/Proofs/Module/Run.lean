import ApiTypes.Module.Basic
import ApiTypes.Proofs.Traversal
import Mathlib.Order.Defs.Unbundled

/-! Runs of operations. Running an operation from a state gives its result and the
state that it leaves, also when it fails. A sequence runs on from the state of its
first part, and a loop whose steps succeed folds the changes of its steps. Of the
operations of a module, the smallest ones are run here once and for all. -/

namespace ApiTypes.Op

variable {σ α β : Type}

/-- The result of an operation and the state that it leaves. -/
def exec (op : Op σ α) (s : σ) : Except Error α × σ :=
  op.run s

@[simp] theorem exec_pure (a : α) (s : σ) : exec (pure a : Op σ α) s = (.ok a, s) := rfl

@[simp] theorem exec_get (s : σ) : exec (get : Op σ σ) s = (.ok s, s) := rfl

@[simp] theorem exec_set (s t : σ) : exec (set t : Op σ Unit) s = (.ok (), t) := rfl

@[simp] theorem exec_modify (f : σ → σ) (s : σ) :
    exec (modify f : Op σ Unit) s = (.ok (), f s) := rfl

@[simp] theorem exec_liftExcept (r : Except Error α) (s : σ) :
    exec (liftExcept r : Op σ α) s = (r, s) := by
  cases r <;> rfl

theorem stateM_bind_apply (x : StateM σ α) (f : α → StateM σ β) (s : σ) :
    (x >>= f) s = f (x s).1 (x s).2 := rfl

theorem exec_bind (op : Op σ α) (f : α → Op σ β) (s : σ) :
    exec (op >>= f) s =
      match exec op s with
      | (.ok a, t) => exec (f a) t
      | (.error e, t) => (.error e, t) := by
  rw [exec, ExceptT.run_bind, stateM_bind_apply, exec]
  rcases op.run s with ⟨_ | _, t⟩ <;> rfl

theorem exec_bind_of_ok {op : Op σ α} {s t : σ} {a : α} (h : exec op s = (.ok a, t))
    (f : α → Op σ β) : exec (op >>= f) s = exec (f a) t := by
  rw [exec_bind, h]

theorem exec_bind_eq_ok {op : Op σ α} {f : α → Op σ β} {s t : σ} {b : β}
    (h : exec (op >>= f) s = (.ok b, t)) :
    ∃ a u, exec op s = (.ok a, u) ∧ exec (f a) u = (.ok b, t) := by
  rw [exec_bind] at h
  rcases hx : exec op s with ⟨_ | a, u⟩
  · rw [hx] at h
    cases h
  · rw [hx] at h
    exact ⟨a, u, rfl, h⟩

/-- A sequence that fails does so in its first part or after it. -/
theorem exec_bind_eq_error {op : Op σ α} {f : α → Op σ β} {s t : σ} {e : Error}
    (h : exec (op >>= f) s = (.error e, t)) :
    exec op s = (.error e, t) ∨ ∃ a u, exec op s = (.ok a, u) ∧ exec (f a) u = (.error e, t) := by
  rw [exec_bind] at h
  rcases hx : exec op s with ⟨e' | a, u⟩
  · rw [hx] at h
    obtain ⟨he, rfl⟩ := Prod.mk.inj h
    exact .inl (by rw [Except.error.inj he])
  · rw [hx] at h
    exact .inr ⟨a, u, rfl, h⟩

theorem exec_bind_of_error {op : Op σ α} {s : σ} {e : Error} (h : (exec op s).1 = .error e)
    (f : α → Op σ β) : (exec (op >>= f) s).1 = .error e := by
  rw [exec_bind]
  rcases hx : exec op s with ⟨r, t⟩
  rw [hx] at h
  subst h
  rfl

/-- What follows without changing the state only maps the result. -/
theorem exec_bind_pure {op : Op σ α} {s t : σ} {r : Except Error α} (h : exec op s = (r, t))
    (f : α → β) : exec (do return f (← op)) s = (do return f (← r), t) := by
  rw [exec_bind, h]
  cases r <;> rfl

theorem exec_tryCatch (op : Op σ α) (handle : Error → Op σ α) (s : σ) :
    exec (tryCatch op handle) s =
      match exec op s with
      | (.ok a, t) => (.ok a, t)
      | (.error e, t) => exec (handle e) t := by
  rw [exec, ExceptT.run_tryCatch, stateM_bind_apply, exec]
  rcases op.run s with ⟨_ | _, t⟩ <;> rfl

/-! ### Loops -/

/-- A loop whose steps succeed folds the changes of its steps, as long as these keep an
invariant. -/
theorem exec_forM {f : α → Op σ Unit} {change : σ → α → σ} {Inv : σ → Prop} (l : List α)
    (hf : ∀ s, Inv s → ∀ a ∈ l, exec (f a) s = (.ok (), change s a) ∧ Inv (change s a)) (s : σ)
    (hs : Inv s) : exec (l.forM f) s = (.ok (), l.foldl change s) ∧ Inv (l.foldl change s) := by
  induction l generalizing s with
  | nil => exact ⟨rfl, hs⟩
  | cons a rest ih =>
    obtain ⟨ha, hi⟩ := hf s hs a List.mem_cons_self
    show exec (f a >>= fun _ => rest.forM f) s = _ ∧ _
    rw [exec_bind_of_ok ha, List.foldl_cons]
    exact ih (fun t ht b hb => hf t ht b (List.mem_cons_of_mem _ hb)) _ hi

/-- A loop whose steps fail and leave the state alone fails at its first element. -/
theorem exec_forM_of_refused {f : α → Op σ Unit} {refusal : α → Error} {s : σ}
    (hf : ∀ a, exec (f a) s = (.error (refusal a), s)) (l : List α) :
    exec (l.forM f) s =
      match l.head? with
      | none => (.ok (), s)
      | some a => (.error (refusal a), s) := by
  cases l with
  | nil => rfl
  | cons a rest =>
    show exec (f a >>= fun _ => rest.forM f) s = _
    rw [exec_bind, hf]
    rfl

/-- A loop of loops is one loop. -/
theorem forM_flatMap (l : List α) (f : α → List β) (g : β → Op σ Unit) :
    (l.flatMap f).forM g = l.forM fun a => (f a).forM g := by
  induction l with
  | nil => rfl
  | cons a rest ih =>
    rw [List.flatMap_cons]
    show forM (f a ++ rest.flatMap f) g = forM (f a) g >>= fun _ => rest.forM fun a => (f a).forM g
    rw [List.forM_append, ← ih]
    rfl

/-- A traversal that succeeds, seen at one of its elements. -/
theorem exec_mapM_split {f : α → Op σ β} {before after : List α} {a : α} {s t : σ} {bs : List β}
    (h : exec ((before ++ a :: after).mapM f) s = (.ok bs, t)) :
    ∃ bs₁ b bs₂ s₁ s₂, bs = bs₁ ++ b :: bs₂ ∧ bs₁.length = before.length ∧
      exec (before.mapM f) s = (.ok bs₁, s₁) ∧ exec (f a) s₁ = (.ok b, s₂) ∧
      exec (after.mapM f) s₂ = (.ok bs₂, t) := by
  induction before generalizing s bs with
  | nil =>
    rw [List.nil_append, List.mapM_cons] at h
    obtain ⟨b, s₂, ha, h⟩ := exec_bind_eq_ok h
    obtain ⟨bs₂, t', hafter, h⟩ := exec_bind_eq_ok h
    obtain ⟨rfl, rfl⟩ : b :: bs₂ = bs ∧ t' = t := by simpa using h
    exact ⟨[], b, bs₂, s, s₂, rfl, rfl, rfl, ha, hafter⟩
  | cons x before ih =>
    rw [List.cons_append, List.mapM_cons] at h
    obtain ⟨y, u, hx, h⟩ := exec_bind_eq_ok h
    obtain ⟨ys, t', hrest, h⟩ := exec_bind_eq_ok h
    obtain ⟨rfl, rfl⟩ : y :: ys = bs ∧ t' = t := by simpa using h
    obtain ⟨bs₁, b, bs₂, s₁, s₂, rfl, hlen, hbefore, ha, hafter⟩ := ih hrest
    refine ⟨y :: bs₁, b, bs₂, s₁, s₂, rfl, congrArg (· + 1) hlen, ?_, ha, hafter⟩
    rw [List.mapM_cons, exec_bind_of_ok hx, exec_bind_of_ok hbefore, exec_pure]

/-! ### Changes of the state -/

/-- An operation that changes the state only as a relation allows, also if it fails. -/
def Within (R : σ → σ → Prop) (op : Op σ α) : Prop :=
  ∀ s, R s (exec op s).2

section

variable {R : σ → σ → Prop} [IsPreorder σ R]

theorem within_of_fixed {op : Op σ α} (h : ∀ s, (exec op s).2 = s) : Within R op := by
  intro s
  rw [h]
  exact Std.Refl.refl s

theorem within_pure (a : α) : Within R (pure a : Op σ α) :=
  within_of_fixed fun _ => rfl

theorem within_throw (e : Error) : Within R (throw e : Op σ α) :=
  within_of_fixed fun _ => rfl

theorem within_get : Within R (get : Op σ σ) :=
  within_of_fixed fun _ => rfl

theorem within_liftExcept (r : Except Error α) : Within R (liftExcept r : Op σ α) :=
  within_of_fixed fun s => by rw [exec_liftExcept]

theorem Within.bind {op : Op σ α} {f : α → Op σ β} (h : Within R op) (hf : ∀ a, Within R (f a)) :
    Within R (op >>= f) := by
  intro s
  have hop := h s
  rw [exec_bind]
  rcases hx : exec op s with ⟨_ | a, t⟩
  · rwa [hx] at hop
  · rw [hx] at hop
    exact IsTrans.trans _ _ _ hop (hf a t)

theorem within_mapM {f : α → Op σ β} (h : ∀ a, Within R (f a)) (l : List α) :
    Within R (l.mapM f) := by
  induction l with
  | nil =>
    rw [List.mapM_nil]
    exact within_pure _
  | cons a rest ih =>
    rw [List.mapM_cons]
    exact (h a).bind fun _ => ih.bind fun _ => within_pure _

theorem within_forM {f : α → Op σ Unit} (h : ∀ a, Within R (f a)) (l : List α) :
    Within R (l.forM f) := by
  induction l with
  | nil => exact within_pure ()
  | cons a rest ih => exact (h a).bind fun _ => ih

theorem within_foldlM {f : β → α → Op σ β} (h : ∀ b a, Within R (f b a)) (l : List α) (b : β) :
    Within R (l.foldlM f b) := by
  induction l generalizing b with
  | nil => exact within_pure b
  | cons a rest ih =>
    rw [List.foldlM_cons]
    exact (h b a).bind ih

end

end ApiTypes.Op

/-! ### The operations of a module -/

namespace ApiTypes.Module

open Op

variable {τ : Type} [Label τ]

theorem exec_expect_eq (required : Phase) (action : String) (m : Module τ) :
    exec (expect required action) m =
      if m.phase = required then (.ok (), m)
      else (.error (.ofDefect (.wrongPhase action (Label.document m.path) required m.phase)),
        m) := by
  rw [expect, exec_bind_of_ok (exec_get m)]
  by_cases h : m.phase = required
  · rw [if_neg (not_not.mpr h), if_pos h]
    rfl
  · rw [if_pos h, if_neg h]
    rfl

theorem exec_add (member : Member τ) (m : Module τ) :
    exec (add member) m =
      if m.phase = .created then (.ok (), { m with members := m.members ++ [member] })
      else (.error (.ofDefect (.lateMember (Label.document m.path) m.phase)), m) := by
  rw [add, exec_bind_of_ok (exec_get m)]
  by_cases h : m.phase = .created
  · rw [if_neg (not_not.mpr h), if_pos h]
    rfl
  · rw [if_pos h, if_neg h]
    rfl

theorem exec_addName_eq (identifier : τ) (usage : Usage) (m : Module τ) :
    exec (addName identifier usage) m =
      match m.names.add identifier usage with
      | .ok (names, serial) => (.ok (.name serial identifier), { m with names })
      | .error e => (.error e, m) := by
  rw [addName, exec_bind_of_ok (exec_get m), exec_bind, exec_liftExcept]
  cases m.names.add identifier usage <;> rfl

theorem exec_applyImport_eq (urn : String) (i : Import τ) (m : Module τ) :
    exec (applyImport urn i) m =
      match m.names.add i.identifier .imported with
      | .ok (names, serial) =>
        (.ok (), { m with names, imports := m.imports.setName urn i.member serial })
      | .error e => (.error e, m) := by
  rw [applyImport, exec_bind_of_ok (exec_get m), exec_bind, exec_liftExcept]
  cases m.names.add i.identifier .imported <;> rfl

/-- A resolution leaves what it has come to, also where it fails. -/
theorem exec_resolveNames_eq (m : Module τ) :
    exec resolveNames m =
      (match m.names.resolve.error with
        | some e => .error e
        | none => .ok (),
      { m with names := m.names.resolve.names, log := m.log ++ m.names.resolve.events }) := by
  rw [resolveNames, exec_bind_of_ok (exec_get m), exec_bind_of_ok (exec_set ..)]
  cases m.names.resolve.error <;> rfl

end ApiTypes.Module
