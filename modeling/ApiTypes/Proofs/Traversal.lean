import ApiTypes.Error.Basic
import Mathlib.Data.List.Forall2

/-! Traversals of a list in `Except`. A traversal whose steps all succeed maps the
list, and one that fails reports its first failing step. The exact result of a
computation is stated as its failure, if there is one, and else a property of its value;
a sequence then fails with the first failure of its parts. -/

namespace ApiTypes.Traversal

variable {α β : Type}

@[simp] theorem ok_bind (a : α) (f : α → Except Error β) : (Except.ok a >>= f) = f a := rfl

@[simp] theorem error_bind (e : Error) (f : α → Except Error β) :
    (Except.error e >>= f) = .error e := rfl

@[simp] theorem pure_eq_ok (a : α) : (pure a : Except Error α) = .ok a := rfl

/-- A success can be decided even where failures have no decidable equality. -/
theorem eq_ok_of_toOption {ε : Type} {x : Except ε α} {a : α} (h : x.toOption = some a) :
    x = .ok a := by
  cases x with
  | error e => cases h
  | ok b => exact congrArg Except.ok (Option.some.inj h)

theorem mapM_eq_ok {f : α → Except Error β} {g : α → β} {l : List α}
    (h : ∀ x ∈ l, f x = .ok (g x)) : l.mapM f = .ok (l.map g) := by
  induction l with
  | nil => rfl
  | cons x rest ih =>
    rw [List.mapM_cons, h x List.mem_cons_self,
      ih fun y hy => h y (List.mem_cons_of_mem _ hy)]
    rfl

/-- A traversal succeeds exactly if every step does. -/
theorem exists_mapM_eq_ok_iff {f : α → Except Error β} {l : List α} :
    (∃ ys, l.mapM f = .ok ys) ↔ ∀ x ∈ l, ∃ y, f x = .ok y := by
  induction l with
  | nil => simp
  | cons x rest ih =>
    rw [List.mapM_cons, List.forall_mem_cons, ← ih]
    cases hx : f x with
    | error e => simp
    | ok y => cases hr : rest.mapM f <;> simp

/-- A traversal that succeeds maps its list. -/
theorem exists_map_of_mapM_eq_ok [Inhabited β] {f : α → Except Error β} {l : List α} {ys : List β}
    (h : l.mapM f = .ok ys) : ∃ g : α → β, (∀ x ∈ l, f x = .ok (g x)) ∧ ys = l.map g := by
  have hall := exists_mapM_eq_ok_iff.mp ⟨ys, h⟩
  let g (x : α) : β := match f x with
    | .ok y => y
    | .error _ => default
  have hg : ∀ x ∈ l, f x = .ok (g x) := by
    intro x hx
    obtain ⟨y, hy⟩ := hall x hx
    simp only [g, hy]
  exact ⟨g, hg, Except.ok.inj (h.symm.trans (mapM_eq_ok hg))⟩

/-- A traversal whose steps all answer as those of a successful one does gives the same
results. -/
theorem mapM_of_imp {f g : α → Except Error β} {l : List α} {ys : List β}
    (h : ∀ x ∈ l, ∀ y, f x = .ok y → g x = .ok y) (hl : l.mapM f = .ok ys) : l.mapM g = .ok ys := by
  induction l generalizing ys with
  | nil => exact hl
  | cons x rest ih =>
    rw [List.mapM_cons] at hl ⊢
    cases hx : f x with
    | error e => rw [hx] at hl; cases hl
    | ok y =>
      cases hr : rest.mapM f with
      | error e => rw [hx, hr] at hl; cases hl
      | ok zs =>
        rw [hx, hr] at hl
        rw [h x List.mem_cons_self y hx, ih (fun a ha => h a (List.mem_cons_of_mem _ ha)) hr]
        exact hl

/-- Traversals of a list in two orders give the same results at the same elements. -/
theorem mapM_perm [Inhabited β] {f : α → Except Error β} {l l' : List α} (hp : l.Perm l')
    {ys : List β} (h : l.mapM f = .ok ys) :
    ys.length = l.length ∧ ∃ ys', l'.mapM f = .ok ys' ∧ (l.zip ys).Perm (l'.zip ys') := by
  obtain ⟨g, hg, rfl⟩ := exists_map_of_mapM_eq_ok h
  refine ⟨List.length_map g, l'.map g, mapM_eq_ok fun x hx => hg x (hp.mem_iff.mpr hx), ?_⟩
  rw [← List.map_prod_left_eq_zip, ← List.map_prod_left_eq_zip]
  exact hp.map _

/-- Results that agree up to a map go on alike where only the image counts. -/
theorem bind_eq_of_map_eq {γ : Type} {f : α → γ} {k k' : α → Except Error β}
    (hk : ∀ a a', f a = f a' → k a = k' a') {r r' : Except Error α} (h : r.map f = r'.map f) :
    (r >>= k) = (r' >>= k') := by
  cases r with
  | error e =>
    cases r' with
    | error e' => exact congrArg Except.error (Except.error.inj h)
    | ok a' => cases h
  | ok a =>
    cases r' with
    | error e' => cases h
    | ok a' => exact hk a a' (Except.ok.inj h)

/-! ### Exact results -/

/-- A result that is a given failure, if there is one, and else a value with a property. -/
def Yields (fault? : Option Error) (P : α → Prop) (r : Except Error α) : Prop :=
  match fault? with
  | some e => r = .error e
  | none => ∃ a, r = .ok a ∧ P a

variable {P : α → Prop} {Q : β → Prop} {fault? fault'? : Option Error}

theorem yields_ok {a : α} (h : P a) : Yields none P (.ok a) :=
  ⟨a, rfl, h⟩

theorem Yields.bind {r : Except Error α} {f : α → Except Error β} (hr : Yields fault? P r)
    (hf : ∀ a, P a → Yields fault'? Q (f a)) : Yields (fault?.or fault'?) Q (r >>= f) := by
  cases fault? with
  | some e =>
    obtain rfl : r = .error e := hr
    rfl
  | none =>
    obtain ⟨a, rfl, ha⟩ := hr
    exact hf a ha

theorem Yields.map {r : Except Error α} {f : α → β} (hr : Yields fault? P r)
    (hf : ∀ a, P a → Q (f a)) : Yields fault? Q (do return f (← r)) := by
  have h := hr.bind (f := fun a => pure (f a)) fun a ha => yields_ok (hf a ha)
  rwa [Option.or_none] at h

theorem Yields.imp {Q : α → Prop} {r : Except Error α} (hr : Yields fault? P r)
    (h : ∀ a, P a → Q a) : Yields fault? Q r := by
  cases fault? with
  | some e => exact hr
  | none =>
    obtain ⟨a, ha, hp⟩ := hr
    exact ⟨a, ha, h a hp⟩

/-- Results that have two properties. -/
theorem Yields.and {Q : α → Prop} {r : Except Error α} (hp : Yields fault? P r)
    (hq : Yields fault? Q r) : Yields fault? (fun a => P a ∧ Q a) r := by
  cases fault? with
  | some e => exact hp
  | none =>
    obtain ⟨a, rfl, ha⟩ := hp
    obtain ⟨b, hb, hq⟩ := hq
    obtain rfl := Except.ok.inj hb
    exact ⟨a, rfl, ha, hq⟩

theorem Yields.eq_error_iff {r : Except Error α} (hr : Yields fault? P r) {e : Error} :
    r = .error e ↔ fault? = some e := by
  cases fault? with
  | some e' =>
    obtain rfl : r = .error e' := hr
    rw [Except.error.injEq, Option.some.injEq]
  | none =>
    obtain ⟨a, rfl, -⟩ := hr
    simp

theorem Yields.exists_eq_ok_iff {r : Except Error α} (hr : Yields fault? P r) :
    (∃ a, r = .ok a) ↔ fault? = none := by
  cases fault? with
  | some e =>
    obtain rfl : r = .error e := hr
    simp
  | none =>
    obtain ⟨a, rfl, -⟩ := hr
    simp

/-- A traversal fails with its first failing step. -/
theorem yields_mapM {f : α → Except Error β} {fault? : α → Option Error} {R : α → β → Prop}
    {l : List α} (hf : ∀ a ∈ l, Yields (fault? a) (R a) (f a)) :
    Yields (l.findSome? fault?) (fun ys => List.Forall₂ R l ys) (l.mapM f) := by
  induction l with
  | nil => exact yields_ok List.Forall₂.nil
  | cons a rest ih =>
    have hr := ih fun a' ha => hf a' (List.mem_cons_of_mem _ ha)
    rw [List.mapM_cons]
    have h := (hf a List.mem_cons_self).bind (f := fun y => do return y :: (← rest.mapM f))
      fun y hy => hr.map (f := fun ys => y :: ys) (Q := fun ys => List.Forall₂ R (a :: rest) ys)
        fun ys hys => .cons hy hys
    rw [List.findSome?_cons]
    cases ha : fault? a <;> rw [ha] at h <;> exact h

end ApiTypes.Traversal
