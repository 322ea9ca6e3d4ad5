import ApiTypes.Proofs.Name.Numbered
import Mathlib.Data.List.Nodup

/-! Resolution of an identifier table in closed form. The position of a registration
counts the declarations of its identifier, and for an import also the earlier
imports of it. A resolution of a table that has no spellings yet always succeeds
and gives every registration the spelling at its position, whatever order the
groups are taken in. -/

namespace ApiTypes.Names

open Name (numbered)

/-- How many of some registrations ask for an identifier in a usage. -/
def countOf (identifier : String) (usage : Usage) (entries : List (Name String)) : Nat :=
  entries.countP fun n => n.identifier = identifier ∧ n.usage = usage

/-- The position of a registration in its group: declarations stand before imports, and
each usage keeps the order of registration. -/
def position (entries : List (Name String)) (serial : Nat) (n : Name String) : Nat :=
  match n.usage with
  | .declaration => countOf n.identifier .declaration (entries.take serial)
  | .imported =>
    countOf n.identifier .declaration entries +
      countOf n.identifier .imported (entries.take serial)

/-- Every registration with the spelling at its position. -/
def settled (entries : List (Name String)) : List (Name String) :=
  entries.mapIdx fun serial n =>
    { n with spelling := some (numbered n.identifier (position entries serial n)) }

/-! ### Positions in a group -/

/-- The place of an element among those that pass a test is the number of elements
before it that pass. -/
theorem getElem?_filter_zipIdx {α : Type} (p : α → Bool) (es : List α) (first k : Nat) (x : α)
    (s : Nat) :
    ((es.zipIdx first).filter fun e => p e.1)[k]? = some (x, s) ↔
      ∃ i, s = first + i ∧ es[i]? = some x ∧ p x = true ∧ (es.take i).countP p = k := by
  induction es generalizing first k with
  | nil => simp
  | cons e rest ih =>
    rw [List.zipIdx_cons, List.filter_cons]
    by_cases he : p e = true
    · simp only [he, if_true]
      cases k with
      | zero =>
        constructor
        · intro h
          simp only [List.getElem?_cons_zero, Option.some.injEq, Prod.mk.injEq] at h
          obtain ⟨rfl, rfl⟩ := h
          exact ⟨0, rfl, rfl, he, rfl⟩
        · rintro ⟨i, rfl, hx, -, hc⟩
          cases i with
          | zero => simpa using hx
          | succ i => simp [he] at hc
      | succ k =>
        rw [List.getElem?_cons_succ, ih]
        constructor
        · rintro ⟨i, rfl, hx, hp, rfl⟩
          exact ⟨i + 1, by omega, hx, hp, by simp [he]⟩
        · rintro ⟨i, rfl, hx, hp, hc⟩
          cases i with
          | zero => simp at hc
          | succ i => exact ⟨i, by omega, hx, hp, by simpa [he] using hc⟩
    · simp only [he, if_false, Bool.false_eq_true]
      rw [ih]
      constructor
      · rintro ⟨i, rfl, hx, hp, rfl⟩
        exact ⟨i + 1, by omega, hx, hp, by simp [he]⟩
      · rintro ⟨i, rfl, hx, hp, rfl⟩
        cases i with
        | zero => simp_all
        | succ i => exact ⟨i, by omega, hx, hp, by simp [he]⟩

/-- The registrations of an identifier in one usage, with their serial numbers. -/
def ofUsage (identifier : String) (usage : Usage) (entries : List (Name String)) :
    List (Name String × Nat) :=
  entries.zipIdx.filter fun e => e.1.identifier = identifier ∧ e.1.usage = usage

theorem length_ofUsage (x : String) (u : Usage) (entries : List (Name String)) :
    (ofUsage x u entries).length = countOf x u entries := by
  rw [ofUsage, countOf, ← List.countP_eq_length_filter]
  conv_rhs => rw [← List.zipIdx_map_fst 0 entries, List.countP_map]
  rfl

theorem ofUsage_getElem? (x : String) (u : Usage) (entries : List (Name String)) (k s : Nat)
    (n : Name String) :
    (ofUsage x u entries)[k]? = some (n, s) ↔
      entries[s]? = some n ∧ n.identifier = x ∧ n.usage = u ∧
        countOf x u (entries.take s) = k := by
  rw [ofUsage, getElem?_filter_zipIdx (fun n : Name String => n.identifier = x ∧ n.usage = u)]
  simp [countOf, and_assoc]

variable (t : Names String)

theorem ranking_eq (x : String) :
    t.ranking x =
      (ofUsage x .declaration t.entries ++ ofUsage x .imported t.entries).map (·.2) := by
  have hd : ∀ u : Usage, (!decide (u = .declaration)) = decide (u = .imported) := by
    intro u; cases u <;> rfl
  simp only [ranking, groupOf, List.partition_eq_filter_filter, List.filter_filter, ofUsage,
    Label.same_string, Bool.decide_and, Function.comp_def, hd, Bool.and_comm]

theorem ranking_getElem? (x : String) (k s : Nat) :
    (t.ranking x)[k]? = some s ↔
      ∃ n, t.entries[s]? = some n ∧ n.identifier = x ∧ position t.entries s n = k := by
  rw [ranking_eq, List.getElem?_map, List.getElem?_append, length_ofUsage]
  constructor
  · intro h
    obtain ⟨⟨n, s'⟩, he, rfl⟩ := Option.map_eq_some_iff.mp h
    split at he
    · obtain ⟨hn, hx, hu, hk⟩ := (ofUsage_getElem? ..).mp he
      exact ⟨n, hn, hx, by simp only [position, hu, hx, hk]⟩
    · obtain ⟨hn, hx, hu, hk⟩ := (ofUsage_getElem? ..).mp he
      exact ⟨n, hn, hx, by simp only [position, hu, hx, hk]; omega⟩
  · rintro ⟨n, hn, hx, hk⟩
    rw [Option.map_eq_some_iff]
    refine ⟨(n, s), ?_, rfl⟩
    cases hu : n.usage with
    | declaration =>
      simp only [position, hu, hx] at hk
      have he := (ofUsage_getElem? x .declaration t.entries k s n).mpr ⟨hn, hx, hu, hk⟩
      have hlt := (List.getElem?_eq_some_iff.mp he).1
      rw [length_ofUsage] at hlt
      rw [if_pos hlt, he]
    | imported =>
      simp only [position, hu, hx] at hk
      rw [if_neg (by omega)]
      exact (ofUsage_getElem? ..).mpr ⟨hn, hx, hu, by omega⟩

theorem nodup_ranking (x : String) : (t.ranking x).Nodup := by
  rw [List.nodup_iff_getElem?_ne_getElem?]
  intro i j hij hj he
  have hs := List.getElem?_eq_getElem hj
  obtain ⟨n, hn, -, hi⟩ := (ranking_getElem? t x i _).mp (he.trans hs)
  obtain ⟨n', hn', -, hj'⟩ := (ranking_getElem? t x j _).mp hs
  have : n = n' := Option.some.inj (hn.symm.trans hn')
  subst this
  omega

theorem length_ranking (x : String) :
    (t.ranking x).length = t.entries.countP fun n => n.identifier = x := by
  rw [ranking_eq, List.length_map, List.length_append, length_ofUsage, length_ofUsage]
  induction t.entries with
  | nil => rfl
  | cons n rest ih =>
    simp only [countOf, List.countP_cons, Bool.decide_and] at ih ⊢
    cases n.usage <;> by_cases hx : n.identifier = x <;> simp [hx] <;> omega

/-! ### The spellings to give out -/

theorem mem_identifiersOf (entries : List (Name String)) (x : String) :
    x ∈ identifiersOf entries ↔ ∃ n ∈ entries, n.identifier = x := by
  induction entries with
  | nil => simp [identifiersOf]
  | cons n rest ih =>
    by_cases hx : n.identifier = x
    · simp [identifiersOf, hx]
    · simp [identifiersOf, ih, hx, Ne.symm hx]

theorem nodup_identifiersOf (entries : List (Name String)) : (identifiersOf entries).Nodup := by
  induction entries with
  | nil => exact List.nodup_nil
  | cons n rest ih =>
    rw [identifiersOf, List.nodup_cons]
    exact ⟨by simp, ih.filter _⟩

/-- A spelling is given out to a registration exactly under its identifier and at its
position. -/
theorem mem_assignments (a : Assignment String) :
    a ∈ t.assignments ↔
      ∃ n, t.entries[a.serial]? = some n ∧ a.identifier = n.identifier ∧
        a.position = position t.entries a.serial n := by
  rw [assignments, List.mem_flatMap]
  constructor
  · rintro ⟨x, -, ha⟩
    obtain ⟨⟨s, k⟩, hm, rfl⟩ := List.mem_map.mp ha
    obtain ⟨n, hn, hx, hk⟩ := (ranking_getElem? t x k s).mp (List.mem_zipIdx_iff_getElem?.mp hm)
    exact ⟨n, hn, hx.symm, hk.symm⟩
  · rintro ⟨n, hn, hx, hk⟩
    refine ⟨n.identifier, (mem_identifiersOf ..).mpr ⟨n, List.mem_of_getElem? hn, rfl⟩, ?_⟩
    refine List.mem_map.mpr ⟨(a.serial, a.position), ?_, by rw [← hx]⟩
    rw [List.mem_zipIdx_iff_getElem?, ranking_getElem?]
    exact ⟨n, hn, rfl, hk.symm⟩

theorem serials_assignments :
    t.assignments.map (·.serial) = (identifiersOf t.entries).flatMap t.ranking := by
  rw [assignments, List.map_flatMap]
  congr 1
  funext x
  rw [List.map_map]
  exact List.zipIdx_map_fst 0 (t.ranking x)

theorem nodup_assignments : (t.assignments.map (·.serial)).Nodup := by
  rw [serials_assignments, List.nodup_flatMap]
  refine ⟨fun x _ => nodup_ranking t x, (nodup_identifiersOf t.entries).imp ?_⟩
  intro x y hxy s hx hy
  obtain ⟨i, hi⟩ := List.mem_iff_getElem?.mp hx
  obtain ⟨j, hj⟩ := List.mem_iff_getElem?.mp hy
  obtain ⟨n, hn, rfl, -⟩ := (ranking_getElem? ..).mp hi
  obtain ⟨n', hn', rfl, -⟩ := (ranking_getElem? ..).mp hj
  rw [hn] at hn'
  exact hxy (congrArg Name.identifier (Option.some.inj hn'))

/-! ### Giving them out -/

/-- The registration with the spelling that an assignment has for it. -/
def Assignment.apply (a : Assignment String) (n : Name String) : Name String :=
  { n with spelling := some (numbered a.identifier a.position) }

/-- The entries after some spellings have been given out in turn. -/
def applyAll (as : List (Assignment String)) (entries : List (Name String)) :
    List (Name String) :=
  as.foldl (fun es a => es.modify a.serial a.apply) entries

theorem length_applyAll (as : List (Assignment String)) (entries : List (Name String)) :
    (applyAll as entries).length = entries.length := by
  induction as generalizing entries with
  | nil => rfl
  | cons a rest ih => rw [applyAll, List.foldl_cons, ← applyAll, ih, List.length_modify]

theorem getElem?_applyAll_of_notMem (as : List (Assignment String)) (entries : List (Name String))
    {s : Nat} (hs : s ∉ as.map (·.serial)) : (applyAll as entries)[s]? = entries[s]? := by
  induction as generalizing entries with
  | nil => rfl
  | cons a rest ih =>
    rw [List.map_cons, List.mem_cons, not_or] at hs
    rw [applyAll, List.foldl_cons, ← applyAll, ih _ hs.2,
      List.getElem?_modify_ne _ _ (Ne.symm hs.1)]

theorem getElem?_applyAll_of_mem (as : List (Assignment String)) (hd : (as.map (·.serial)).Nodup)
    (entries : List (Name String)) (a : Assignment String) (ha : a ∈ as) :
    (applyAll as entries)[a.serial]? = entries[a.serial]?.map a.apply := by
  induction as generalizing entries with
  | nil => cases ha
  | cons b rest ih =>
    rw [List.map_cons, List.nodup_cons] at hd
    rw [applyAll, List.foldl_cons, ← applyAll]
    rcases List.mem_cons.mp ha with rfl | hr
    · rw [getElem?_applyAll_of_notMem rest _ hd.1, List.getElem?_modify_eq]
      rfl
    · have hne : b.serial ≠ a.serial := fun h => hd.1 (h ▸ List.mem_map_of_mem hr)
      rw [ih hd.2 _ hr, List.getElem?_modify_ne _ _ hne]

/-- Spellings for different registrations that have none yet are all given out, before any others
are. -/
theorem settle_append (as rest : List (Assignment String)) (hd : (as.map (·.serial)).Nodup)
    (hf : ∀ a ∈ as, ∃ n, t.entries[a.serial]? = some n ∧ n.spelling = none ∧
      a.identifier = n.identifier) :
    (t.settle (as ++ rest)).error =
        (settle { t with entries := applyAll as t.entries } rest).error ∧
      (t.settle (as ++ rest)).names =
        (settle { t with entries := applyAll as t.entries } rest).names := by
  induction as generalizing t with
  | nil => exact ⟨rfl, rfl⟩
  | cons a as ih =>
    rw [List.map_cons, List.nodup_cons] at hd
    obtain ⟨n, hn, hs, hx⟩ := hf a List.mem_cons_self
    have hkeep : (if a.position = 0 then n.identifier else numbered a.identifier a.position) =
        numbered a.identifier a.position := by
      split
      next h => rw [h, hx]; rfl
      next => rfl
    have hset : t.entries.set a.serial (a.apply n) = t.entries.modify a.serial a.apply := by
      rw [List.modify_eq_set_getElem?, hn]; rfl
    have hlater := ih { t with entries := t.entries.modify a.serial a.apply } hd.2 (by
      intro b hb
      have hne : a.serial ≠ b.serial := fun h => hd.1 (h ▸ List.mem_map_of_mem hb)
      obtain ⟨m, hm, hms, hmx⟩ := hf b (List.mem_cons_of_mem _ hb)
      refine ⟨m, ?_, hms, hmx⟩
      show (t.entries.modify a.serial a.apply)[b.serial]? = some m
      rw [List.getElem?_modify_ne _ _ hne, hm])
    have hr : n.resolve (numbered a.identifier a.position) = .ok (a.apply n) := by
      simp [Name.resolve, Name.spelling?, hs, Assignment.apply]
    rw [List.cons_append, settle, hn]
    simp only [hkeep, hr, hset]
    exact hlater

theorem settle_eq (as : List (Assignment String)) (hd : (as.map (·.serial)).Nodup)
    (hf : ∀ a ∈ as, ∃ n, t.entries[a.serial]? = some n ∧ n.spelling = none ∧
      a.identifier = n.identifier) :
    (t.settle as).error = none ∧
      (t.settle as).names =
        { entries := applyAll as t.entries, resolved := true } := by
  have h := settle_append t as [] hd hf
  rwa [List.append_nil] at h

/-- A registration that has a spelling ends the giving out. -/
theorem settle_cons_of_spelled {a : Assignment String} (rest : List (Assignment String))
    {n : Name String} {old : String} (hn : t.entries[a.serial]? = some n)
    (hold : n.spelling = some old) :
    t.settle (a :: rest) =
      { names := t
        error := some (.ofDefect (.alreadyResolved (.text n.identifier) (.text old))) } := by
  have hr : ∀ spelling, n.resolve spelling =
      .error (.ofDefect (.alreadyResolved (.text n.identifier) (.text old))) := by
    intro spelling
    simp [Name.resolve, Name.spelling?, hold, Option.filter_some, Label.document]
  rw [settle, hn]
  simp only [hr]

/-- A table without spellings is resolved as a whole, in closed form. -/
theorem resolve_eq (hr : t.resolved = false) (hf : ∀ n ∈ t.entries, n.spelling = none) :
    t.resolve.error = none ∧
      t.resolve.names = { entries := settled t.entries, resolved := true } := by
  have hfresh : ∀ a ∈ t.assignments, ∃ n, t.entries[a.serial]? = some n ∧ n.spelling = none ∧
      a.identifier = n.identifier := by
    intro a ha
    obtain ⟨n, hn, hx, -⟩ := (mem_assignments t a).mp ha
    exact ⟨n, hn, hf n (List.mem_of_getElem? hn), hx⟩
  obtain ⟨he, hn⟩ := settle_eq t t.assignments (nodup_assignments t) hfresh
  rw [resolve, hr]
  refine ⟨he, hn.trans ?_⟩
  congr 1
  -- every registration has an assignment, so its entry is the settled one
  apply List.ext_getElem?
  intro i
  rw [settled, List.getElem?_mapIdx]
  cases hi : t.entries[i]? with
  | none =>
    rw [Option.map_none, List.getElem?_eq_none_iff, length_applyAll]
    exact List.getElem?_eq_none_iff.mp hi
  | some n =>
    have ha : ⟨i, n.identifier, position t.entries i n⟩ ∈ t.assignments :=
      (mem_assignments t _).mpr ⟨n, hi, rfl, rfl⟩
    have hg := getElem?_applyAll_of_mem t.assignments (nodup_assignments t) t.entries _ ha
    rw [hi] at hg
    exact hg

/-- Where a resolution stops: at the first registration in its order that has a spelling, with
everything before it given out. -/
structure Stop (before : List (Assignment String)) (a : Assignment String)
    (after : List (Assignment String)) (n : Name String) (old : String) : Prop where
  split : t.assignments = before ++ a :: after
  unspelled : ∀ b ∈ before, ∀ m, t.entries[b.serial]? = some m → m.spelling = none
  entry : t.entries[a.serial]? = some n
  spelled : n.spelling = some old
  error : t.resolve.error =
    some (.ofDefect (.alreadyResolved (.text n.identifier) (.text old)))
  names : t.resolve.names = { t with entries := applyAll before t.entries }

theorem exists_stop (hr : t.resolved = false) {i : Nat} {m : Name String}
    (hm : t.entries[i]? = some m) (hs : m.spelling ≠ none) :
    ∃ before a after n old, t.Stop before a after n old := by
  let spelled (a : Assignment String) : Bool :=
    t.entries[a.serial]?.any fun n => n.spelling.isSome
  have hmem : ⟨i, m.identifier, position t.entries i m⟩ ∈ t.assignments :=
    (mem_assignments t _).mpr ⟨m, hm, rfl, rfl⟩
  have hfound : (t.assignments.find? spelled).isSome := by
    rw [List.find?_isSome]
    refine ⟨_, hmem, ?_⟩
    simpa [spelled, hm] using Option.isSome_iff_ne_none.mpr hs
  obtain ⟨a, ha⟩ := Option.isSome_iff_exists.mp hfound
  obtain ⟨hspelled, before, after, hsplit, hbefore⟩ := List.find?_eq_some_iff_append.mp ha
  obtain ⟨n, hn, -, -⟩ := (mem_assignments t a).mp (List.mem_of_find?_eq_some ha)
  obtain ⟨old, hold⟩ : ∃ old, n.spelling = some old := by
    simpa [spelled, hn, Option.isSome_iff_exists] using hspelled
  have hunspelled : ∀ b ∈ before, ∀ m, t.entries[b.serial]? = some m → m.spelling = none := by
    intro b hb m hm
    simpa [spelled, hm] using hbefore b hb
  have hnodup := nodup_assignments t
  rw [hsplit, List.map_append, List.map_cons, List.nodup_append] at hnodup
  obtain ⟨hd, -, hdisjoint⟩ := hnodup
  have hfresh : ∀ b ∈ before, ∃ m, t.entries[b.serial]? = some m ∧ m.spelling = none ∧
      b.identifier = m.identifier := by
    intro b hb
    have hb' : b ∈ t.assignments := by rw [hsplit]; exact List.mem_append_left _ hb
    obtain ⟨m, hm, hx, -⟩ := (mem_assignments t b).mp hb'
    exact ⟨m, hm, hunspelled b hb m hm, hx⟩
  have hkept : (applyAll before t.entries)[a.serial]? = some n := by
    rw [getElem?_applyAll_of_notMem _ _ fun h => hdisjoint _ h _ List.mem_cons_self rfl, hn]
  obtain ⟨herror, hnames⟩ := settle_append t before (a :: after) hd hfresh
  rw [settle_cons_of_spelled _ after hkept hold] at herror hnames
  have hresolve : t.resolve = t.settle (before ++ a :: after) := by
    rw [resolve, hr, hsplit]
    rfl
  exact ⟨before, a, after, n, old, hsplit, hunspelled, hn, hold, hresolve ▸ herror,
    hresolve ▸ hnames⟩

end ApiTypes.Names
