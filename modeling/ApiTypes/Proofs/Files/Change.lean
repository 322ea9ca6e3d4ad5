import ApiTypes.Proofs.Files.Place

/-! Changes of a tree. Writing a file and making a directory put one entry at the place where the
path leads, and what stands at any other place stays. Nothing but a directory that is there, or
a path that leads nowhere, keeps a file from being written. -/

namespace ApiTypes.Files.Tree

variable {t t' : Tree} {p : Path} {place : List String} {entry : Entry}

@[simp] theorem home_put : (t.put place entry).home = t.home := by
  rw [put]
  split <;> rfl

/-- Replacing the entries at a place keeps their keys. -/
theorem find?_replace (entries : List (List String × Entry)) (q : List String) :
    (entries.map fun e => if e.1 = place then (place, entry) else e).find? (fun e => e.1 = q) =
      (entries.find? fun e => e.1 = q).map fun e => if e.1 = place then (place, entry) else e := by
  have hkey : ∀ e : List String × Entry, (if e.1 = place then (place, entry) else e).1 = e.1 := by
    intro e
    split
    next h => exact h.symm
    next => rfl
  simp only [List.find?_map, Function.comp_def, hkey]

/-- What the entries hold at a place. -/
def listed? (t : Tree) (q : List String) : Option Entry :=
  (t.entries.find? fun e => e.1 = q).map (·.2)

theorem key_of_find? {e : List String × Entry} {q : List String}
    (h : t.entries.find? (fun e => e.1 = q) = some e) : e.1 = q := by
  simpa using List.find?_some h

theorem listed?_put (q : List String) :
    (t.put place entry).listed? q = if q = place then some entry else t.listed? q := by
  rw [listed?, listed?, put]
  by_cases hany : (t.entries.any fun e => e.1 = place) = true
  · rw [if_pos hany]
    dsimp only
    rw [find?_replace]
    split
    next hq =>
      subst hq
      obtain ⟨e, he⟩ : ∃ e, t.entries.find? (fun e => e.1 = q) = some e := by
        rw [← Option.isSome_iff_exists, List.find?_isSome]
        simpa using hany
      rw [he, Option.map_some, Option.map_some, if_pos (key_of_find? he)]
    next hq =>
      cases he : t.entries.find? (fun e => e.1 = q) with
      | none => rfl
      | some e =>
        rw [Option.map_some, Option.map_some, if_neg (key_of_find? he ▸ hq), Option.map_some]
  · rw [if_neg hany]
    dsimp only
    rw [List.find?_append]
    split
    next hq =>
      subst hq
      have hnone : t.entries.find? (fun e => e.1 = q) = none :=
        List.find?_eq_none.mpr fun e he hkey => hany (List.any_eq_true.mpr ⟨e, he, hkey⟩)
      simp [hnone]
    next hq => simp [Ne.symm hq]

/-- Putting an entry at a place changes what is found there, and nothing else. -/
theorem find?_put (h : ¬ place <+: t.home) (q : List String) :
    (t.put place entry).find? q = if q = place then some entry else t.find? q := by
  have hfind : ∀ t : Tree, t.find? q =
      if q.isPrefixOf t.home then some .directory else t.listed? q := fun _ => rfl
  rw [hfind, hfind, home_put, listed?_put]
  split
  next hq =>
    have hne : q ≠ place := fun he => h (he ▸ List.isPrefixOf_iff_prefix.mp hq)
    rw [if_neg hne]
  next => rfl

/-- No place on the way to the working directory holds anything but a directory. -/
theorem not_prefix_home (h : t.find? place ≠ some .directory) : ¬ place <+: t.home :=
  fun hp => h (find?_of_prefix_home hp)

theorem exists?_eq_ok_true_iff :
    t.exists? p = .ok true ↔ p.isUnnameable = false ∧
      ∃ place, t.locate p = .ok place ∧ (t.find? place).isSome = true := by
  rw [exists?]
  by_cases hname : p.isUnnameable = true
  · simp [hname]
  · rw [if_neg hname]
    cases t.locate p with
    | ok place => simp [hname]
    | error e => cases e <;> simp

theorem write_eq_ok_iff {content : String} :
    t.write p content = .ok t' ↔ ∃ place, t.locate p = .ok place ∧
      t.find? place ≠ some .directory ∧ t' = t.put place (.file content.toUTF8) := by
  rw [write]
  cases t.locate p with
  | error e => simp [bind, Except.bind]
  | ok place =>
    simp only [bind, Except.bind, Except.ok.injEq, exists_eq_left']
    split
    next h => simp [h]
    next h =>
      rw [Except.ok.injEq]
      exact ⟨fun ht => ⟨h, ht.symm⟩, fun ht => ht.2.symm⟩

theorem makeDirectory_eq_ok_iff :
    t.makeDirectory p = .ok t' ↔ ∃ place, t.locate p = .ok place ∧
      (t.find? place = some .directory ∧ t' = t ∨
        t.find? place = none ∧ t' = t.put place .directory) := by
  rw [makeDirectory]
  cases t.locate p with
  | error e => simp [bind, Except.bind]
  | ok place =>
    simp only [bind, Except.bind, Except.ok.injEq, exists_eq_left']
    split
    next h => simp [h, eq_comm]
    next content h => simp [h]
    next h => simp [h, eq_comm]

theorem home_write {content : String} (h : t.write p content = .ok t') : t'.home = t.home := by
  obtain ⟨place, -, -, rfl⟩ := write_eq_ok_iff.mp h
  exact home_put

theorem home_makeDirectory (h : t.makeDirectory p = .ok t') : t'.home = t.home := by
  obtain ⟨place, -, ⟨-, rfl⟩ | ⟨-, rfl⟩⟩ := makeDirectory_eq_ok_iff.mp h
  · rfl
  · exact home_put

theorem find?_write {content : String} (h : t.write p content = .ok t') (q : List String) :
    t'.find? q = if q = p.placeFrom t.home then some (.file content.toUTF8) else t.find? q := by
  obtain ⟨place, hplace, hfree, rfl⟩ := write_eq_ok_iff.mp h
  rw [find?_put (not_prefix_home hfree), locate_eq hplace]

theorem find?_makeDirectory (h : t.makeDirectory p = .ok t') (q : List String) :
    t'.find? q = if q = p.placeFrom t.home then some .directory else t.find? q := by
  obtain ⟨place, hplace, ⟨hthere, rfl⟩ | ⟨hfree, rfl⟩⟩ := makeDirectory_eq_ok_iff.mp h
  · rw [← locate_eq hplace]
    split
    next hq => rw [hq, hthere]
    next => rfl
  · rw [find?_put (not_prefix_home (by simp [hfree])), locate_eq hplace]

/-- A file that is written changes one place, which holds no directory. -/
theorem of_find?_write_ne {content : String} {q : List String} (h : t.write p content = .ok t')
    (hq : t'.find? q ≠ t.find? q) :
    q = p.placeFrom t.home ∧ t.find? q ≠ some .directory ∧
      t'.find? q = some (.file content.toUTF8) := by
  have hfind := find?_write h q
  obtain ⟨place, hplace, hfree, -⟩ := write_eq_ok_iff.mp h
  by_cases hplaced : q = p.placeFrom t.home
  · rw [if_pos hplaced] at hfind
    rw [locate_eq hplace, ← hplaced] at hfree
    exact ⟨hplaced, hfree, hfind⟩
  · rw [if_neg hplaced] at hfind
    exact absurd hfind hq

/-- A directory that is made changes one place, which holds nothing. -/
theorem of_find?_makeDirectory_ne {q : List String} (h : t.makeDirectory p = .ok t')
    (hq : t'.find? q ≠ t.find? q) :
    q = p.placeFrom t.home ∧ t.find? q = none ∧ t'.find? q = some .directory := by
  have hfind := find?_makeDirectory h q
  obtain ⟨place, hplace, ⟨-, rfl⟩ | ⟨hfree, -⟩⟩ := makeDirectory_eq_ok_iff.mp h
  · exact absurd rfl hq
  · by_cases hplaced : q = p.placeFrom t.home
    · rw [if_pos hplaced] at hfind
      rw [locate_eq hplace, ← hplaced] at hfree
      exact ⟨hplaced, hfree, hfind⟩
    · rw [if_neg hplaced] at hfind
      exact absurd hfind hq

end ApiTypes.Files.Tree
