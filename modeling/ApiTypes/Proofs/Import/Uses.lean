import ApiTypes.Import.Table
import Mathlib.Data.List.Nodup

/-! The import table as a record of uses. Over texts every source has an identity, so
a use of a table that is not applied yet always succeeds. What the table holds for
a source and a member depends on the uses of that pair alone: nothing if there are
none, else one import that is a type import as long as all of them are, with the
first local name that one of them gives. The sources of a table are those of their
first uses, and no source and no member of a source is listed twice. -/

namespace ApiTypes

/-- A use of an imported member. -/
structure Use where
  source : Source String
  member : String
  localName : Option String
  typeOnly : Bool

/-- The identity of a source over texts. -/
def Source.identity : Source String → String
  | api package path => ":".intercalate (["kure", "api", package] ++ (Label.present? path).toList)
  | library package path =>
    ":".intercalate (["kure", "lib", package] ++ (Label.present? path).toList)
  | sibling path => "/" ++ path

theorem Source.urn_eq (s : Source String) : s.urn = .ok s.identity := by
  cases s with
  | api package path | library package path =>
    cases h : Label.present? path
    all_goals
      simp only [urn, remoteUrn, identity, h]
      rfl
  | sibling path => rfl

namespace Imports

/-- The table after one more use. -/
def record (t : Imports String) (u : Use) : Imports String :=
  let merge := ImportedModule.useIn u.member u.localName u.typeOnly
  { t with modules := useIn u.source.identity u.source merge t.modules }

def recordAll (t : Imports String) (us : List Use) : Imports String :=
  us.foldl record t

theorem use_eq {t : Imports String} (h : t.applied = false) (u : Use) :
    t.use u.source u.member u.localName u.typeOnly = (t.record u, .ok u.source.identity) := by
  simp only [use, Source.urn_eq, h, Label.requireKey_string, record, Bool.false_eq_true,
    if_false]

theorem applied_recordAll (t : Imports String) (us : List Use) :
    (t.recordAll us).applied = t.applied := by
  induction us generalizing t with
  | nil => rfl
  | cons u rest ih => rw [recordAll, List.foldl_cons, ← recordAll, ih]; rfl

/-! ### What a table holds for a source and a member -/

/-- The module of an identity. -/
def module? (t : Imports String) (urn : String) : Option (ImportedModule String) :=
  t.modules.find? fun m => m.urn = urn

/-- The use makes an import, or merges into the one that is there. -/
def absorb (u : Use) : Option (Import String) → Import String
  | none => .ofUse u.member u.localName u.typeOnly
  | some i => i.merge u.localName u.typeOnly

theorem find?_useIn_imports (u : Use) (is : List (Import String)) (member : String) :
    (ImportedModule.useIn u.member u.localName u.typeOnly is).find?
        (fun i => Label.same i.member member) =
      if u.member = member then some (absorb u (is.find? fun i => Label.same i.member member))
      else is.find? fun i => Label.same i.member member := by
  induction is with
  | nil => by_cases h : u.member = member <;> simp [ImportedModule.useIn, absorb, Import.ofUse, h]
  | cons i rest ih =>
    rw [ImportedModule.useIn]
    simp only [Label.same_string, List.find?_cons] at ih ⊢
    by_cases hi : i.member = u.member
    · by_cases h : u.member = member <;> simp [hi, h, absorb, Import.merge]
    · by_cases h : u.member = member
      · subst h
        simpa [hi] using ih
      · simp only [h, if_false] at ih ⊢
        rw [if_neg (by simpa using hi), List.find?_cons, ih]

theorem find?_useIn (urn : String) (source : Source String)
    (f : List (Import String) → List (Import String)) (ms : List (ImportedModule String))
    (x : String) :
    (useIn urn source f ms).find? (fun m => m.urn = x) =
      if urn = x then
        some (match ms.find? fun m => m.urn = x with
          | some m => { m with imports := f m.imports }
          | none => { urn, source, imports := f [] })
      else ms.find? fun m => m.urn = x := by
  induction ms with
  | nil => by_cases h : urn = x <;> simp [useIn, h]
  | cons m rest ih =>
    rw [useIn]
    by_cases hm : m.urn = urn
    · by_cases h : urn = x <;> simp [hm, h]
    · by_cases h : urn = x
      · subst h
        simpa [hm] using ih
      · simp only [h, if_false] at ih ⊢
        rw [if_neg hm, List.find?_cons, List.find?_cons, ih]

theorem find?_eq (t : Imports String) (urn member : String) :
    t.find? urn member =
      (t.module? urn).bind fun m => m.imports.find? fun i => Label.same i.member member := rfl

theorem member_of_find? {t : Imports String} {urn member : String} {i : Import String}
    (h : t.find? urn member = some i) : i.member = member := by
  rw [find?_eq] at h
  obtain ⟨m, -, hi⟩ := Option.bind_eq_some_iff.mp h
  simpa using List.find?_some hi

theorem module?_record (t : Imports String) (u : Use) (urn : String) :
    (t.record u).module? urn =
      if u.source.identity = urn then
        some (match t.module? urn with
          | some m => { m with
              imports := ImportedModule.useIn u.member u.localName u.typeOnly m.imports }
          | none =>
            { urn := u.source.identity, source := u.source
              imports := ImportedModule.useIn u.member u.localName u.typeOnly [] })
      else t.module? urn := by
  rw [module?, record, find?_useIn]
  rfl

theorem find?_record (t : Imports String) (u : Use) (urn member : String) :
    (t.record u).find? urn member =
      if u.source.identity = urn ∧ u.member = member then some (absorb u (t.find? urn member))
      else t.find? urn member := by
  rw [find?_eq, find?_eq, module?_record]
  by_cases hu : u.source.identity = urn
  · cases hm : t.module? urn with
    | none =>
      have h := find?_useIn_imports u [] member
      by_cases hx : u.member = member <;> simp_all
    | some m =>
      have h := find?_useIn_imports u m.imports member
      by_cases hx : u.member = member <;> simp_all
  · simp [hu]

/-- The uses of one member of one source. -/
def usesOf (us : List Use) (urn member : String) : List Use :=
  us.filter fun u => u.source.identity = urn ∧ u.member = member

/-- The import that some uses of one pair make together. -/
def merged (member : String) (us : List Use) : Option (Import String) :=
  if us.isEmpty then none
  else some { member, localName := us.findSome? fun u => Label.present? u.localName
              typeOnly := us.all (·.typeOnly) }

theorem foldl_absorb (i : Import String) (us : List Use) :
    us.foldl (fun o u => some (absorb u o)) (some i) =
      some { i with
        localName := i.localName.or (us.findSome? fun u => Label.present? u.localName)
        typeOnly := i.typeOnly && us.all (·.typeOnly) } := by
  induction us generalizing i with
  | nil => simp
  | cons u rest ih =>
    rw [List.foldl_cons, absorb, ih]
    cases h : Label.present? u.localName <;>
      cases hl : i.localName <;> simp [Import.merge, h, hl, Bool.and_assoc]

theorem find?_recordAll_of (t : Imports String) (us : List Use) (urn member : String) :
    (t.recordAll us).find? urn member =
      (usesOf us urn member).foldl (fun o u => some (absorb u o)) (t.find? urn member) := by
  induction us generalizing t with
  | nil => rfl
  | cons u rest ih =>
    rw [recordAll, List.foldl_cons, ← recordAll, ih, find?_record, usesOf, usesOf,
      List.filter_cons]
    by_cases h : u.source.identity = urn ∧ u.member = member
    · simp [h]
    · simp [h]

/-- A pair is held as what its own uses make of it. -/
theorem find?_recordAll (us : List Use) (urn member : String) :
    (recordAll {} us).find? urn member = merged member (usesOf us urn member) := by
  rw [find?_recordAll_of]
  have hm : ∀ u ∈ usesOf us urn member, u.member = member := by
    intro u hu
    have := (List.mem_filter.mp hu).2
    simp only [decide_eq_true_eq] at this
    exact this.2
  cases h : usesOf us urn member with
  | nil => rfl
  | cons u rest =>
    have hu := hm u (by rw [h]; exact List.mem_cons_self)
    show List.foldl _ (some (absorb u none)) rest = _
    rw [foldl_absorb]
    cases hl : Label.present? u.localName <;> simp [merged, absorb, Import.ofUse, hl, hu]

theorem exists_find?_of_mem {us : List Use} {u : Use} (h : u ∈ us) :
    ∃ i, (recordAll {} us).find? u.source.identity u.member = some i := by
  have hu : u ∈ usesOf us u.source.identity u.member :=
    List.mem_filter.mpr ⟨h, by simp⟩
  rw [find?_recordAll, merged, if_neg (by
    rw [List.isEmpty_iff]
    exact List.ne_nil_of_mem hu)]
  exact ⟨_, rfl⟩

/-! ### The sources and members that a table lists -/

/-- A table in which every source stands under its identity, and no source and no
member of a source is listed twice. -/
structure Keyed (t : Imports String) : Prop where
  urns : (t.modules.map (·.urn)).Nodup
  identified : ∀ m ∈ t.modules, m.source.identity = m.urn
  inhabited : ∀ m ∈ t.modules, m.imports ≠ []
  members : ∀ m ∈ t.modules, (m.imports.map (·.member)).Nodup

theorem map_member_useIn (u : Use) (is : List (Import String)) :
    (ImportedModule.useIn u.member u.localName u.typeOnly is).map (·.member) =
      if u.member ∈ is.map (·.member) then is.map (·.member)
      else is.map (·.member) ++ [u.member] := by
  induction is with
  | nil => simp [ImportedModule.useIn, Import.ofUse]
  | cons i rest ih =>
    rw [ImportedModule.useIn, Label.same_string]
    by_cases hi : i.member = u.member
    · simp [hi, Import.merge]
    · simp only [hi, decide_false, Bool.false_eq_true, if_false, List.map_cons, ih, List.mem_cons,
        Ne.symm hi, false_or]
      split <;> rfl

theorem useIn_imports_ne_nil (u : Use) (is : List (Import String)) :
    ImportedModule.useIn u.member u.localName u.typeOnly is ≠ [] := by
  cases is with
  | nil => simp [ImportedModule.useIn]
  | cons i rest => rw [ImportedModule.useIn]; split <;> simp

theorem map_urn_useIn (urn : String) (source : Source String)
    (f : List (Import String) → List (Import String)) (ms : List (ImportedModule String)) :
    (useIn urn source f ms).map (·.urn) =
      if urn ∈ ms.map (·.urn) then ms.map (·.urn) else ms.map (·.urn) ++ [urn] := by
  induction ms with
  | nil => simp [useIn]
  | cons m rest ih =>
    rw [useIn]
    by_cases hm : m.urn = urn
    · simp [hm]
    · simp only [hm, if_false, List.map_cons, ih, List.mem_cons, Ne.symm hm, false_or]
      split <;> rfl

/-- A module after a use is an old one, an old one with the use merged in, or new. -/
theorem mem_useIn {urn : String} {source : Source String}
    {f : List (Import String) → List (Import String)} {ms : List (ImportedModule String)}
    {m : ImportedModule String} (h : m ∈ useIn urn source f ms) :
    m ∈ ms ∨ (∃ m' ∈ ms, m'.urn = urn ∧ m = { m' with imports := f m'.imports }) ∨
      m = { urn, source, imports := f [] } := by
  induction ms with
  | nil => exact .inr (.inr (by simpa [useIn] using h))
  | cons m' rest ih =>
    rw [useIn] at h
    split at h
    next hu =>
      rcases List.mem_cons.mp h with rfl | hr
      · exact .inr (.inl ⟨m', List.mem_cons_self, hu, rfl⟩)
      · exact .inl (List.mem_cons_of_mem _ hr)
    next =>
      rcases List.mem_cons.mp h with rfl | hr
      · exact .inl List.mem_cons_self
      · rcases ih hr with h | ⟨m'', hm, hu, rfl⟩ | h
        · exact .inl (List.mem_cons_of_mem _ h)
        · exact .inr (.inl ⟨m'', List.mem_cons_of_mem _ hm, hu, rfl⟩)
        · exact .inr (.inr h)

theorem Keyed.record {t : Imports String} (h : t.Keyed) (u : Use) : (t.record u).Keyed where
  urns := by
    rw [Imports.record, map_urn_useIn]
    split
    next => exact h.urns
    next hu => exact h.urns.append (List.nodup_singleton _) (by simpa using hu)
  identified m hm := by
    rcases mem_useIn hm with hm | ⟨m', hm', -, rfl⟩ | rfl
    · exact h.identified m hm
    · exact h.identified m' hm'
    · rfl
  inhabited m hm := by
    rcases mem_useIn hm with hm | ⟨m', -, -, rfl⟩ | rfl
    · exact h.inhabited m hm
    · exact useIn_imports_ne_nil u _
    · exact useIn_imports_ne_nil u _
  members m hm := by
    have hmerge : ∀ is : List (Import String), (is.map (·.member)).Nodup →
        ((ImportedModule.useIn u.member u.localName u.typeOnly is).map (·.member)).Nodup := by
      intro is hd
      rw [map_member_useIn]
      split
      next => exact hd
      next hu => exact hd.append (List.nodup_singleton _) (by simpa using hu)
    rcases mem_useIn hm with hm | ⟨m', hm', -, rfl⟩ | rfl
    · exact h.members m hm
    · exact hmerge _ (h.members m' hm')
    · exact hmerge [] List.nodup_nil

theorem keyed_recordAll (us : List Use) : (recordAll {} us).Keyed := by
  have hall : ∀ t : Imports String, t.Keyed → (t.recordAll us).Keyed := by
    induction us with
    | nil => intro t h; exact h
    | cons u rest ih => intro t h; exact ih _ (h.record u)
  exact hall {} ⟨List.nodup_nil, by simp, by simp, by simp⟩

/-- Where keys are not repeated, an element is the one that its key finds. -/
theorem find?_of_nodup {α : Type} (key : α → String) {l : List α} (hn : (l.map key).Nodup) {a : α}
    (ha : a ∈ l) : (l.find? fun b => key b = key a) = some a := by
  induction l with
  | nil => cases ha
  | cons b rest ih =>
    rw [List.map_cons, List.nodup_cons] at hn
    rcases List.mem_cons.mp ha with rfl | hr
    · simp
    · have hne : key b ≠ key a := fun he => hn.1 (he ▸ List.mem_map_of_mem hr)
      rw [List.find?_cons_of_neg (by simpa using hne)]
      exact ih hn.2 hr

theorem Keyed.module? {t : Imports String} (h : t.Keyed) {m : ImportedModule String}
    (hm : m ∈ t.modules) : t.module? m.urn = some m :=
  find?_of_nodup (fun m : ImportedModule String => m.urn) h.urns hm

/-- A keyed table answers with exactly the imports that it lists. -/
theorem Keyed.find?_eq_some_iff {t : Imports String} (h : t.Keyed) (urn : String)
    (i : Import String) :
    t.find? urn i.member = some i ↔ ∃ m ∈ t.modules, m.urn = urn ∧ i ∈ m.imports := by
  rw [find?_eq]
  constructor
  · intro hf
    obtain ⟨m, hm, hi⟩ := Option.bind_eq_some_iff.mp hf
    exact ⟨m, List.mem_of_find?_eq_some hm, by simpa using List.find?_some hm,
      List.mem_of_find?_eq_some hi⟩
  · rintro ⟨m, hm, rfl, hi⟩
    rw [h.module? hm, Option.bind_some]
    simp only [Label.same_string]
    exact find?_of_nodup (fun i : Import String => i.member) (h.members m hm) hi

/-- The source of an identity is that of its first use. -/
theorem source_recordAll (us : List Use) (urn : String) :
    ((recordAll {} us).module? urn).map (·.source) =
      (us.find? fun u => u.source.identity = urn).map (·.source) := by
  have hall : ∀ t : Imports String, ((t.recordAll us).module? urn).map (·.source) =
      ((t.module? urn).map (·.source)).or
        ((us.find? fun u => u.source.identity = urn).map (·.source)) := by
    induction us with
    | nil => intro t; simp [recordAll]
    | cons u rest ih =>
      intro t
      rw [recordAll, List.foldl_cons, ← recordAll, ih, module?_record, List.find?_cons]
      by_cases hu : u.source.identity = urn
      · cases t.module? urn <;> simp [hu]
      · simp [hu]
  exact hall {}

end Imports

end ApiTypes
