import ApiTypes.Files.Tree

/-! Where paths lead. A path that leads anywhere in a tree leads to one place, which hangs on the
working directory alone; the directories on the way are all there, and a path to a file ends
with the name of the file. A tree in which more is there leads every path to the same place. -/

namespace ApiTypes.Files

/-- The components from the root after one more component of a path. -/
def stepPlace (place : List String) (part : String) : List String :=
  if part = ".." then place.dropLast else place ++ [part]

/-- Where a path leads from a working directory, if it leads anywhere. -/
def Path.placeFrom (home : List String) (p : Path) : List String :=
  p.parts.foldl stepPlace (if p.root = "" then home else [])

namespace Tree

variable {t t' : Tree} {p : Path}

theorem enter_eq_ok_iff {place next : List String} {part : String} :
    t.enter p place part = .ok next ↔
      t.find? place = some .directory ∧ (part ≠ ".." → part.utf8ByteSize ≤ nameLimit) ∧
        next = stepPlace place part := by
  rw [enter, stepPlace]
  cases hf : t.find? place with
  | none => simp
  | some entry =>
    cases entry with
    | file content => simp
    | directory =>
      by_cases hdots : part = ".."
      · simp [hdots, eq_comm]
      · by_cases hlong : nameLimit < part.utf8ByteSize
        · simp [hdots, hlong, Nat.not_le.mpr hlong]
        · simp [hdots, hlong, eq_comm, Nat.not_lt.mp hlong]

/-- The proper beginnings of a place are directories. -/
def Reached (t : Tree) (place : List String) : Prop :=
  ∀ rest, rest ≠ [] → ∀ above, place = above ++ rest → t.find? above = some .directory

theorem find?_of_prefix_home {place : List String} (h : place <+: t.home) :
    t.find? place = some .directory := by
  rw [find?, if_pos (List.isPrefixOf_iff_prefix.mpr h)]

theorem reached_home (t : Tree) : t.Reached t.home :=
  fun rest _ _ h => find?_of_prefix_home ⟨rest, h.symm⟩

theorem reached_nil (t : Tree) : t.Reached [] := by
  intro rest hne above h
  exact absurd (List.append_eq_nil_iff.mp h.symm).2 hne

theorem Reached.enter {place next : List String} {part : String} (h : t.Reached place)
    (he : t.enter p place part = .ok next) : t.Reached next := by
  obtain ⟨hdirectory, -, rfl⟩ := enter_eq_ok_iff.mp he
  intro rest hne above heq
  rw [stepPlace] at heq
  split at heq
  next =>
    -- A step back: what is above the parent is above the place too.
    rcases List.eq_nil_or_concat place with rfl | ⟨init, last, rfl⟩
    · exact t.reached_nil rest hne above heq
    · rw [List.concat_eq_append, List.dropLast_concat] at heq
      refine h (rest ++ [last]) (by simp) above ?_
      rw [heq, List.concat_eq_append, List.append_assoc]
  next =>
    rcases List.eq_nil_or_concat rest with rfl | ⟨init, last, rfl⟩
    · exact absurd rfl hne
    · rw [List.concat_eq_append, ← List.append_assoc] at heq
      obtain ⟨rfl, -⟩ := List.append_inj' heq rfl
      rcases List.eq_nil_or_concat init with rfl | ⟨more, x, rfl⟩
      · rwa [List.append_nil] at hdirectory
      · exact h _ (by simp) above rfl

/-- The walk of a path: where it leads, and that all that lies above is there. -/
theorem foldlM_enter {parts : List String} {place next : List String}
    (h : parts.foldlM (t.enter p) place = .ok next) (hr : t.Reached place) :
    next = parts.foldl stepPlace place ∧ t.Reached next := by
  induction parts generalizing place with
  | nil => exact ⟨(Except.ok.inj h).symm, (Except.ok.inj h) ▸ hr⟩
  | cons part rest ih =>
    rw [List.foldlM_cons] at h
    cases he : t.enter p place part with
    | error e => rw [he] at h; cases h
    | ok mid =>
      rw [he] at h
      have hmid := ih h (hr.enter he)
      obtain ⟨-, -, rfl⟩ := enter_eq_ok_iff.mp he
      exact hmid

theorem locate_eq_ok_iff {place : List String} :
    t.locate p = .ok place ↔ ¬ pathLimit ≤ p.text.utf8ByteSize ∧
      p.parts.foldlM (t.enter p) (if p.root = "" then t.home else []) = .ok place := by
  rw [locate]
  split
  next h => simp [h]
  next h => simp [h]

theorem reached_start (t : Tree) (p : Path) :
    t.Reached (if p.root = "" then t.home else []) := by
  split
  next => exact t.reached_home
  next => exact t.reached_nil

/-- A path leads to the place that its components spell out. -/
theorem locate_eq {place : List String} (h : t.locate p = .ok place) :
    place = p.placeFrom t.home :=
  (foldlM_enter (locate_eq_ok_iff.mp h).2 (t.reached_start p)).1

/-- A walk goes the same way in a tree with more directories; the path serves the errors only. -/
theorem foldlM_enter_mono {p' : Path}
    (hdir : ∀ place, t.find? place = some .directory → t'.find? place = some .directory)
    {parts : List String} {place next : List String}
    (h : parts.foldlM (t.enter p) place = .ok next) :
    parts.foldlM (t'.enter p') place = .ok next := by
  induction parts generalizing place with
  | nil => exact h
  | cons part rest ih =>
    rw [List.foldlM_cons] at h ⊢
    cases he : t.enter p place part with
    | error e => rw [he] at h; cases h
    | ok mid =>
      rw [he] at h
      obtain ⟨hd, hshort, hmid⟩ := enter_eq_ok_iff.mp he
      rw [enter_eq_ok_iff.mpr ⟨hdir _ hd, hshort, hmid⟩]
      exact ih h

/-- A tree that has the directories of another one leads its paths to the same places. -/
theorem locate_mono (hhome : t'.home = t.home)
    (hdir : ∀ place, t.find? place = some .directory → t'.find? place = some .directory)
    {place : List String} (h : t.locate p = .ok place) : t'.locate p = .ok place := by
  obtain ⟨hshort, hwalk⟩ := locate_eq_ok_iff.mp h
  exact locate_eq_ok_iff.mpr ⟨hshort, hhome ▸ foldlM_enter_mono hdir hwalk⟩

/-- The last step of a walk. -/
theorem enter_of_foldlM {parts : List String} {name : String} {place next : List String}
    (h : (parts ++ [name]).foldlM (t.enter p) place = .ok next) :
    ∃ mid, parts.foldlM (t.enter p) place = .ok mid ∧ t.enter p mid name = .ok next := by
  rw [List.foldlM_append] at h
  cases hmid : parts.foldlM (t.enter p) place with
  | error e => rw [hmid] at h; cases h
  | ok mid =>
    rw [hmid] at h
    change [name].foldlM (t.enter p) mid = _ at h
    rw [List.foldlM_cons] at h
    cases he : t.enter p mid name with
    | error e => rw [he] at h; cases h
    | ok place =>
      rw [he] at h
      exact ⟨mid, rfl, he.trans h⟩

/-- A path to something other than a directory ends with a name. -/
theorem exists_name_of_locate {place : List String} (h : t.locate p = .ok place)
    (hne : t.find? place ≠ some .directory) :
    ∃ above name, p.parts = above ++ [name] ∧ name ≠ ".." := by
  have hwalk := (locate_eq_ok_iff.mp h).2
  rcases List.eq_nil_or_concat p.parts with hnil | ⟨above, name, hparts⟩
  · refine absurd ?_ hne
    rw [locate_eq h, Path.placeFrom, hnil, List.foldl_nil]
    split
    next => exact find?_of_prefix_home (List.prefix_refl _)
    next => exact find?_of_prefix_home List.nil_prefix
  · rw [List.concat_eq_append] at hparts
    refine ⟨above, name, hparts, ?_⟩
    rintro rfl
    rw [hparts] at hwalk
    obtain ⟨mid, habove, he⟩ := enter_of_foldlM hwalk
    obtain ⟨hmid, -, rfl⟩ := enter_eq_ok_iff.mp he
    rw [stepPlace, if_pos rfl] at hne
    -- The parent of a directory that was reached is a directory.
    rcases List.eq_nil_or_concat mid with rfl | ⟨init, last, rfl⟩
    · exact hne hmid
    · rw [List.concat_eq_append, List.dropLast_concat] at hne
      have hreached := (foldlM_enter habove (t.reached_start p)).2
      exact hne (hreached [last] (by simp) init (List.concat_eq_append ..))

end Tree

/-- A path that ends with a name leads there from above. -/
theorem Path.placeFrom_concat {p : Path} {above : List String} {name : String} (home : List String)
    (hparts : p.parts = above ++ [name]) (hname : name ≠ "..") :
    p.placeFrom home = ({ p with parts := above } : Path).placeFrom home ++ [name] := by
  rw [placeFrom, placeFrom, hparts, List.foldl_append, List.foldl_cons, List.foldl_nil, stepPlace,
    if_neg hname]

end ApiTypes.Files
