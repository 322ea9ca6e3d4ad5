import ApiTypes.Proofs.Name.Resolution

/-! A settled table: every registration has the spelling at its position. A declared
identifier keeps its spelling, and a look-up finds exactly what is declared. Two
registrations clash only where one keeps an identifier that is the spelling of a
later position of another group, and every group of two or more gives out all its
later spellings. -/

namespace ApiTypes.Names

open Name (numbered)

/-- The table that a resolution leaves of some registrations without spellings. -/
def ofSettled (entries : List (Name String)) : Names String :=
  { entries := settled entries, resolved := true }

/-- The identifiers that some registrations declare, in order. -/
def declaredIn (entries : List (Name String)) : List String :=
  entries.filterMap fun n => if n.usage = .declaration then some n.identifier else none

variable (es : List (Name String))

theorem getElem?_settled (s : Nat) :
    (settled es)[s]? =
      es[s]?.map fun n => { n with spelling := some (numbered n.identifier (position es s n)) } := by
  rw [settled, List.getElem?_mapIdx]

theorem token_ofSettled {s : Nat} {n : Name String} (h : es[s]? = some n) :
    (ofSettled es).token s = .ok (numbered n.identifier (position es s n)) := by
  rw [token, ofSettled, getElem?_settled, h]
  exact Name.token_of_spelling rfl

theorem position_inj {i j : Nat} {n m : Name String} (hi : es[i]? = some n) (hj : es[j]? = some m)
    (hx : n.identifier = m.identifier) (hp : position es i n = position es j m) : i = j := by
  have h1 := (ranking_getElem? { entries := es } n.identifier _ i).mpr ⟨n, hi, rfl, rfl⟩
  have h2 := (ranking_getElem? { entries := es } n.identifier _ j).mpr ⟨m, hj, hx.symm, rfl⟩
  rw [hp] at h1
  exact Option.some.inj (h1.symm.trans h2)

/-- A group has a registration at every position below its size, and at no other. -/
theorem exists_position_iff (x : String) (k : Nat) :
    (∃ i n, es[i]? = some n ∧ n.identifier = x ∧ position es i n = k) ↔
      k < es.countP fun n => n.identifier = x := by
  have hlen := length_ranking { entries := es } x
  constructor
  · rintro ⟨i, n, hn, hx, hk⟩
    have hr := (ranking_getElem? { entries := es } x k i).mpr ⟨n, hn, hx, hk⟩
    rw [← hlen]
    exact (List.getElem?_eq_some_iff.mp hr).1
  · intro hk
    rw [← hlen] at hk
    obtain ⟨n, hn, hx, hp⟩ :=
      (ranking_getElem? { entries := es } x k _).mp (List.getElem?_eq_getElem hk)
    exact ⟨_, n, hn, hx, hp⟩

/-! ### Resolutions that succeed -/

/-- Giving out spellings keeps the number of registrations. -/
theorem length_settle (t : Names String) (as : List (Assignment String)) :
    (t.settle as).names.entries.length = t.entries.length := by
  induction as generalizing t with
  | nil => rfl
  | cons a rest ih =>
    rw [settle]
    cases t.entries[a.serial]? with
    | none => exact ih t
    | some n =>
      dsimp only
      cases n.resolve _ with
      | error e => rfl
      | ok n' => exact (ih _).trans (List.length_set ..)

/-- A resolution that succeeds gives every registration a spelling. -/
theorem settled_of_resolve {t : Names String} (h : t.resolve.error = none) :
    t.resolve.names = ofSettled t.entries := by
  cases hr : t.resolved with
  | true => simp [resolve, hr] at h
  | false =>
    have hfresh : ∀ n ∈ t.entries, n.spelling = none := by
      intro n hn
      obtain ⟨i, hi⟩ := List.mem_iff_getElem?.mp hn
      by_contra hs
      obtain ⟨_, _, _, _, _, hstop⟩ := exists_stop t hr hi hs
      rw [hstop.error] at h
      cases h
    exact (resolve_eq t hr hfresh).2

theorem length_resolve (t : Names String) :
    t.resolve.names.entries.length = t.entries.length := by
  rw [resolve]
  split
  next => rfl
  next => exact length_settle t _

/-! ### Looking up declarations -/

theorem mem_declaredIn (x : String) :
    x ∈ declaredIn es ↔ 0 < countOf x .declaration es := by
  rw [declaredIn, List.mem_filterMap, countOf, List.countP_pos_iff]
  constructor
  · rintro ⟨n, hn, h⟩
    split at h
    next hu => exact ⟨n, hn, by simp [hu, Option.some.inj h]⟩
    next => cases h
  · rintro ⟨n, hn, h⟩
    simp only [decide_eq_true_eq] at h
    exact ⟨n, hn, by simp [h.1, h.2]⟩

theorem groupOf_ofSettled (x : String) :
    (ofSettled es).groupOf x =
      (groupOf { entries := es } x).map fun e =>
        ({ e.1 with spelling := some (numbered e.1.identifier (position es e.2 e.1)) }, e.2) := by
  have hz : (settled es).zipIdx = es.zipIdx.map fun e =>
      ({ e.1 with spelling := some (numbered e.1.identifier (position es e.2 e.1)) }, e.2) := by
    apply List.ext_getElem?
    intro i
    rw [List.getElem?_zipIdx, getElem?_settled, List.getElem?_map, List.getElem?_zipIdx]
    cases es[i]? <;> simp
  rw [groupOf, groupOf, ofSettled, hz, List.filter_map]
  rfl

/-- The first declaration of an identifier stands at the first position. -/
theorem find?_declaration (x : String) :
    (groupOf { entries := es } x).find? (fun e => e.1.usage = .declaration) =
      (ofUsage x .declaration es)[0]? := by
  rw [← List.head?_filter, groupOf, List.filter_filter, ← List.head?_eq_getElem?]
  congr 1
  refine List.filter_congr fun e _ => ?_
  simp [Bool.and_comm]

theorem declared_ofSettled {x : String} (hx : x ∈ declaredIn es) :
    ∃ n s, (ofSettled es).declared x = .ok (n, s) ∧ n.token = .ok x := by
  have hpos := (mem_declaredIn es x).mp hx
  rw [← length_ofUsage] at hpos
  obtain ⟨⟨n, s⟩, h0⟩ : ∃ e, (ofUsage x .declaration es)[0]? = some e :=
    ⟨_, List.getElem?_eq_getElem hpos⟩
  obtain ⟨-, rfl, hu, hc⟩ := (ofUsage_getElem? ..).mp h0
  have hp : position es s n = 0 := by simp only [position, hu, hc]
  refine ⟨{ n with spelling := some (numbered n.identifier (position es s n)) }, s, ?_, ?_⟩
  · rw [declared, groupOf_ofSettled, List.find?_map]
    have hf := find?_declaration es n.identifier
    rw [h0] at hf
    simp only [Function.comp_def, hf, Option.map_some, Label.requireKey_string]
    rfl
  · rw [hp]
    exact Name.token_of_spelling rfl

theorem declared_ofSettled_of_notMem {x : String} (hx : x ∉ declaredIn es) :
    (ofSettled es).declared x = .error (.ofDefect (.undeclaredName (.text x))) := by
  have hzero : (ofUsage x .declaration es)[0]? = none := by
    rw [List.getElem?_eq_none_iff, length_ofUsage]
    exact Nat.not_lt.mp fun h => hx ((mem_declaredIn es x).mpr h)
  rw [declared, groupOf_ofSettled, List.find?_map]
  have hf := find?_declaration es x
  rw [hzero] at hf
  simp only [Function.comp_def, hf, Option.map_none, Label.requireKey_string]
  rfl

/-! ### Clashes -/

/-- Two registrations have one spelling exactly if one of them keeps its identifier and
that is the spelling of a later position in the group of the other. -/
theorem spelling_eq_iff {i j : Nat} {n m : Name String} (hi : es[i]? = some n)
    (hj : es[j]? = some m) (hij : i ≠ j) :
    numbered n.identifier (position es i n) = numbered m.identifier (position es j m) ↔
      (position es i n = 0 ∧ 0 < position es j m ∧
          n.identifier = numbered m.identifier (position es j m)) ∨
        (position es j m = 0 ∧ 0 < position es i n ∧
          m.identifier = numbered n.identifier (position es i n)) := by
  by_cases hx : n.identifier = m.identifier
  · have hne : position es i n ≠ position es j m := fun hp => hij (position_inj es hi hj hx hp)
    rw [hx]
    constructor
    · intro h
      exact absurd (Name.numbered_injective _ h) hne
    · rintro (⟨-, hk, h⟩ | ⟨-, hk, h⟩)
      · exact absurd h.symm (Name.numbered_ne _ hk)
      · exact absurd h.symm (Name.numbered_ne _ hk)
  · exact Name.numbered_eq_numbered_iff hx

theorem count_identifiers (x : String) :
    (es.map (·.identifier)).count x = es.countP fun n => n.identifier = x := by
  rw [List.count, List.countP_map]
  refine List.countP_congr fun n _ => ?_
  simp

/-- A text without underscores is a spelling exactly if it is an identifier: the first of a
group keeps it. -/
theorem exists_spelling_iff {x : String} (hx : '_' ∉ x.toList) :
    (∃ n ∈ (ofSettled es).entries, n.spelling = some x) ↔ x ∈ es.map (·.identifier) := by
  simp only [List.mem_iff_getElem?, ofSettled, getElem?_settled, List.getElem?_map]
  constructor
  · rintro ⟨a, ⟨i, hi⟩, ha⟩
    obtain ⟨n, hn, rfl⟩ := Option.map_eq_some_iff.mp hi
    obtain ⟨-, rfl⟩ := (Name.numbered_eq_iff hx _).mp (Option.some.inj ha)
    exact ⟨i, by rw [hn]; rfl⟩
  · rintro ⟨i, hi⟩
    obtain ⟨m, hm, rfl⟩ := Option.map_eq_some_iff.mp hi
    have hpos : 0 < es.countP fun n => n.identifier = m.identifier :=
      List.countP_pos_iff.mpr ⟨m, List.mem_of_getElem? hm, by simp⟩
    obtain ⟨j, n, hj, hn, hp⟩ := (exists_position_iff es m.identifier 0).mpr hpos
    refine ⟨_, ⟨j, by rw [hj]; rfl⟩, ?_⟩
    simp only [hp, hn, numbered]

/-- Different registrations have different spellings. -/
def Distinct (t : Names String) : Prop :=
  ∀ (i j : Nat) (n m : Name String), t.entries[i]? = some n → t.entries[j]? = some m → i ≠ j →
    n.spelling ≠ m.spelling

/-- All spellings of a settled table are different unless a registered identifier is
spelled like a later position of a group. -/
theorem distinct_ofSettled_iff :
    (ofSettled es).Distinct ↔
      ∀ x k, 0 < k → k < (es.map (·.identifier)).count x →
        numbered x k ∉ es.map (·.identifier) := by
  simp only [Distinct, ofSettled, getElem?_settled, count_identifiers]
  constructor
  · intro hd x k hk hlt hmem
    obtain ⟨m, hm, hx⟩ := List.mem_map.mp hmem
    obtain ⟨i, n, hi, rfl, rfl⟩ := (exists_position_iff es x k).mpr hlt
    -- the group of the offending identifier has a first position
    have hpos : 0 < es.countP fun e => e.identifier = m.identifier :=
      List.countP_pos_iff.mpr ⟨m, hm, by simp⟩
    obtain ⟨j, m', hj, hx', hp⟩ := (exists_position_iff es m.identifier 0).mpr hpos
    have hij : j ≠ i := by
      rintro rfl
      have hnm : m' = n := Option.some.inj (hj.symm.trans hi)
      subst hnm
      omega
    refine hd j i _ _ (by rw [hj]; rfl) (by rw [hi]; rfl) hij ?_
    exact congrArg some ((spelling_eq_iff es hj hi hij).mpr (.inl ⟨hp, hk, hx'.trans hx⟩))
  · intro h i j a b ha hb hij he
    obtain ⟨n, hn, rfl⟩ := Option.map_eq_some_iff.mp ha
    obtain ⟨m, hm, rfl⟩ := Option.map_eq_some_iff.mp hb
    rcases (spelling_eq_iff es hn hm hij).mp (Option.some.inj he) with ⟨-, hk, hx⟩ | ⟨-, hk, hx⟩
    · refine h m.identifier _ hk ((exists_position_iff es _ _).mp ⟨j, m, hm, rfl, rfl⟩) ?_
      exact List.mem_map.mpr ⟨n, List.mem_of_getElem? hn, hx⟩
    · refine h n.identifier _ hk ((exists_position_iff es _ _).mp ⟨i, n, hn, rfl, rfl⟩) ?_
      exact List.mem_map.mpr ⟨m, List.mem_of_getElem? hm, hx⟩

end ApiTypes.Names
