import ApiTypes.Proofs.Name.Settled
import Mathlib.Data.List.Induction

/-! Tables built by additions. An addition registers its identifier behind all others, unless it
declares an identifier again: then it is refused, and the table stays as it was. So a built table
declares nothing twice, has no spellings yet, and can always be resolved. The spelling of a
registration is then its identifier with a suffix for its rank, which counts the registrations of
the identifier that outweigh it and those of its own weight that are earlier. Two registrations
share a spelling exactly where the first of one group is spelled like a later one of another. -/

namespace ApiTypes

/-- What is put behind an identifier at a rank. -/
def Name.suffix : Nat → String
  | 0 => ""
  | 1 => "_"
  | rank => "_" ++ toString rank

theorem Name.numbered_eq_append_suffix (x : String) (k : Nat) : numbered x k = x ++ suffix k := by
  rcases k with _ | _ | k
  · exact String.append_empty.symm
  · rfl
  · exact String.append_assoc

namespace Names

open Name (numbered suffix)

/-! ### One addition -/

theorem any_conflictsWith (t : Names String) (x : String) (usage : Usage) :
    (t.groupOf x).any (fun e => e.1.conflictsWith usage) =
      decide (usage = .declaration ∧ x ∈ declaredIn t.entries) := by
  have hf := find?_declaration t.entries x
  have hl := length_ofUsage x .declaration t.entries
  have hm := mem_declaredIn t.entries x
  rw [Bool.eq_iff_iff, decide_eq_true_eq]
  cases usage with
  | imported => simp [Name.conflictsWith]
  | declaration =>
    simp only [Name.conflictsWith, true_and, decide_true, Bool.and_true]
    rw [List.any_eq_true, ← List.find?_isSome]
    show ((groupOf { entries := t.entries } x).find? fun e => decide (e.1.usage = .declaration)).isSome
      = true ↔ _
    rw [hf, hm, ← hl, Option.isSome_iff_exists]
    constructor
    · rintro ⟨e, he⟩
      exact (List.getElem?_eq_some_iff.mp he).1
    · intro hpos
      exact ⟨_, List.getElem?_eq_getElem hpos⟩

/-- A registration behind all others, which a second declaration is refused. -/
theorem add_eq {t : Names String} (hr : t.resolved = false) (x : String) (usage : Usage) :
    t.add x usage =
      if usage = .declaration ∧ x ∈ declaredIn t.entries then
        .error (.ofCause (.duplicateDeclaration (.text x)))
      else
        .ok ({ t with entries := t.entries ++ [{ identifier := x, usage }] }, t.entries.length) := by
  rw [add, hr, any_conflictsWith]
  simp only [Label.requireKey_string, decide_eq_true_eq, Bool.false_eq_true, if_false]
  split <;> rfl

theorem add_of_resolved {t : Names String} (hr : t.resolved = true) (x : String) (usage : Usage) :
    t.add x usage = .error (.ofDefect (.lateName (Label.document x))) := by
  rw [add, hr]
  rfl

theorem resolved_of_add {t : Names String} {x : String} {usage : Usage} {r : Names String × Nat}
    (h : t.add x usage = .ok r) : t.resolved = false := by
  cases hr : t.resolved with
  | false => rfl
  | true => simp [add_of_resolved hr] at h

/-! ### Any number of additions -/

/-- The table after an addition, which may be refused. -/
def added (t : Names String) (call : String × Usage) : Names String :=
  match t.add call.1 call.2 with
  | .ok (t', _) => t'
  | .error _ => t

/-- The table that some additions build. -/
def built (calls : List (String × Usage)) : Names String :=
  calls.foldl added {}

theorem added_eq {t : Names String} (hr : t.resolved = false) (call : String × Usage) :
    t.added call =
      if call.2 = .declaration ∧ call.1 ∈ declaredIn t.entries then t
      else { t with entries := t.entries ++ [{ identifier := call.1, usage := call.2 }] } := by
  rw [added, add_eq hr]
  by_cases h : call.2 = .declaration ∧ call.1 ∈ declaredIn t.entries
  · rw [if_pos h, if_pos h]
  · rw [if_neg h, if_neg h]

theorem declaredIn_concat (es : List (Name String)) (n : Name String) :
    declaredIn (es ++ [n]) =
      declaredIn es ++ if n.usage = .declaration then [n.identifier] else [] := by
  rw [declaredIn, List.filterMap_append, ← declaredIn]
  cases hu : n.usage <;> simp [hu]

/-- A table that takes additions: it is not resolved, no registration has a spelling, and no
identifier is declared twice. -/
structure Open (t : Names String) : Prop where
  resolved : t.resolved = false
  unspelled : ∀ n ∈ t.entries, n.spelling = none
  nodup : (declaredIn t.entries).Nodup

theorem Open.added {t : Names String} (h : t.Open) (call : String × Usage) :
    (t.added call).Open := by
  rw [added_eq h.resolved]
  by_cases hc : call.2 = .declaration ∧ call.1 ∈ declaredIn t.entries
  · rwa [if_pos hc]
  · rw [if_neg hc]
    refine ⟨h.resolved, fun n hn => ?_, ?_⟩
    · rcases List.mem_append.mp hn with hn | hn
      · exact h.unspelled n hn
      · rw [List.mem_singleton.mp hn]
    · rw [declaredIn_concat]
      by_cases hu : call.2 = .declaration
      · rw [if_pos hu]
        exact h.nodup.append (List.nodup_singleton _) (by simpa using fun hx => hc ⟨hu, hx⟩)
      · rw [if_neg hu, List.append_nil]
        exact h.nodup

theorem built_concat (calls : List (String × Usage)) (call : String × Usage) :
    built (calls ++ [call]) = (built calls).added call :=
  List.foldl_concat ..

theorem open_built (calls : List (String × Usage)) : (built calls).Open := by
  induction calls using List.reverseRecOn with
  | nil => exact ⟨rfl, by simp [built], List.nodup_nil⟩
  | append_singleton calls call ih =>
    rw [built_concat]
    exact ih.added call

/-- A built table declares what one of its additions declares. -/
theorem mem_declaredIn_built (calls : List (String × Usage)) (x : String) :
    x ∈ declaredIn (built calls).entries ↔ (x, .declaration) ∈ calls := by
  induction calls using List.reverseRecOn with
  | nil => simp [built, declaredIn]
  | append_singleton calls call ih =>
    obtain ⟨y, usage⟩ := call
    rw [built_concat, added_eq (open_built calls).resolved, List.mem_append, List.mem_singleton, ← ih]
    by_cases hc : usage = .declaration ∧ y ∈ declaredIn (built calls).entries
    · rw [if_pos hc]
      refine ⟨.inl, ?_⟩
      rintro (hx | hx)
      · exact hx
      · rw [(Prod.mk.inj hx).1]
        exact hc.2
    · rw [if_neg hc, declaredIn_concat, List.mem_append]
      cases usage <;> simp [eq_comm]

/-- An addition that declares an identifier again. -/
def Repeats (calls : List (String × Usage)) (call : String × Usage) : Prop :=
  call.2 = .declaration ∧ call ∈ calls

instance (calls : List (String × Usage)) (call : String × Usage) : Decidable (Repeats calls call) :=
  inferInstanceAs (Decidable (_ ∧ _))

theorem repeats_iff (calls : List (String × Usage)) (call : String × Usage) :
    Repeats calls call ↔ call.2 = .declaration ∧ call.1 ∈ declaredIn (built calls).entries := by
  obtain ⟨x, usage⟩ := call
  rw [mem_declaredIn_built, Repeats]
  constructor
  · rintro ⟨rfl, h⟩
    exact ⟨rfl, h⟩
  · rintro ⟨rfl, h⟩
    exact ⟨rfl, h⟩

theorem built_of_repeats {calls : List (String × Usage)} {call : String × Usage}
    (h : Repeats calls call) : built (calls ++ [call]) = built calls := by
  rw [built_concat, added_eq (open_built calls).resolved, if_pos ((repeats_iff ..).mp h)]

theorem built_of_not_repeats {calls : List (String × Usage)} {call : String × Usage}
    (h : ¬Repeats calls call) :
    built (calls ++ [call]) =
      { built calls with
        entries := (built calls).entries ++ [{ identifier := call.1, usage := call.2 }] } := by
  rw [built_concat, added_eq (open_built calls).resolved, if_neg fun hc => h ((repeats_iff ..).mpr hc)]

/-- An addition is refused exactly if it declares an identifier again. -/
theorem add_built (calls : List (String × Usage)) (call : String × Usage) :
    (built calls).add call.1 call.2 =
      if Repeats calls call then .error (.ofCause (.duplicateDeclaration (.text call.1)))
      else .ok (built (calls ++ [call]), (built calls).size) := by
  rw [add_eq (open_built calls).resolved]
  by_cases h : Repeats calls call
  · rw [if_pos h, if_pos ((repeats_iff ..).mp h)]
  · rw [if_neg h, if_neg fun hc => h ((repeats_iff ..).mpr hc), built_of_not_repeats h, size]

/-- Further additions keep the registrations and their serial numbers. -/
theorem entries_prefix_built (calls more : List (String × Usage)) :
    (built calls).entries <+: (built (calls ++ more)).entries := by
  induction more using List.reverseRecOn with
  | nil => simp
  | append_singleton more call ih =>
    rw [← List.append_assoc]
    by_cases h : Repeats (calls ++ more) call
    · rw [built_of_repeats h]
      exact ih
    · rw [built_of_not_repeats h]
      exact ih.trans (List.prefix_append _ _)

/-- An addition that is not refused has the registration of the serial number that it was
answered. -/
theorem getElem?_built {calls more : List (String × Usage)} {call : String × Usage}
    (h : ¬Repeats calls call) :
    (built (calls ++ call :: more)).entries[(built calls).size]? =
      some { identifier := call.1, usage := call.2 } := by
  have hsplit : calls ++ call :: more = calls ++ [call] ++ more := by simp
  obtain ⟨es, hes⟩ := entries_prefix_built (calls ++ [call]) more
  rw [hsplit, ← hes, built_of_not_repeats h, size]
  simp

/-- Every registration is that of an addition. -/
theorem exists_addition (calls : List (String × Usage)) {serial : Nat}
    (h : serial < (built calls).size) :
    ∃ before call after, calls = before ++ call :: after ∧ ¬Repeats before call ∧
      (built before).size = serial := by
  induction calls using List.reverseRecOn with
  | nil => exact absurd h (Nat.not_lt_zero serial)
  | append_singleton calls call ih =>
    by_cases hlt : serial < (built calls).size
    · obtain ⟨before, earlier, after, rfl, hkept, hsize⟩ := ih hlt
      exact ⟨before, earlier, after ++ [call], by simp, hkept, hsize⟩
    · by_cases hc : Repeats calls call
      · rw [built_of_repeats hc] at h
        exact absurd h hlt
      · refine ⟨calls, call, [], rfl, hc, ?_⟩
        rw [built_of_not_repeats hc] at h
        simp only [size, List.length_append, List.length_singleton] at h hlt ⊢
        omega

/-! ### Ranks -/

/-- How many registrations of an identifier stand before one of them: those that outweigh it, and
those of its weight that are earlier. -/
def rank (entries : List (Name String)) (serial : Nat) (n : Name String) : Nat :=
  entries.zipIdx.countP fun e => e.1.identifier = n.identifier ∧
    (e.1.usage.weight < n.usage.weight ∨ e.1.usage.weight = n.usage.weight ∧ e.2 < serial)

theorem countP_zipIdx_lt {α : Type} (p : α → Bool) (es : List α) (first k : Nat) :
    ((es.zipIdx first).countP fun e => p e.1 && decide (e.2 < first + k)) =
      (es.take k).countP p := by
  induction es generalizing first k with
  | nil => simp
  | cons e rest ih =>
    cases k with
    | zero =>
      rw [List.take_zero, List.countP_nil, List.countP_eq_zero]
      intro a ha
      have := List.le_snd_of_mem_zipIdx ha
      simp only [Bool.and_eq_true, decide_eq_true_eq]
      omega
    | succ k =>
      have hrest := ih (first + 1) k
      rw [show first + 1 + k = first + (k + 1) by omega] at hrest
      rw [List.zipIdx_cons, List.countP_cons, List.take_succ_cons, List.countP_cons, hrest]
      simp

/-- The rank of a registration is its position in the group. -/
theorem rank_eq_position (es : List (Name String)) (serial : Nat) (n : Name String) :
    rank es serial n = position es serial n := by
  have hearlier : ∀ usage, (es.zipIdx.countP fun e =>
      decide (e.1.identifier = n.identifier ∧ e.1.usage = usage) && decide (e.2 < serial)) =
        countOf n.identifier usage (es.take serial) := by
    intro usage
    have h := countP_zipIdx_lt
      (fun e : Name String => decide (e.identifier = n.identifier ∧ e.usage = usage)) es 0 serial
    simpa only [Nat.zero_add, countOf] using h
  have hall : (es.zipIdx.countP fun e =>
      decide (e.1.identifier = n.identifier ∧ e.1.usage = .declaration)) =
        countOf n.identifier .declaration es := by
    rw [← length_ofUsage, ofUsage, List.countP_eq_length_filter]
  cases hu : n.usage with
  | declaration =>
    simp only [position, hu]
    rw [← hearlier, rank]
    refine List.countP_congr fun e _ => ?_
    cases e.1.usage <;> simp [hu, Usage.weight]
  | imported =>
    simp only [position, hu]
    -- the declarations outweigh an import, and only earlier imports stand before it
    rw [← hearlier, ← hall, rank,
      List.countP_eq_countP_filter_add _ _ fun e => decide (e.1.usage = .declaration),
      List.countP_filter, List.countP_filter]
    congr 1
    · refine List.countP_congr fun e _ => ?_
      cases e.1.usage <;> simp [hu, Usage.weight]
    · refine List.countP_congr fun e _ => ?_
      cases e.1.usage <;> simp [hu, Usage.weight]

/-! ### The resolution of a built table -/

/-- A built table is resolved as a whole. -/
theorem resolve_built (calls : List (String × Usage)) :
    (built calls).resolve.error = none ∧
      (built calls).resolve.names = ofSettled (built calls).entries :=
  resolve_eq _ (open_built calls).resolved (open_built calls).unspelled

theorem token_resolve_built {calls : List (String × Usage)} {serial : Nat} {n : Name String}
    (h : (built calls).entries[serial]? = some n) :
    (built calls).resolve.names.token serial =
      .ok (n.identifier ++ suffix (rank (built calls).entries serial n)) := by
  rw [(resolve_built calls).2, token_ofSettled _ h, Name.numbered_eq_append_suffix, rank_eq_position]

theorem countOf_declaration (x : String) (es : List (Name String)) :
    countOf x .declaration es = (declaredIn es).count x := by
  rw [countOf, declaredIn, List.count, List.countP_filterMap]
  refine List.countP_congr fun n _ => ?_
  cases hu : n.usage <;> simp

/-- No identifier is declared twice. -/
theorem countOf_declaration_built_le (calls : List (String × Usage)) (x : String) :
    countOf x .declaration (built calls).entries ≤ 1 := by
  rw [countOf_declaration]
  exact List.nodup_iff_count_le_one.mp (open_built calls).nodup x

theorem rank_declaration {calls : List (String × Usage)} {serial : Nat} {n : Name String}
    (h : (built calls).entries[serial]? = some n) (hu : n.usage = .declaration) :
    rank (built calls).entries serial n = 0 := by
  have hnext : countOf n.identifier .declaration ((built calls).entries.take (serial + 1)) =
      countOf n.identifier .declaration ((built calls).entries.take serial) + 1 := by
    rw [List.take_add_one, h]
    simp [countOf, hu]
  have hle : countOf n.identifier .declaration ((built calls).entries.take (serial + 1)) ≤
      countOf n.identifier .declaration (built calls).entries :=
    (List.take_sublist ..).countP_le
  have hone := countOf_declaration_built_le calls n.identifier
  rw [rank_eq_position]
  simp only [position, hu]
  omega

theorem declared_eq (t : Names String) (x : String) :
    t.declared x =
      match (ofUsage x .declaration t.entries)[0]? with
      | some found => .ok found
      | none => .error (.ofDefect (.undeclaredName (.text x))) := by
  have hf : (t.groupOf x).find? (fun e => e.1.usage = .declaration) =
      (ofUsage x .declaration t.entries)[0]? := find?_declaration t.entries x
  rw [declared, hf]
  simp only [Label.requireKey_string]
  cases (ofUsage x .declaration t.entries)[0]? <;> rfl

/-- What becomes of some additions when the table that they build has been resolved to another. -/
structure SpelledByRank (calls : List (String × Usage)) (t : Names String) : Prop where
  /-- An addition is refused if it declares an identifier again, and else it registers what it asks
  for, under the next serial number. -/
  answered : ∀ before call after, calls = before ++ call :: after →
    if Repeats before call then
      (built before).add call.1 call.2 = .error (.ofCause (.duplicateDeclaration (.text call.1)))
    else
      (built before).add call.1 call.2 = .ok (built (before ++ [call]), (built before).size) ∧
        (built calls).entries[(built before).size]? =
          some { identifier := call.1, usage := call.2 }
  /-- There are no other registrations. -/
  registered : ∀ serial < (built calls).size, ∃ before call after,
    calls = before ++ call :: after ∧ ¬Repeats before call ∧ (built before).size = serial
  /-- No identifier is declared twice. -/
  once : ∀ x, ((built calls).entries.filter fun n =>
    n.identifier = x ∧ n.usage = .declaration).length ≤ 1
  /-- Every registration has its identifier with the suffix for its rank. -/
  spelled : ∀ serial n, (built calls).entries[serial]? = some n →
    t.token serial = .ok (n.identifier ++ suffix (rank (built calls).entries serial n))
  /-- A declaration keeps its identifier. -/
  kept : ∀ serial n, (built calls).entries[serial]? = some n → n.usage = .declaration →
    t.token serial = .ok n.identifier
  /-- A look-up finds the declaration of an identifier if one was added, and else there is none. -/
  declared : ∀ x, match t.declared x with
    | .ok (n, serial) => (x, .declaration) ∈ calls ∧ n.token = .ok x ∧
        (built calls).entries[serial]? = some { identifier := x, usage := .declaration }
    | .error e => (x, .declaration) ∉ calls ∧ e = .ofDefect (.undeclaredName (.text x))

theorem declared_resolve_built (calls : List (String × Usage)) (x : String) :
    match (built calls).resolve.names.declared x with
    | .ok (n, serial) => (x, .declaration) ∈ calls ∧ n.token = .ok x ∧
        (built calls).entries[serial]? = some { identifier := x, usage := .declaration }
    | .error e => (x, .declaration) ∉ calls ∧ e = .ofDefect (.undeclaredName (.text x)) := by
  rw [(resolve_built calls).2, ← mem_declaredIn_built]
  by_cases hx : x ∈ declaredIn (built calls).entries
  · obtain ⟨n, serial, hdeclared, htoken⟩ := declared_ofSettled _ hx
    have hfound := hdeclared
    rw [declared_eq] at hfound
    split at hfound
    next found hfirst =>
      obtain rfl : found = (n, serial) := Except.ok.inj hfound
      obtain ⟨hn, hid, hu, -⟩ := (ofUsage_getElem? ..).mp hfirst
      rw [ofSettled, getElem?_settled, Option.map_eq_some_iff] at hn
      obtain ⟨⟨y, usage, spelling⟩, hn, rfl⟩ := hn
      obtain rfl : y = x := hid
      obtain rfl : usage = .declaration := hu
      obtain rfl : spelling = none := (open_built calls).unspelled _ (List.mem_of_getElem? hn)
      rw [hdeclared]
      exact ⟨hx, htoken, hn⟩
    next => cases hfound
  · rw [declared_ofSettled_of_notMem _ hx]
    exact ⟨hx, rfl⟩

/-- Whatever additions build a table, its resolution succeeds and spells each registration by its
rank. -/
theorem built_spelledByRank (calls : List (String × Usage)) :
    (built calls).resolve.error = none ∧ SpelledByRank calls (built calls).resolve.names := by
  refine ⟨(resolve_built calls).1, ?_, fun serial h => exists_addition calls h, fun x => ?_,
    fun serial n h => token_resolve_built h, fun serial n h hu => ?_, declared_resolve_built calls⟩
  · rintro before call after rfl
    rw [add_built]
    by_cases h : Repeats before call
    · rw [if_pos h, if_pos h]
    · rw [if_neg h, if_neg h]
      exact ⟨rfl, getElem?_built h⟩
  · rw [← List.countP_eq_length_filter]
    exact countOf_declaration_built_le calls x
  · rw [token_resolve_built h, rank_declaration h hu]
    exact congrArg Except.ok String.append_empty

/-- An import of `Foo`, two declarations of it and two more imports, and one that looks like the
third of them. -/
def crowd : List (String × Usage) :=
  [("Foo", .imported), ("Foo", .declaration), ("Foo_2", .imported), ("Foo", .imported),
    ("Foo", .declaration), ("Foo", .imported)]

theorem built_spelledByRank_crowd :
    (built crowd).resolve.error = none ∧ SpelledByRank crowd (built crowd).resolve.names ∧
      (built crowd).resolve.names.entries.map (·.spelling) =
        [some "Foo_", some "Foo", some "Foo_2", some "Foo_2", some "Foo_3"] := by
  obtain ⟨herror, hspelled⟩ := built_spelledByRank crowd
  exact ⟨herror, hspelled, by decide⟩

/-! ### Clashes -/

/-- Two registrations where the one is the first of its group, and its identifier is that of the
other with the suffix for its rank. -/
def Clash (es : List (Name String)) (i : Nat) (n : Name String) (j : Nat) (m : Name String) :
    Prop :=
  rank es i n = 0 ∧ 0 < rank es j m ∧ n.identifier = m.identifier ++ suffix (rank es j m)

/-- Two registrations of a table that additions built have one spelling exactly if one of them
keeps an identifier that is spelled like the other; two that are renamed never have. -/
theorem clash_iff (calls : List (String × Usage)) {i j : Nat} {n m : Name String}
    (hi : (built calls).entries[i]? = some n) (hj : (built calls).entries[j]? = some m)
    (hij : i ≠ j) :
    ((∃ spelling, (built calls).resolve.names.token i = .ok spelling ∧
        (built calls).resolve.names.token j = .ok spelling) ↔
      Clash (built calls).entries i n j m ∨ Clash (built calls).entries j m i n) ∧
    (0 < rank (built calls).entries i n → 0 < rank (built calls).entries j m →
      (built calls).resolve.names.token i ≠ (built calls).resolve.names.token j) := by
  have hequal : (built calls).resolve.names.token i = (built calls).resolve.names.token j ↔
      Clash (built calls).entries i n j m ∨ Clash (built calls).entries j m i n := by
    rw [token_resolve_built hi, token_resolve_built hj, Except.ok.injEq, Clash, Clash]
    simp only [← Name.numbered_eq_append_suffix, rank_eq_position]
    exact spelling_eq_iff _ hi hj hij
  refine ⟨?_, fun hi₀ hj₀ he => ?_⟩
  · rw [← hequal, token_resolve_built hi]
    constructor
    · rintro ⟨spelling, hn, hm⟩
      rw [hm, hn]
    · intro he
      exact ⟨_, rfl, he.symm⟩
  · rcases hequal.mp he with ⟨h, -, -⟩ | ⟨h, -, -⟩
    · exact Nat.ne_of_gt hi₀ h
    · exact Nat.ne_of_gt hj₀ h

/-- The third import of `Foo` is spelled like the import of `Foo_2`, and unlike the first one. -/
theorem clash_iff_crowd :
    let t := (built crowd).resolve.names
    let es := (built crowd).entries
    let foo : Name String := { identifier := "Foo", usage := .imported }
    let other : Name String := { identifier := "Foo_2", usage := .imported }
    es[2]? = some other ∧ es[3]? = some foo ∧ es[0]? = some foo ∧
      (∃ spelling, t.token 2 = .ok spelling ∧ t.token 3 = .ok spelling) ∧
      t.token 0 ≠ t.token 3 := by
  intro t es foo other
  have hother : es[2]? = some other := rfl
  have hthird : es[3]? = some foo := rfl
  have hfirst : es[0]? = some foo := rfl
  have hclash : Clash es 2 other 3 foo := ⟨by decide, by decide, by decide⟩
  exact ⟨hother, hthird, hfirst, (clash_iff crowd hother hthird (by decide)).1.mpr (.inl hclash),
    (clash_iff crowd hfirst hthird (by decide)).2 (by decide) (by decide)⟩

end Names

end ApiTypes
