import ApiTypes.Proofs.Name.Additions

/-! The identifier table as a dictionary. The dictionary has for each identifier the group of its
registrations, in the order in which the identifiers came to be entered. An addition enters its
identifier before it looks for a conflict, so a new identifier has an empty group at first. Such a
group has no conflict, and an addition that is refused has entered nothing. So a dictionary that
stands for a table answers every addition as the table does, and goes on to stand for it. -/

namespace ApiTypes

open Names

/-- A registration behind all others brings its identifier if it is new. -/
theorem Names.identifiersOf_concat (es : List (Name String)) (n : Name String) :
    identifiersOf (es ++ [n]) =
      if n.identifier ∈ identifiersOf es then identifiersOf es
      else identifiersOf es ++ [n.identifier] := by
  induction es with
  | nil => simp [identifiersOf]
  | cons k rest ih =>
    rw [List.cons_append, identifiersOf, ih, identifiersOf]
    by_cases hk : k.identifier = n.identifier
    · by_cases hn : n.identifier ∈ identifiersOf rest <;> simp [hk, hn]
    · by_cases hn : n.identifier ∈ identifiersOf rest <;> simp [hk, hn, Ne.symm hk]

/-- Identifiers, each with the group of its registrations. -/
abbrev Groups :=
  List (String × List (Name String))

namespace Groups

/-- The dictionary with a group for an identifier, a new and empty one if there is none. -/
def enter (x : String) : Groups → Groups
  | [] => [(x, [])]
  | p :: rest => if p.1 = x then p :: rest else p :: enter x rest

def group (g : Groups) (x : String) : List (Name String) :=
  ((g.find? fun p => p.1 = x).map (·.2)).getD []

/-- The dictionary with one more registration in the group of its identifier. -/
def push (n : Name String) (g : Groups) : Groups :=
  g.map fun p => if p.1 = n.identifier then (p.1, p.2 ++ [n]) else p

/-- Registers an identifier, in a dictionary whose names may be resolved; what is left of the
dictionary, and whether the registration is refused. -/
def add (g : Groups) (resolved : Bool) (x : String) (usage : Usage) :
    Groups × Except Error Unit :=
  if resolved then (g, .error (.ofDefect (.lateName (.text x))))
  else
    let entered := g.enter x
    if (entered.group x).any fun n => n.conflictsWith usage then
      (entered, .error (.ofCause (.duplicateDeclaration (.text x))))
    else (entered.push { identifier := x, usage }, .ok ())

/-! ### Entering an identifier -/

variable {g : Groups} {x : String}

theorem enter_of_mem (h : x ∈ g.map Prod.fst) : g.enter x = g := by
  induction g with
  | nil => cases h
  | cons p rest ih =>
    rw [enter]
    by_cases hp : p.1 = x
    · rw [if_pos hp]
    · have hrest : x ∈ rest.map Prod.fst := by simpa [Ne.symm hp] using h
      rw [if_neg hp, ih hrest]

theorem enter_of_not_mem (h : x ∉ g.map Prod.fst) : g.enter x = g ++ [(x, [])] := by
  induction g with
  | nil => rfl
  | cons p rest ih =>
    rw [List.map_cons, List.mem_cons, not_or] at h
    rw [enter, if_neg (Ne.symm h.1), ih h.2, List.cons_append]

theorem group_of_not_mem (h : x ∉ g.map Prod.fst) : g.group x = [] := by
  have hnone : g.find? (fun p => p.1 = x) = none := by
    rw [List.find?_eq_none]
    intro p hp hx
    exact h (List.mem_map.mpr ⟨p, hp, of_decide_eq_true hx⟩)
  rw [group, hnone]
  rfl

/-- To enter an identifier adds no registration. -/
theorem group_enter (g : Groups) (x : String) : (g.enter x).group x = g.group x := by
  by_cases h : x ∈ g.map Prod.fst
  · rw [enter_of_mem h]
  · rw [enter_of_not_mem h, group_of_not_mem h, group, List.find?_append,
      List.find?_eq_none.mpr fun p hp hx => h (List.mem_map.mpr ⟨p, hp, of_decide_eq_true hx⟩)]
    simp

/-- Whatever a dictionary holds, an addition that is refused leaves it as it was. -/
theorem add_of_refused {resolved : Bool} {usage : Usage} {e : Error}
    (h : (g.add resolved x usage).2 = .error e) : (g.add resolved x usage).1 = g := by
  cases resolved with
  | true => rfl
  | false =>
    rw [add, if_neg Bool.false_ne_true] at h ⊢
    dsimp only at h ⊢
    split at h
    next hconflict =>
      -- a conflict is with a registration, so the identifier had a group already
      have hmem : x ∈ g.map Prod.fst := by
        by_contra hnew
        rw [group_enter, group_of_not_mem hnew] at hconflict
        cases hconflict
      rw [if_pos hconflict, enter_of_mem hmem]
    next => cases h

/-! ### The dictionary of a table -/

/-- A dictionary stands for a table if its identifiers are those of the table, in order, and each
group has the registrations of its identifier, in some order: a resolution sorts them. -/
structure StandsFor (g : Groups) (t : Names String) : Prop where
  identifiers : g.map Prod.fst = identifiersOf t.entries
  groups : ∀ p ∈ g, p.2.Perm (t.entries.filter fun n => n.identifier = p.1)

/-- The dictionary of a table, with every group in the order of registration. -/
def ofTable (t : Names String) : Groups :=
  (identifiersOf t.entries).map fun x => (x, t.entries.filter fun n => n.identifier = x)

theorem standsFor_ofTable (t : Names String) : StandsFor (ofTable t) t where
  identifiers := by simp [ofTable, Function.comp_def]
  groups p hp := by
    obtain ⟨x, -, rfl⟩ := List.mem_map.mp hp
    exact .refl _

/-! ### Additions to a dictionary that stands for a table -/

variable {t : Names String} {usage : Usage}

theorem StandsFor.filter_eq_nil (h : StandsFor g t) (hx : x ∉ g.map Prod.fst) :
    t.entries.filter (fun n => n.identifier = x) = [] := by
  rw [h.identifiers, mem_identifiersOf] at hx
  rw [List.filter_eq_nil_iff]
  exact fun n hn hnx => hx ⟨n, hn, of_decide_eq_true hnx⟩

theorem StandsFor.group_perm (h : StandsFor g t) (x : String) :
    (g.group x).Perm (t.entries.filter fun n => n.identifier = x) := by
  by_cases hx : x ∈ g.map Prod.fst
  · obtain ⟨p, hp, hpx⟩ := List.mem_map.mp hx
    have hsome : (g.find? fun p => p.1 = x).isSome :=
      List.find?_isSome.mpr ⟨p, hp, decide_eq_true hpx⟩
    obtain ⟨q, hq⟩ := Option.isSome_iff_exists.mp hsome
    obtain rfl : q.1 = x := by simpa using List.find?_some hq
    rw [group, hq]
    exact h.groups q (List.mem_of_find?_eq_some hq)
  · rw [group_of_not_mem hx, h.filter_eq_nil hx]

theorem StandsFor.any_conflictsWith (h : StandsFor g t) (x : String) (usage : Usage) :
    ((g.group x).any fun n => n.conflictsWith usage) =
      decide (usage = .declaration ∧ x ∈ declaredIn t.entries) := by
  have hentries : t.entries = t.entries.zipIdx.map Prod.fst := (List.zipIdx_map_fst ..).symm
  rw [← Names.any_conflictsWith, (h.group_perm x).any_eq, hentries, List.any_filter, List.any_map,
    groupOf, List.any_filter]
  simp [Function.comp_def]

/-- A registration in its group stands for one behind all others. -/
theorem StandsFor.push (h : StandsFor g t) (n : Name String) :
    StandsFor ((g.enter n.identifier).push n) { t with entries := t.entries ++ [n] } where
  identifiers := by
    have hkeys : ∀ g : Groups, (g.push n).map Prod.fst = g.map Prod.fst := by
      intro g
      rw [Groups.push, List.map_map]
      refine List.map_congr_left fun p _ => ?_
      rw [Function.comp_apply]
      split <;> rfl
    rw [hkeys, identifiersOf_concat, ← h.identifiers]
    by_cases hx : n.identifier ∈ g.map Prod.fst
    · rw [if_pos hx, enter_of_mem hx]
    · rw [if_neg hx, enter_of_not_mem hx, List.map_append]
      rfl
  groups := by
    have hentered : ∀ p ∈ g.enter n.identifier,
        p.2.Perm (t.entries.filter fun k => k.identifier = p.1) := by
      intro p hp
      by_cases hx : n.identifier ∈ g.map Prod.fst
      · rw [enter_of_mem hx] at hp
        exact h.groups p hp
      · rw [enter_of_not_mem hx, List.mem_append, List.mem_singleton] at hp
        rcases hp with hp | rfl
        · exact h.groups p hp
        · rw [h.filter_eq_nil hx]
    intro q hq
    obtain ⟨p, hp, rfl⟩ := List.mem_map.mp hq
    rw [List.filter_append]
    by_cases hx : p.1 = n.identifier
    · rw [if_pos hx]
      simpa [hx] using (hentered p hp).append_right [n]
    · rw [if_neg hx]
      simpa [Ne.symm hx] using hentered p hp

theorem StandsFor.add_eq (h : StandsFor g t) (hr : t.resolved = false) (x : String)
    (usage : Usage) :
    g.add t.resolved x usage =
      if usage = .declaration ∧ x ∈ declaredIn t.entries then
        (g.enter x, .error (.ofCause (.duplicateDeclaration (.text x))))
      else ((g.enter x).push { identifier := x, usage }, .ok ()) := by
  rw [add, hr, if_neg Bool.false_ne_true]
  simp only [group_enter, h.any_conflictsWith, decide_eq_true_eq]

/-- What a table refuses, a dictionary that stands for it refuses, and has nothing entered. -/
theorem StandsFor.add_error (h : StandsFor g t) {e : Error} (he : t.add x usage = .error e) :
    g.add t.resolved x usage = (g, .error e) := by
  have hanswer : (g.add t.resolved x usage).2 = .error e := by
    cases hr : t.resolved with
    | true =>
      rw [add_of_resolved hr] at he
      exact congrArg _ (Except.error.inj he)
    | false =>
      rw [Names.add_eq hr] at he
      rw [← hr, h.add_eq hr]
      split at he
      next hd => rw [if_pos hd, ← Except.error.inj he]
      next => cases he
  exact Prod.ext (add_of_refused hanswer) hanswer

/-- What a table takes, such a dictionary takes as well, and stands for the new table. -/
theorem StandsFor.add_ok (h : StandsFor g t) {t' : Names String} {serial : Nat}
    (ht : t.add x usage = .ok (t', serial)) :
    ∃ g', g.add t.resolved x usage = (g', .ok ()) ∧ StandsFor g' t' := by
  have hr := resolved_of_add ht
  rw [Names.add_eq hr] at ht
  split at ht
  next => cases ht
  next hd =>
    obtain rfl := (Prod.mk.inj (Except.ok.inj ht)).1
    rw [h.add_eq hr, if_neg hd]
    exact ⟨_, rfl, h.push { identifier := x, usage }⟩

end Groups

end ApiTypes
