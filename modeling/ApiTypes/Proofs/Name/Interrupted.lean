import ApiTypes.Proofs.Name.Additions

/-! Resolutions that do not come to their end. A registration can be given a spelling on its own,
before its table is resolved. The resolution takes the groups in the order in which their
identifiers were first registered, and each group with its declarations before its imports. It
stops at the first registration that has a spelling, and does not take back what it has given out
before: so it resolves all or nothing only if no registration has a spelling, or the very first one
has. -/

namespace ApiTypes.Names

open Name (numbered suffix)

/-! ### The order of a resolution -/

/-- Where an identifier is registered first. -/
def firstOf (es : List (Name String)) (x : String) : Nat :=
  es.findIdx fun n => n.identifier = x

/-- The order in which a resolution takes the registrations. -/
def Precedes (es : List (Name String)) (i : Nat) (n : Name String) (j : Nat) (m : Name String) :
    Prop :=
  firstOf es n.identifier < firstOf es m.identifier ∨
    n.identifier = m.identifier ∧
      (n.usage.weight < m.usage.weight ∨ n.usage.weight = m.usage.weight ∧ i < j)

instance (es : List (Name String)) (i : Nat) (n : Name String) (j : Nat) (m : Name String) :
    Decidable (Precedes es i n j m) :=
  inferInstanceAs (Decidable (_ ∨ _))

variable (es : List (Name String))

theorem precedes_asymm {i j : Nat} {n m : Name String} (h : Precedes es i n j m) :
    ¬Precedes es j m i n := by
  rintro (h' | ⟨hx', h'⟩)
  · rcases h with h | ⟨hx, -⟩
    · omega
    · rw [hx] at h'
      omega
  · rcases h with h | ⟨-, h⟩
    · rw [hx'] at h
      omega
    · omega

theorem precedes_irrefl (i : Nat) (n : Name String) : ¬Precedes es i n i n :=
  fun h => precedes_asymm es h h

theorem pairwise_identifiersOf :
    (identifiersOf es).Pairwise fun x y => firstOf es x < firstOf es y := by
  induction es with
  | nil => exact List.Pairwise.nil
  | cons n rest ih =>
    have hlater : ∀ x ∈ (identifiersOf rest).filter (fun x => !Label.same n.identifier x),
        firstOf (n :: rest) x = firstOf rest x + 1 := by
      intro x hx
      have hne : n.identifier ≠ x := by simpa using (List.mem_filter.mp hx).2
      simp [firstOf, List.findIdx_cons, hne]
    rw [identifiersOf, List.pairwise_cons]
    constructor
    · intro x hx
      rw [hlater x hx]
      simp [firstOf, List.findIdx_cons]
    · refine (ih.filter _).imp_of_mem fun hx hy hxy => ?_
      rw [hlater _ hx, hlater _ hy]
      omega

theorem pairwise_ofUsage (x : String) (usage : Usage) :
    (ofUsage x usage es).Pairwise fun a b => a.2 < b.2 := by
  have hserials : (es.zipIdx.map Prod.snd).Pairwise (· < ·) := by
    rw [List.zipIdx_map_snd]
    exact List.pairwise_lt_range'
  exact (List.pairwise_map.mp hserials).filter _

/-- A resolution gives out its spellings in order. -/
theorem pairwise_assignments (t : Names String) :
    t.assignments.Pairwise fun a b => ∀ n m, t.entries[a.serial]? = some n →
      t.entries[b.serial]? = some m → Precedes t.entries a.serial n b.serial m := by
  let R (i j : Nat) : Prop := ∀ n m, t.entries[i]? = some n → t.entries[j]? = some m →
    Precedes t.entries i n j m
  have hentry : ∀ {x usage e}, e ∈ ofUsage x usage t.entries → ∀ n, t.entries[e.2]? = some n →
      n.identifier = x ∧ n.usage = usage := by
    intro x usage e he n hn
    obtain ⟨k, hk⟩ := List.mem_iff_getElem?.mp he
    obtain ⟨hm, hx, hu, -⟩ := (ofUsage_getElem? ..).mp hk
    obtain rfl : e.1 = n := Option.some.inj (hm.symm.trans hn)
    exact ⟨hx, hu⟩
  have hgroup : ∀ x, (t.ranking x).Pairwise R := by
    intro x
    have husage : ∀ usage, (ofUsage x usage t.entries).Pairwise fun a b => R a.2 b.2 := by
      intro usage
      refine (pairwise_ofUsage t.entries x usage).imp_of_mem fun ha hb hab n m hn hm => ?_
      obtain ⟨hx, hu⟩ := hentry ha n hn
      obtain ⟨hx', hu'⟩ := hentry hb m hm
      exact .inr ⟨hx.trans hx'.symm, .inr ⟨by rw [hu, hu'], hab⟩⟩
    rw [ranking_eq, List.pairwise_map, List.pairwise_append]
    refine ⟨husage .declaration, husage .imported, fun a ha b hb n m hn hm => ?_⟩
    obtain ⟨hx, hu⟩ := hentry ha n hn
    obtain ⟨hx', hu'⟩ := hentry hb m hm
    exact .inr ⟨hx.trans hx'.symm, .inl (by rw [hu, hu']; decide)⟩
  have hserials : (t.assignments.map (·.serial)).Pairwise R := by
    rw [serials_assignments, List.pairwise_flatMap]
    refine ⟨fun x _ => hgroup x, (pairwise_identifiersOf t.entries).imp ?_⟩
    intro x y hxy i hi j hj n m hn hm
    obtain ⟨k, hk⟩ := List.mem_iff_getElem?.mp hi
    obtain ⟨l, hl⟩ := List.mem_iff_getElem?.mp hj
    obtain ⟨n', hn', rfl, -⟩ := (ranking_getElem? ..).mp hk
    obtain ⟨m', hm', rfl, -⟩ := (ranking_getElem? ..).mp hl
    obtain rfl : n' = n := Option.some.inj (hn'.symm.trans hn)
    obtain rfl : m' = m := Option.some.inj (hm'.symm.trans hm)
    exact .inl hxy
  exact List.pairwise_map.mp hserials

/-! ### Where a resolution stops -/

/-- A registration that comes before all that have a spelling. -/
def Leads (t : Names String) (i : Nat) (n : Name String) : Prop :=
  ∀ j m, t.entries[j]? = some m → m.spelling ≠ none → Precedes t.entries i n j m

theorem Leads.unspelled {t : Names String} {i : Nat} {n : Name String} (h : t.Leads i n)
    (hn : t.entries[i]? = some n) : n.spelling = none := by
  by_contra hs
  exact precedes_irrefl _ i n (h i n hn hs)

section

variable {t : Names String} {before after : List (Assignment String)} {a : Assignment String}
  {n : Name String} {old : String}

/-- The place of a registration in the order of a resolution that stops. -/
theorem Stop.mem_split (h : t.Stop before a after n old) {i : Nat} {m : Name String}
    (hm : t.entries[i]? = some m) :
    i ∈ before.map (·.serial) ∨ (i = a.serial ∧ m = n) ∨ i ∈ after.map (·.serial) := by
  have hmem : ⟨i, m.identifier, position t.entries i m⟩ ∈ t.assignments :=
    (mem_assignments t _).mpr ⟨m, hm, rfl, rfl⟩
  rw [h.split] at hmem
  rcases List.mem_append.mp hmem with hbefore | hmem
  · exact .inl (List.mem_map_of_mem hbefore)
  · rcases List.mem_cons.mp hmem with ha | hafter
    · obtain rfl : i = a.serial := congrArg Assignment.serial ha
      exact .inr (.inl ⟨rfl, Option.some.inj (hm.symm.trans h.entry)⟩)
    · exact .inr (.inr (List.mem_map_of_mem hafter))

theorem Stop.precedes_of_mem_after (h : t.Stop before a after n old) {j : Nat} {m : Name String}
    (hj : j ∈ after.map (·.serial)) (hm : t.entries[j]? = some m) :
    Precedes t.entries a.serial n j m := by
  have horder := pairwise_assignments t
  rw [h.split] at horder
  obtain ⟨-, hlater, -⟩ := List.pairwise_append.mp horder
  obtain ⟨b, hb, rfl⟩ := List.mem_map.mp hj
  exact (List.pairwise_cons.mp hlater).1 b hb n m h.entry hm

/-- The registration that a resolution stops at comes first of those with a spelling. -/
theorem Stop.first (h : t.Stop before a after n old) {j : Nat} {m : Name String}
    (hm : t.entries[j]? = some m) (hs : m.spelling ≠ none) :
    j = a.serial ∨ Precedes t.entries a.serial n j m := by
  rcases h.mem_split hm with hbefore | ⟨ha, -⟩ | hafter
  · obtain ⟨b, hb, rfl⟩ := List.mem_map.mp hbefore
    exact absurd (h.unspelled b hb m hm) hs
  · exact .inl ha
  · exact .inr (h.precedes_of_mem_after hafter hm)

/-- Before a resolution stops, exactly the registrations get spellings that come before all spelled
ones. -/
theorem Stop.leads_iff (h : t.Stop before a after n old) {i : Nat} {m : Name String}
    (hm : t.entries[i]? = some m) : t.Leads i m ↔ i ∈ before.map (·.serial) := by
  constructor
  · intro hlead
    have hfirst := hlead a.serial n h.entry (by simp [h.spelled])
    rcases h.mem_split hm with hbefore | ⟨rfl, rfl⟩ | hafter
    · exact hbefore
    · exact absurd hfirst (precedes_irrefl _ _ _)
    · exact absurd (h.precedes_of_mem_after hafter hm) (precedes_asymm _ hfirst)
  · intro hi j k hk hs
    obtain ⟨b, hb, rfl⟩ := List.mem_map.mp hi
    have horder := pairwise_assignments t
    rw [h.split] at horder
    obtain ⟨-, -, hacross⟩ := List.pairwise_append.mp horder
    rcases h.mem_split hk with hbefore | ⟨rfl, rfl⟩ | hafter
    · obtain ⟨c, hc, rfl⟩ := List.mem_map.mp hbefore
      exact absurd (h.unspelled c hc k hk) hs
    · exact hacross b hb a List.mem_cons_self m k hm hk
    · obtain ⟨c, hc, rfl⟩ := List.mem_map.mp hafter
      exact hacross b hb c (List.mem_cons_of_mem _ hc) m k hm hk

/-- The spelling that a registration gets in the end: its identifier with the suffix for its
rank. -/
def settledName (t : Names String) (i : Nat) (n : Name String) : Name String :=
  { n with spelling := some (n.identifier ++ suffix (rank t.entries i n)) }

theorem Stop.getElem?_of_leads (h : t.Stop before a after n old) {i : Nat} {m : Name String}
    (hm : t.entries[i]? = some m) (hlead : t.Leads i m) :
    t.resolve.names.entries[i]? = some (t.settledName i m) := by
  obtain ⟨b, hb, rfl⟩ := List.mem_map.mp ((h.leads_iff hm).mp hlead)
  have hmem : b ∈ t.assignments := by
    rw [h.split]
    exact List.mem_append_left _ hb
  obtain ⟨k, hk, hx, hposition⟩ := (mem_assignments t b).mp hmem
  obtain rfl : k = m := Option.some.inj (hk.symm.trans hm)
  have hnodup := nodup_assignments t
  rw [h.split, List.map_append, List.nodup_append] at hnodup
  rw [h.names, getElem?_applyAll_of_mem before hnodup.1 _ b hb, hm, Option.map_some,
    Assignment.apply, hx, hposition, Name.numbered_eq_append_suffix, ← rank_eq_position,
    settledName]

theorem Stop.getElem?_of_not_leads (h : t.Stop before a after n old) {i : Nat} {m : Name String}
    (hm : t.entries[i]? = some m) (hlead : ¬t.Leads i m) :
    t.resolve.names.entries[i]? = some m := by
  rw [h.names, getElem?_applyAll_of_notMem _ _ fun hi => hlead ((h.leads_iff hm).mpr hi), hm]

end

/-! ### What a resolution leaves -/

/-- A resolution that gives every registration without a spelling its own and resolves the table,
or fails as a defect of phase and changes no spelling. -/
def AllOrNothing (t : Names String) (r : Resolution String) : Prop :=
  (r.error = none ∧ r.names.resolved = true ∧
      ∀ i n, t.entries[i]? = some n → n.spelling = none →
        r.names.entries[i]? = some (t.settledName i n)) ∨
    ((∃ cause, r.error = some (.ofDefect cause) ∧ cause.category = .phase) ∧
      r.names.entries.map (·.spelling) = t.entries.map (·.spelling))

/-- What a resolution makes of a table, some of whose registrations may have spellings. -/
structure Resolves (t : Names String) (r : Resolution String) : Prop where
  /-- It succeeds exactly if no registration has a spelling. -/
  succeeds : r.error = none ↔ ∀ n ∈ t.entries, n.spelling = none
  resolved : r.names.resolved = true ↔ r.error = none
  /-- Otherwise it fails as a defect of phase, for the first registration that has a spelling. -/
  refused : ∀ e, r.error = some e → ∃ j m old, t.entries[j]? = some m ∧ m.spelling = some old ∧
    e = .ofDefect (.alreadyResolved (.text m.identifier) (.text old)) ∧
    ∀ i n, t.entries[i]? = some n → n.spelling ≠ none → i = j ∨ Precedes t.entries j m i n
  /-- A registration gets its spelling if it comes before all that have one. -/
  given : ∀ i n, t.entries[i]? = some n → t.Leads i n →
    r.names.entries[i]? = some (t.settledName i n)
  /-- All other registrations stay as they were. -/
  kept : ∀ i n, t.entries[i]? = some n → ¬t.Leads i n → r.names.entries[i]? = some n
  length : r.names.entries.length = t.entries.length
  /-- So it is all or nothing exactly if no registration has a spelling, or the first of all. -/
  allOrNothing : AllOrNothing t r ↔ (∀ n ∈ t.entries, n.spelling = none) ∨
    ∃ j m, t.entries[j]? = some m ∧ m.spelling ≠ none ∧
      ∀ i n, t.entries[i]? = some n → i = j ∨ Precedes t.entries j m i n

theorem getElem?_settled_eq (t : Names String) (i : Nat) :
    (settled t.entries)[i]? = t.entries[i]?.map (t.settledName i) := by
  rw [getElem?_settled]
  congr 1
  funext n
  rw [settledName, Name.numbered_eq_append_suffix, rank_eq_position]

/-- A table without spellings is resolved as a whole. -/
theorem resolves_of_unspelled {t : Names String} (hr : t.resolved = false)
    (hf : ∀ n ∈ t.entries, n.spelling = none) : Resolves t t.resolve := by
  obtain ⟨herror, hnames⟩ := resolve_eq t hr hf
  have hgiven : ∀ i n, t.entries[i]? = some n →
      t.resolve.names.entries[i]? = some (t.settledName i n) := by
    intro i n hn
    rw [hnames, getElem?_settled_eq, hn, Option.map_some]
  have hleads : ∀ i n, t.Leads i n :=
    fun i n j m hm hs => absurd (hf m (List.mem_of_getElem? hm)) hs
  exact
    { succeeds := iff_of_true herror hf
      resolved := iff_of_true (by rw [hnames]) herror
      refused := fun e he => by rw [herror] at he; cases he
      given := fun i n hn _ => hgiven i n hn
      kept := fun i n _ hlead => absurd (hleads i n) hlead
      length := length_resolve t
      allOrNothing := iff_of_true
        (.inl ⟨herror, by rw [hnames], fun i n hn _ => hgiven i n hn⟩) (.inl hf) }

/-- A resolution that stops changes no spelling exactly if it stops at the first registration of
all. -/
theorem Stop.spellings_eq_iff {t : Names String} {before after : List (Assignment String)}
    {a : Assignment String} {n : Name String} {old : String} (h : t.Stop before a after n old) :
    t.resolve.names.entries.map (·.spelling) = t.entries.map (·.spelling) ↔
      ∃ j m, t.entries[j]? = some m ∧ m.spelling ≠ none ∧
        ∀ i k, t.entries[i]? = some k → i = j ∨ Precedes t.entries j m i k := by
  constructor
  · intro hsame
    refine ⟨a.serial, n, h.entry, by simp [h.spelled], fun i k hk => ?_⟩
    rcases h.mem_split hk with hbefore | ⟨rfl, -⟩ | hafter
    · -- what stands before the stop has a spelling now, and had none
      have hlead := (h.leads_iff hk).mpr hbefore
      have hi := congrArg (·[i]?) hsame
      simp [List.getElem?_map, h.getElem?_of_leads hk hlead, hk, hlead.unspelled hk,
        settledName] at hi
    · exact .inl rfl
    · exact .inr (h.precedes_of_mem_after hafter hk)
  · rintro ⟨j, m, hm, hs, hfirst⟩
    have hkept : ∀ (i : Nat) (k : Name String), t.entries[i]? = some k →
        t.resolve.names.entries[i]? = some k := by
      intro i k hk
      refine h.getElem?_of_not_leads hk fun hlead => ?_
      rcases hfirst i k hk with rfl | hji
      · obtain rfl : k = m := Option.some.inj (hk.symm.trans hm)
        exact hs (hlead.unspelled hk)
      · exact precedes_asymm _ (hlead j m hm hs) hji
    have hentries : t.resolve.names.entries = t.entries := by
      refine List.ext_getElem? fun i => ?_
      cases hi : t.entries[i]? with
      | some k => exact hkept i k hi
      | none =>
        rw [List.getElem?_eq_none_iff] at hi ⊢
        rwa [length_resolve]
    rw [hentries]

theorem Stop.resolves {t : Names String} {before after : List (Assignment String)}
    {a : Assignment String} {n : Name String} {old : String} (h : t.Stop before a after n old)
    (hr : t.resolved = false) : Resolves t t.resolve := by
  have hspelled : n.spelling ≠ none := by simp [h.spelled]
  have hnot : ¬∀ m ∈ t.entries, m.spelling = none :=
    fun hall => hspelled (hall n (List.mem_of_getElem? h.entry))
  have herror : t.resolve.error ≠ none := by simp [h.error]
  exact
    { succeeds := iff_of_false herror hnot
      resolved := iff_of_false (by simp [h.names, hr]) herror
      refused := fun e he => by
        rw [h.error] at he
        exact ⟨a.serial, n, old, h.entry, h.spelled, (Option.some.inj he).symm,
          fun i m hm hs => h.first hm hs⟩
      given := fun i m hm hlead => h.getElem?_of_leads hm hlead
      kept := fun i m hm hlead => h.getElem?_of_not_leads hm hlead
      length := length_resolve t
      allOrNothing := by
        have hphase : ∃ cause, t.resolve.error = some (.ofDefect cause) ∧ cause.category = .phase :=
          ⟨_, h.error, rfl⟩
        rw [AllOrNothing, or_iff_right fun hc => herror hc.1, and_iff_right hphase,
          or_iff_right hnot]
        exact h.spellings_eq_iff }

theorem resolves_of_not_resolved {t : Names String} (hr : t.resolved = false) :
    Resolves t t.resolve := by
  by_cases hf : ∀ n ∈ t.entries, n.spelling = none
  · exact resolves_of_unspelled hr hf
  · push Not at hf
    obtain ⟨n, hn, hs⟩ := hf
    obtain ⟨i, hi⟩ := List.mem_iff_getElem?.mp hn
    obtain ⟨before, a, after, k, old, hstop⟩ := exists_stop t hr hi hs
    exact hstop.resolves hr

/-! ### Tables with spellings of their own -/

/-- What is done to a table before its resolution: a registration, or the spelling of a single one
of them. -/
inductive Edit where
  | add (identifier : String) (usage : Usage)
  | spell (serial : Nat) (spelling : Option String)

/-- The table after an edit, which may be refused. -/
def edited (t : Names String) : Edit → Names String
  | .add identifier usage => t.added (identifier, usage)
  | .spell serial spelling =>
    match t.resolveAt serial spelling with
    | .ok t' => t'
    | .error _ => t

/-- The table that some edits build. -/
def ofEdits (edits : List Edit) : Names String :=
  edits.foldl edited {}

theorem resolved_edited {t : Names String} (h : t.resolved = false) (edit : Edit) :
    (t.edited edit).resolved = false := by
  cases edit with
  | add x usage =>
    rw [edited, added_eq h]
    split <;> exact h
  | spell serial spelling =>
    rw [edited, resolveAt]
    cases t.entries[serial]? with
    | none => exact h
    | some n =>
      dsimp only
      cases n.resolve (spelling.getD n.identifier) with
      | error e => exact h
      | ok n' => exact h

theorem resolved_ofEdits (edits : List Edit) : (ofEdits edits).resolved = false := by
  induction edits using List.reverseRecOn with
  | nil => rfl
  | append_singleton edits edit ih =>
    rw [ofEdits, List.foldl_concat]
    exact resolved_edited ih edit

/-- Whatever registrations and spellings of single registrations come before a resolution, it gives
out the spellings up to the first registration that has one. -/
theorem resolves_up_to_spelled (edits : List Edit) :
    Resolves (ofEdits edits) (ofEdits edits).resolve :=
  resolves_of_not_resolved (resolved_ofEdits edits)

/-- Two imports, the second of which is spelled on its own. -/
def early : List Edit :=
  [.add "A" .imported, .add "B" .imported, .spell 1 (some "C")]

/-- The resolution fails at the second import, and the first one has a spelling from then on. -/
theorem early_not_allOrNothing :
    let t := ofEdits early
    t.resolve.error = some (.ofDefect (.alreadyResolved (.text "B") (.text "C"))) ∧
      t.entries.map (·.spelling) = [none, some "C"] ∧
      t.resolve.names.entries.map (·.spelling) = [some "A", some "C"] ∧
      ¬AllOrNothing t t.resolve := by
  intro t
  have herror : t.resolve.error =
      some (.ofDefect (.alreadyResolved (.text "B") (.text "C"))) := rfl
  have hbefore : t.entries.map (·.spelling) = [none, some "C"] := by decide
  have hafter : t.resolve.names.entries.map (·.spelling) = [some "A", some "C"] := by decide
  refine ⟨herror, hbefore, hafter, ?_⟩
  rintro (⟨hnone, -⟩ | ⟨-, hsame⟩)
  · rw [herror] at hnone
    cases hnone
  · rw [hbefore, hafter] at hsame
    cases hsame

end ApiTypes.Names
