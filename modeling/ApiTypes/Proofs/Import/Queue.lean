import ApiTypes.Proofs.Import.Uses

/-! The order in which imports are registered: by the identity of the source, then by
member. The queue of a keyed table is strictly increasing and lists exactly the
imports that the table holds, so tables that answer alike have one queue however
their uses came in. Registering a queue in turn names every import by its place
in it. -/

namespace ApiTypes

theorem Label.not_less_string (a b : String) : (!Label.less b a) = true ↔ a ≤ b := by
  show (!decide (b < a)) = true ↔ a ≤ b
  rw [Bool.not_eq_true', decide_eq_false_iff_not, String.not_lt]

theorem Label.unordered?_text (ss : List String) :
    Label.unordered? (ss.map Document.text) = none := by
  induction ss with
  | nil => rfl
  | cons s rest ih =>
    cases rest with
    | nil => rfl
    | cons r rest => exact ih

namespace ImportedModule

/-- The imports of a module by member. -/
def ranked (m : ImportedModule String) : List (Import String) :=
  m.imports.mergeSort fun i j => !Label.less j.member i.member

theorem sorted_eq (m : ImportedModule String) : m.sorted = .ok m.ranked := by
  have hu : Label.unordered? (m.imports.map fun i => Label.document i.member) = none := by
    have h := Label.unordered?_text (m.imports.map (·.member))
    rwa [List.map_map] at h
  have hn : (m.imports.any fun i => Label.isNan i.member) = false := by simp
  rw [sorted, Label.sortBy, hu]
  simp only [hn, Bool.false_eq_true, if_false, ranked]

theorem ranked_perm (m : ImportedModule String) : m.ranked.Perm m.imports :=
  List.mergeSort_perm ..

theorem pairwise_ranked (m : ImportedModule String) :
    m.ranked.Pairwise fun i j => i.member ≤ j.member := by
  have htrans : ∀ a b c : Import String, (!Label.less b.member a.member) →
      (!Label.less c.member b.member) → !Label.less c.member a.member := by
    intro a b c hab hbc
    rw [Label.not_less_string] at hab hbc ⊢
    exact String.le_trans hab hbc
  have htotal : ∀ a b : Import String,
      (!Label.less b.member a.member) || !Label.less a.member b.member := by
    intro a b
    rw [Bool.or_eq_true, Label.not_less_string, Label.not_less_string]
    exact String.le_total _ _
  have h := List.pairwise_mergeSort htrans htotal m.imports
  exact h.imp fun {a b} hab => (Label.not_less_string _ _).mp hab

end ImportedModule

namespace Imports

/-- All imports with the identities of their sources, in the order of registration. -/
def queue (t : Imports String) : List (String × Import String) :=
  t.ordered.flatMap fun m => m.ranked.map fun i => (m.urn, i)

/-- What a listed import is known by. -/
def key (e : String × Import String) : String × String :=
  (e.1, e.2.member)

/-- The order of the queue. -/
def Before (a b : String × Import String) : Prop :=
  a.1 < b.1 ∨ a.1 = b.1 ∧ a.2.member < b.2.member

theorem lt_of_le_of_ne {a b : String} (h : a ≤ b) (hne : a ≠ b) : a < b := by
  rw [← String.not_le]
  exact fun h' => hne (String.le_antisymm h h')

theorem before_irrefl (a : String × Import String) : ¬Before a a := by
  rintro (h | ⟨-, h⟩) <;> exact String.lt_irrefl _ h

theorem before_asymm {a b : String × Import String} (hab : Before a b) : ¬Before b a := by
  intro hba
  rcases hab with h | ⟨he, h⟩
  · rcases hba with h' | ⟨he', -⟩
    · exact String.lt_asymm h h'
    · exact String.ne_of_lt h he'.symm
  · rcases hba with h' | ⟨-, h'⟩
    · exact String.ne_of_lt h' he.symm
    · exact String.lt_asymm h h'

theorem mem_queue_iff_listed (t : Imports String) (e : String × Import String) :
    e ∈ t.queue ↔ ∃ m ∈ t.modules, m.urn = e.1 ∧ e.2 ∈ m.imports := by
  rw [queue, List.mem_flatMap]
  constructor
  · rintro ⟨m, hm, he⟩
    obtain ⟨i, hi, rfl⟩ := List.mem_map.mp he
    exact ⟨m, List.mem_mergeSort.mp hm, rfl, m.ranked_perm.mem_iff.mp hi⟩
  · rintro ⟨m, hm, hu, hi⟩
    exact ⟨m, List.mem_mergeSort.mpr hm,
      List.mem_map.mpr ⟨e.2, m.ranked_perm.mem_iff.mpr hi, by rw [hu]⟩⟩

theorem Keyed.mem_queue {t : Imports String} (h : t.Keyed) (urn : String) (i : Import String) :
    (urn, i) ∈ t.queue ↔ t.find? urn i.member = some i := by
  rw [h.find?_eq_some_iff, mem_queue_iff_listed]

/-- An increasing list without repeated keys is strictly increasing. -/
theorem pairwise_lt_of_nodup {α : Type} (key : α → String) {l : List α}
    (hs : l.Pairwise fun a b => key a ≤ key b) (hn : (l.map key).Nodup) :
    l.Pairwise fun a b => key a < key b := by
  have hne : l.Pairwise fun a b => key a ≠ key b := List.pairwise_map.mp hn
  exact (hs.and hne).imp fun h => lt_of_le_of_ne h.1 h.2

theorem Keyed.pairwise_ordered {t : Imports String} (h : t.Keyed) :
    t.ordered.Pairwise fun m n => m.urn < n.urn := by
  have hp : t.ordered.Perm t.modules := List.mergeSort_perm ..
  have htrans : ∀ a b c : ImportedModule String, decide (a.urn ≤ b.urn) →
      decide (b.urn ≤ c.urn) → decide (a.urn ≤ c.urn) := by
    intro a b c
    simpa using String.le_trans
  have htotal : ∀ a b : ImportedModule String,
      decide (a.urn ≤ b.urn) || decide (b.urn ≤ a.urn) := by
    intro a b
    simpa using String.le_total _ _
  have hs := List.pairwise_mergeSort htrans htotal t.modules
  exact pairwise_lt_of_nodup (fun m : ImportedModule String => m.urn)
    (hs.imp fun hle => by simpa using hle) ((hp.map _).nodup_iff.mpr h.urns)

theorem Keyed.pairwise_ranked {t : Imports String} (h : t.Keyed) {m : ImportedModule String}
    (hm : m ∈ t.modules) :
    m.ranked.Pairwise fun i j => i.member < j.member :=
  pairwise_lt_of_nodup (fun i : Import String => i.member) m.pairwise_ranked
    ((m.ranked_perm.map _).nodup_iff.mpr (h.members m hm))

/-- The queue of a keyed table is strictly increasing. -/
theorem Keyed.pairwise_queue {t : Imports String} (h : t.Keyed) : t.queue.Pairwise Before := by
  rw [queue, List.pairwise_flatMap]
  constructor
  · intro m hm
    have hlt := h.pairwise_ranked (List.mem_mergeSort.mp hm)
    exact List.pairwise_map.mpr (hlt.imp fun hij => .inr ⟨rfl, hij⟩)
  · refine h.pairwise_ordered.imp fun {m n} hmn => ?_
    intro a ha b hb
    obtain ⟨i, -, rfl⟩ := List.mem_map.mp ha
    obtain ⟨j, -, rfl⟩ := List.mem_map.mp hb
    exact .inl hmn

theorem Keyed.nodup_queue {t : Imports String} (h : t.Keyed) : t.queue.Nodup := by
  refine List.Pairwise.imp ?_ h.pairwise_queue
  rintro a b hab rfl
  exact before_irrefl a hab

theorem Keyed.nodup_keys {t : Imports String} (h : t.Keyed) : (t.queue.map key).Nodup := by
  rw [List.Nodup, List.pairwise_map]
  refine h.pairwise_queue.imp fun {a b} hab he => ?_
  obtain ⟨h1, h2⟩ := Prod.mk.inj he
  rcases hab with hlt | ⟨-, hlt⟩
  · exact String.ne_of_lt hlt h1
  · exact String.ne_of_lt hlt h2

/-- The queue of some uses lists every pair that one of them is about. -/
theorem mem_keys_recordAll (us : List Use) (k : String × String) :
    k ∈ (recordAll {} us).queue.map key ↔ ∃ u ∈ us, (u.source.identity, u.member) = k := by
  have hk := keyed_recordAll us
  constructor
  · intro hm
    obtain ⟨⟨urn, i⟩, he, rfl⟩ := List.mem_map.mp hm
    have hf := (hk.mem_queue urn i).mp he
    rw [find?_recordAll, merged] at hf
    split at hf
    next => cases hf
    next hne =>
      obtain ⟨u, hu⟩ := List.exists_mem_of_ne_nil _ (by simpa using hne)
      have hp := (List.mem_filter.mp hu).2
      simp only [decide_eq_true_eq] at hp
      exact ⟨u, (List.mem_filter.mp hu).1, Prod.ext hp.1 hp.2⟩
  · rintro ⟨u, hu, rfl⟩
    obtain ⟨i, hi⟩ := exists_find?_of_mem hu
    have hm := member_of_find? hi
    exact List.mem_map.mpr ⟨(u.source.identity, i), (hk.mem_queue _ i).mpr (hm ▸ hi),
      Prod.ext rfl hm⟩

/-- Uses without local names register the members themselves. -/
theorem identifier_of_mem_queue {us : List Use} (h : ∀ u ∈ us, u.localName = none)
    {e : String × Import String} (he : e ∈ (recordAll {} us).queue) :
    e.2.identifier = e.2.member := by
  have hf := ((keyed_recordAll us).mem_queue e.1 e.2).mp he
  rw [find?_recordAll, merged] at hf
  split at hf
  next => cases hf
  next =>
    have hl : (usesOf us e.1 e.2.member).findSome? (fun u => Label.present? u.localName) = none := by
      rw [List.findSome?_eq_none_iff]
      intro u hu
      rw [h u (List.mem_of_mem_filter hu)]
      rfl
    rw [hl] at hf
    rw [Import.identifier, ← Option.some.inj hf]
    rfl

/-- Tables that hold the same imports register them in the same order. -/
theorem queue_congr {t t' : Imports String} (h : t.Keyed) (h' : t'.Keyed)
    (heq : ∀ urn member, t.find? urn member = t'.find? urn member) : t.queue = t'.queue := by
  refine List.Perm.eq_of_pairwise ?_ h.pairwise_queue h'.pairwise_queue ?_
  · intro a b _ _ hab hba
    exact absurd hba (before_asymm hab)
  · rw [List.perm_ext_iff_of_nodup h.nodup_queue h'.nodup_queue]
    rintro ⟨urn, i⟩
    rw [h.mem_queue, h'.mem_queue, heq]

/-! ### Naming the imports -/

/-- Changes every import of a table in its place. -/
def mapImports (f : String → Import String → Import String) (t : Imports String) :
    Imports String :=
  { t with modules := t.modules.map fun m => { m with imports := m.imports.map (f m.urn) } }

/-- Gives the imports of a queue their serial numbers, counted from a first one. -/
def assign (t : Imports String) (first : Nat) : List (String × Import String) → Imports String
  | [] => t
  | e :: rest => assign (t.setName e.1 e.2.member first) (first + 1) rest

/-- The import with the serial number of its place in a queue. -/
def named (q : List (String × Import String)) (first : Nat) (urn : String) (i : Import String) :
    Import String :=
  if key (urn, i) ∈ q.map key then { i with name := some (first + (q.map key).idxOf (key (urn, i))) }
  else i

theorem mapImports_mapImports (f g : String → Import String → Import String) (t : Imports String) :
    (t.mapImports f).mapImports g = t.mapImports fun urn i => g urn (f urn i) := by
  simp [mapImports, Function.comp_def]

theorem setName_eq (t : Imports String) (e : String × Import String) (serial : Nat) :
    t.setName e.1 e.2.member serial = t.mapImports fun urn i =>
      if key (urn, i) = key e then { i with name := some serial } else i := by
  rw [setName, mapImports]
  congr 2
  funext m
  by_cases hu : m.urn = e.1
  · simp [hu, key]
  · simp [hu, key]

theorem assign_eq (t : Imports String) (first : Nat) (q : List (String × Import String))
    (hq : (q.map key).Nodup) : t.assign first q = t.mapImports (named q first) := by
  induction q generalizing t first with
  | nil =>
    have hn : named [] first = fun _ i => i := by funext urn i; simp [named]
    simp [assign, mapImports, hn]
  | cons e rest ih =>
    rw [List.map_cons, List.nodup_cons] at hq
    rw [assign, ih _ _ hq.2, setName_eq, mapImports_mapImports]
    congr 1
    funext urn i
    by_cases he : key (urn, i) = key e
    · have hn : key (urn, ({ i with name := some first } : Import String)) ∉ rest.map key := by
        rw [← he] at hq
        exact hq.1
      rw [if_pos he, named, if_neg hn, named, if_pos (by rw [he]; exact List.mem_cons_self),
        List.map_cons, he, List.idxOf_cons_self]
      rfl
    · rw [if_neg he, named, named]
      by_cases hr : key (urn, i) ∈ rest.map key
      · rw [if_pos hr, if_pos (by rw [List.map_cons]; exact List.mem_cons_of_mem _ hr),
          List.map_cons, List.idxOf_cons_ne _ (Ne.symm he)]
        congr 2
        omega
      · rw [if_neg hr, if_neg (by rw [List.map_cons, List.mem_cons]; exact not_or.mpr ⟨he, hr⟩)]

theorem member_named (q : List (String × Import String)) (first : Nat) (urn : String)
    (i : Import String) : (named q first urn i).member = i.member := by
  rw [named]
  split <;> rfl

theorem find?_mapImports (t : Imports String) (f : String → Import String → Import String)
    (hf : ∀ urn i, (f urn i).member = i.member) (urn member : String) :
    (t.mapImports f).find? urn member = (t.find? urn member).map (f urn) := by
  rw [find?_eq, find?_eq, module?, module?, mapImports, List.find?_map]
  have hu : ((fun m : ImportedModule String => decide (m.urn = urn)) ∘
      fun m : ImportedModule String => { m with imports := m.imports.map (f m.urn) }) =
        fun m => decide (m.urn = urn) := rfl
  rw [hu]
  cases hm : t.modules.find? fun m => decide (m.urn = urn) with
  | none => rfl
  | some m =>
    have hmu : m.urn = urn := by simpa using List.find?_some hm
    rw [Option.map_some, Option.bind_some, Option.bind_some, List.find?_map, hmu]
    congr 2
    funext i
    simp [hf]

/-- The place of a member of a source in the queue. -/
def place (t : Imports String) (urn member : String) : Nat :=
  (t.queue.map key).idxOf (urn, member)

theorem Keyed.mem_keys {t : Imports String} (h : t.Keyed) {urn member : String} {i : Import String}
    (hi : t.find? urn member = some i) : (urn, member) ∈ t.queue.map key := by
  obtain rfl := member_of_find? hi
  exact List.mem_map_of_mem ((h.mem_queue urn i).mpr hi)

theorem Keyed.place_eq {t : Imports String} (h : t.Keyed) {j : Nat} {e : String × Import String}
    (hj : t.queue[j]? = some e) : t.place e.1 e.2.member = j := by
  have hk : (t.queue.map key)[j]? = some (key e) := by rw [List.getElem?_map, hj]; rfl
  obtain ⟨hlt, he⟩ := List.getElem?_eq_some_iff.mp hk
  rw [place, ← key, ← he]
  exact h.nodup_keys.idxOf_getElem j hlt

theorem Keyed.queue_place {t : Imports String} (h : t.Keyed) {urn member : String}
    {i : Import String} (hi : t.find? urn member = some i) :
    t.queue[t.place urn member]? = some (urn, i) := by
  obtain rfl := member_of_find? hi
  obtain ⟨j, hj⟩ := List.mem_iff_getElem?.mp ((h.mem_queue urn i).mpr hi)
  have hp := h.place_eq hj
  rw [hp, hj]

theorem Keyed.named_eq {t : Imports String} (h : t.Keyed) (first : Nat) {urn member : String}
    {i : Import String} (hi : t.find? urn member = some i) :
    named t.queue first urn i = { i with name := some (first + t.place urn member) } := by
  have hk := h.mem_keys hi
  obtain rfl := member_of_find? hi
  exact if_pos hk

/-- A registered import is named by its place in the queue. -/
theorem Keyed.find?_assign {t : Imports String} (h : t.Keyed) (first : Nat) (urn member : String) :
    (t.assign first t.queue).find? urn member =
      (t.find? urn member).map fun i =>
        { i with name := some (first + t.place urn member) } := by
  rw [assign_eq _ _ _ h.nodup_keys, find?_mapImports _ _ (member_named _ _)]
  cases hi : t.find? urn member with
  | none => rfl
  | some i => rw [Option.map_some, Option.map_some, h.named_eq first hi]

section

variable {t : Imports String} {urn member : String}

theorem find?_setName (t : Imports String) (e : String × Import String) (serial : Nat)
    (urn member : String) :
    (t.setName e.1 e.2.member serial).find? urn member = (t.find? urn member).map fun i =>
      if key (urn, i) = key e then { i with name := some serial } else i := by
  rw [setName_eq, find?_mapImports]
  intro urn i
  split <;> rfl

theorem isSome_find?_assign (t : Imports String) (first : Nat) (q : List (String × Import String))
    (urn member : String) :
    ((t.assign first q).find? urn member).isSome = (t.find? urn member).isSome := by
  induction q generalizing t first with
  | nil => rfl
  | cons e rest ih => rw [assign, ih, find?_setName, Option.isSome_map]

/-- An import of a table with serial numbers has one of them if the queue lists it, and is as
it was before otherwise. -/
theorem find?_assign_eq_some {first : Nat} {q : List (String × Import String)} {i : Import String}
    (h : (t.assign first q).find? urn member = some i) :
    (∃ serial < first + q.length, i.name = some serial) ∨
      (t.find? urn member = some i ∧ (urn, member) ∉ q.map key) := by
  induction q generalizing t first with
  | nil => exact .inr ⟨h, List.not_mem_nil⟩
  | cons e rest ih =>
    rw [assign] at h
    rcases ih h with ⟨serial, hlt, hname⟩ | ⟨hi, hrest⟩
    · exact .inl ⟨serial, by rw [List.length_cons]; omega, hname⟩
    · rw [find?_setName] at hi
      obtain ⟨i₀, hi₀, rfl⟩ := Option.map_eq_some_iff.mp hi
      by_cases hkey : key (urn, i₀) = key e
      · refine .inl ⟨first, by rw [List.length_cons]; omega, ?_⟩
        rw [if_pos hkey]
      · rw [if_neg hkey]
        refine .inr ⟨hi₀, ?_⟩
        rw [List.map_cons, List.mem_cons, not_or]
        exact ⟨fun he => hkey (he ▸ by rw [key, member_of_find? hi₀]), hrest⟩

theorem mem_queue_of_find? {i : Import String} (h : t.find? urn member = some i) :
    (urn, i) ∈ t.queue := by
  obtain ⟨m, hm, hi⟩ := Option.bind_eq_some_iff.mp h
  rw [mem_queue_iff_listed]
  exact ⟨m, List.mem_of_find?_eq_some hm, by simpa using List.find?_some hm,
    List.mem_of_find?_eq_some hi⟩

/-- With the serial numbers of its queue, every import of a table has one. -/
theorem exists_name_of_assign {first : Nat} {i : Import String}
    (h : (t.assign first t.queue).find? urn member = some i) :
    ∃ serial < first + t.queue.length, i.name = some serial := by
  rcases find?_assign_eq_some h with hname | ⟨hi, hkey⟩
  · exact hname
  · refine absurd (List.mem_map.mpr ⟨(urn, i), mem_queue_of_find? hi, ?_⟩) hkey
    rw [key, member_of_find? hi]

end

end Imports

end ApiTypes
