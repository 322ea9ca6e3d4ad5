import ApiTypes.Proofs.Import.Queue
import Mathlib.Data.List.Dedup
import Mathlib.Data.List.Induction
import Mathlib.Data.List.Perm.Basic

/-! What uses leave in an import table that is not applied yet. Each use is answered by the identity
of its source. Under that identity and its member the table then holds one import, and later uses of
the pair merge into it. The import is a type import as long as all uses of its pair are, it has
the first local name among them that is not empty, and other pairs have no part in it. -/

namespace ApiTypes

/-- What a use is about: the identity of a source, and a member. -/
def Use.pair (u : Use) : String × String :=
  (u.source.identity, u.member)

namespace Imports

/-! ### What a table lists -/

/-- The imports of a table with the identities of their sources, as they are listed. -/
def listing (t : Imports String) : List (String × Import String) :=
  t.modules.flatMap fun m => m.imports.map fun i => (m.urn, i)

theorem queue_perm_listing (t : Imports String) : t.queue.Perm t.listing := by
  have hmodules : t.ordered.Perm t.modules := List.mergeSort_perm ..
  refine (hmodules.flatMap_right _).trans ?_
  exact List.Perm.flatMap_left _ fun m _ => m.ranked_perm.map _

theorem Keyed.nodup_listing {t : Imports String} (h : t.Keyed) : (t.listing.map key).Nodup :=
  (t.queue_perm_listing.map key).nodup_iff.mp h.nodup_keys

theorem length_listing (t : Imports String) : t.listing.length = t.size := by
  simp [listing, size, List.length_flatMap]

theorem mem_listing_recordAll (us : List Use) (k : String × String) :
    k ∈ (recordAll {} us).listing.map key ↔ k ∈ us.map Use.pair := by
  rw [← ((queue_perm_listing _).map key).mem_iff, mem_keys_recordAll, List.mem_map]
  rfl

/-- A table has one import for each pair that is used. -/
theorem size_recordAll (us : List Use) :
    (recordAll {} us).size = (us.map Use.pair).dedup.length := by
  have hperm : ((recordAll {} us).listing.map key).Perm (us.map Use.pair).dedup := by
    rw [List.perm_ext_iff_of_nodup (keyed_recordAll us).nodup_listing (List.nodup_dedup _)]
    intro k
    rw [mem_listing_recordAll, List.mem_dedup]
  rw [← length_listing, ← hperm.length_eq, List.length_map]

theorem typeOnly_named (q : List (String × Import String)) (first : Nat) (urn : String)
    (i : Import String) : (named q first urn i).typeOnly = i.typeOnly := by
  rw [named]
  split <;> rfl

theorem listing_mapImports (t : Imports String) (f : String → Import String → Import String) :
    (t.mapImports f).listing = t.listing.map fun e => (e.1, f e.1 e.2) := by
  simp [listing, mapImports, List.flatMap_map, List.map_flatMap, Function.comp_def]

/-- The table of some uses lists a pair if one of them is about it, as a type if all are. -/
theorem listed_recordAll_iff (us : List Use) (urn member : String) (typeOnly : Bool) :
    (∃ i, (urn, i) ∈ (recordAll {} us).listing ∧ i.member = member ∧ i.typeOnly = typeOnly) ↔
      usesOf us urn member ≠ [] ∧ (usesOf us urn member).all (·.typeOnly) = typeOnly := by
  have hfind : ∀ i : Import String, (urn, i) ∈ (recordAll {} us).listing ↔
      merged i.member (usesOf us urn i.member) = some i := by
    intro i
    rw [← (queue_perm_listing _).mem_iff, (keyed_recordAll us).mem_queue, find?_recordAll]
  constructor
  · rintro ⟨i, hi, rfl, rfl⟩
    rw [hfind, merged] at hi
    split at hi
    next => cases hi
    next hne =>
      rw [← Option.some.inj hi]
      exact ⟨by simpa using hne, rfl⟩
  · rintro ⟨hne, rfl⟩
    let i : Import String :=
      { member, localName := (usesOf us urn member).findSome? fun u => Label.present? u.localName
        typeOnly := (usesOf us urn member).all (·.typeOnly) }
    refine ⟨i, (hfind i).mpr ?_, rfl, rfl⟩
    rw [merged, if_neg (by simpa using hne)]

/-! ### Tables that uses build -/

/-- The table after a use, whatever it answers. -/
def used (t : Imports String) (u : Use) : Imports String :=
  (t.use u.source u.member u.localName u.typeOnly).1

/-- The table that some uses build. -/
def built (us : List Use) : Imports String :=
  us.foldl used {}

theorem built_concat (us : List Use) (u : Use) : built (us ++ [u]) = (built us).used u :=
  List.foldl_concat ..

theorem built_eq (us : List Use) : built us = recordAll {} us := by
  induction us using List.reverseRecOn with
  | nil => rfl
  | append_singleton us u ih =>
    have happlied : (recordAll {} us).applied = false := applied_recordAll {} us
    rw [built_concat, ih, used, use_eq happlied, recordAll, recordAll, List.foldl_concat]

/-- A use is answered by the identity of its source. -/
theorem use_built (us : List Use) (u : Use) :
    (built us).use u.source u.member u.localName u.typeOnly =
      (built (us ++ [u]), .ok u.source.identity) := by
  have happlied : (built us).applied = false := by
    rw [built_eq]
    exact applied_recordAll {} us
  have hanswer := use_eq happlied u
  rw [built_concat, used, hanswer]

/-- An import after more uses of its pair. -/
def absorbed (i : Import String) (us : List Use) : Import String :=
  us.foldl (fun i u => i.merge u.localName u.typeOnly) i

/-- An import takes in the later uses of its pair, and no others. -/
theorem find?_built_append {us : List Use} {urn member : String} {i : Import String}
    (h : (built us).find? urn member = some i) (later : List Use) :
    (built (us ++ later)).find? urn member = some (absorbed i (usesOf later urn member)) := by
  have hfold : ∀ (vs : List Use) (j : Import String),
      vs.foldl (fun o u => some (absorb u o)) (some j) = some (absorbed j vs) := by
    intro vs
    induction vs with
    | nil => exact fun _ => rfl
    | cons v rest ih => exact fun j => ih (j.merge v.localName v.typeOnly)
  rw [built_eq] at h ⊢
  rw [recordAll, List.foldl_append, ← recordAll, ← recordAll, find?_recordAll_of, h, hfold]

/-- A use is answered with an import of its member, which is there to stay. -/
theorem exists_find?_built (us : List Use) (u : Use) :
    ∃ i, (built (us ++ [u])).find? u.source.identity u.member = some i ∧ i.member = u.member := by
  rw [built_eq]
  obtain ⟨i, hi⟩ := exists_find?_of_mem (List.mem_append_right us (List.mem_singleton_self u))
  exact ⟨i, hi, member_of_find? hi⟩

/-- Only the uses of a pair decide what becomes of it. -/
theorem find?_built_usesOf (us : List Use) (urn member : String) :
    (built us).find? urn member = (built (usesOf us urn member)).find? urn member := by
  rw [built_eq, built_eq, find?_recordAll, find?_recordAll, usesOf, usesOf, List.filter_filter]
  simp only [Bool.and_self]

/-- The first local name among some uses that is not empty. -/
def firstLocalName? (us : List Use) : Option String :=
  (us.filterMap (·.localName)).find? (· ≠ "")

theorem firstLocalName?_eq (us : List Use) :
    firstLocalName? us = us.findSome? fun u => Label.present? u.localName := by
  induction us with
  | nil => rfl
  | cons u rest ih =>
    rw [List.findSome?_cons, ← ih, firstLocalName?, firstLocalName?]
    cases hl : u.localName with
    | none => simp [hl, Label.present?]
    | some name => by_cases hn : name = "" <;> simp [hl, hn, Label.present?, Option.filter_some]

/-- What a table holds after some uses. -/
structure Merges (us : List Use) (t : Imports String) : Prop where
  /-- Every use is answered by the identity of its source, under which there is then an import of
  the member; this one takes in the later uses of the pair. -/
  answered : ∀ before u after, us = before ++ u :: after →
    (built before).use u.source u.member u.localName u.typeOnly =
        (built (before ++ [u]), .ok u.source.identity) ∧
      ∃ i, (built (before ++ [u])).find? u.source.identity u.member = some i ∧
        i.member = u.member ∧
        t.find? u.source.identity u.member =
          some (absorbed i (usesOf after u.source.identity u.member))
  /-- The pairs that are used are listed, and no others are. -/
  listed : ∀ k, k ∈ t.listing.map key ↔ ∃ u ∈ us, u.pair = k
  /-- No pair is listed twice. -/
  once : (t.listing.map key).Nodup
  size : t.size = (us.map Use.pair).dedup.length
  /-- An import is a type import if all uses of its pair are, and its local name is the first that
  one of them gives. -/
  merged : ∀ u ∈ us, ∃ i, t.find? u.source.identity u.member = some i ∧
    (i.typeOnly = true ↔ ∀ v ∈ us, v.pair = u.pair → v.typeOnly = true) ∧
    i.localName = firstLocalName? (us.filter fun v => v.pair = u.pair)
  /-- Uses of other pairs do not matter. -/
  alone : ∀ k : String × String,
    t.find? k.1 k.2 = (built (us.filter fun v => v.pair = k)).find? k.1 k.2

theorem filter_pair (us : List Use) (k : String × String) :
    (us.filter fun v => v.pair = k) = usesOf us k.1 k.2 := by
  rw [usesOf]
  simp only [Use.pair, Prod.ext_iff]

theorem all_usesOf_iff (us : List Use) (urn member : String) :
    (usesOf us urn member).all (·.typeOnly) = true ↔
      ∀ v ∈ us, v.pair = (urn, member) → v.typeOnly = true := by
  rw [← filter_pair us (urn, member), List.all_eq_true]
  simp only [List.mem_filter, decide_eq_true_eq, and_imp]

theorem exists_merged {us : List Use} {u : Use} (h : u ∈ us) :
    ∃ i, (built us).find? u.source.identity u.member = some i ∧
      (i.typeOnly = true ↔ ∀ v ∈ us, v.pair = u.pair → v.typeOnly = true) ∧
      i.localName = firstLocalName? (us.filter fun v => v.pair = u.pair) := by
  obtain ⟨i, hi⟩ := exists_find?_of_mem h
  have hmade := hi
  rw [find?_recordAll, Imports.merged] at hmade
  split at hmade
  next => cases hmade
  next =>
    refine ⟨i, (built_eq us) ▸ hi, ?_, ?_⟩
    all_goals rw [← Option.some.inj hmade]
    · exact all_usesOf_iff us _ _
    · rw [firstLocalName?_eq, filter_pair, Use.pair]

/-- Whatever uses build a table, they merge by their pairs. -/
theorem merges_built (us : List Use) : Merges us (built us) where
  answered := by
    rintro before u after rfl
    obtain ⟨i, hi, hmember⟩ := exists_find?_built before u
    have hlater := find?_built_append hi after
    rw [List.append_assoc] at hlater
    exact ⟨use_built before u, i, hi, hmember, hlater⟩
  listed k := by
    rw [built_eq, mem_listing_recordAll, List.mem_map]
  once := by
    rw [built_eq]
    exact (keyed_recordAll us).nodup_listing
  size := by
    rw [built_eq]
    exact size_recordAll us
  merged _ h := exists_merged h
  alone k := by
    rw [filter_pair]
    exact find?_built_usesOf us k.1 k.2

/-- One member of a package and of a library, where the package is used under no name, under an
empty one and under two others, at first for types alone. -/
example :
    let t := built
      [⟨.api "apps" none, "Pod", none, true⟩, ⟨.library "apps" none, "Pod", none, true⟩,
        ⟨.api "apps" (some ""), "Pod", some "", true⟩, ⟨.api "apps" none, "Pod", some "Job", false⟩,
        ⟨.api "apps" none, "Pod", some "Task", true⟩]
    let shown (i : Import String) := (i.localName, i.typeOnly)
    t.size = 2 ∧ (t.find? "kure:api:apps" "Pod").map shown = some (some "Job", false) ∧
      (t.find? "kure:lib:apps" "Pod").map shown = some (none, true) := by
  decide

end Imports

end ApiTypes
