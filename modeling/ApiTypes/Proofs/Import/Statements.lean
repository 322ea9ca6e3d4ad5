import ApiTypes.Proofs.Import.Block
import ApiTypes.Proofs.Import.Demand
import ApiTypes.Proofs.Import.Merging

/-! What an import block tells about the uses that it is written for. Whatever the imports are
spelled like, it has one statement for each identity that is used, the remote ones before the
local ones and both by their paths, and in each statement one clause for each member that is used
under the identity, as a type if all of these uses are. -/

namespace ApiTypes

open Traversal

/-- The identity of a source tells whether it is local. -/
theorem Source.isLocal_eq (s : Source String) :
    s.isLocal = decide (s.identity.toList.head? = some '/') := by
  cases s with
  | api package path => simp [isLocal, identity, String.intercalate_cons_cons]
  | library package path => simp [isLocal, identity, String.intercalate_cons_cons]
  | sibling path => simp [isLocal, identity]

/-- What a clause says, its kind apart. -/
def Clause.shown (c : Clause) : String :=
  if c.localName = c.member then c.localName else c.member ++ " as " ++ c.localName

namespace Statement

/-- The text of a statement imports types alone, or it marks those clauses that are types. -/
def Worded (s : Statement) : Prop :=
  s.text =
    (if ∀ c ∈ s.clauses, c.typeOnly = true then
      "import type \x7b " ++ ", ".intercalate (s.clauses.map Clause.shown)
    else
      "import \x7b " ++ ", ".intercalate
        (s.clauses.map fun c => if c.typeOnly then "type " ++ c.shown else c.shown)) ++
    " \x7d from " ++ Text.Literal.literal .ascii s.path ++ ";"

theorem worded (s : Statement) : s.Worded := by
  rw [Worded, text]
  by_cases h : ∀ c ∈ s.clauses, c.typeOnly = true
  · have hall : s.clauses.all (·.typeOnly) = true := List.all_eq_true.mpr h
    have htext : Clause.text true = Clause.shown := by
      funext c
      simp [Clause.text, Clause.shown]
    simp only [hall, htext, if_pos h, if_true]
  · have hall : s.clauses.all (·.typeOnly) = false := by
      rw [← Bool.not_eq_true, List.all_eq_true]
      exact h
    have htext : Clause.text false =
        fun c => if c.typeOnly then "type " ++ c.shown else c.shown := by
      funext c
      simp [Clause.text, Clause.shown]
    simp only [hall, htext, if_neg h, Bool.false_eq_true, if_false]

/-- The order of the statements of a group. -/
def Precedes (a b : Statement) : Prop :=
  a.path < b.path ∨ a.path = b.path ∧ a.urn < b.urn

/-- The remote statements in their order. -/
def remotes (ss : List Statement) : List Statement :=
  (ss.filter fun s => !s.isLocal).mergeSort inOrder

/-- The local statements in their order. -/
def siblings (ss : List Statement) : List Statement :=
  (ss.filter fun s => s.isLocal).mergeSort inOrder

/-- Two groups of statements, one a line, with an empty line between them if there are both. -/
def paragraphs (remotes siblings : List Statement) : String :=
  "\n\n".intercalate (([remotes, siblings].filter fun g => !g.isEmpty).map fun g =>
    "\n".intercalate (g.map text))

theorem isEmpty_mergeSort (ss : List Statement) : (ss.mergeSort inOrder).isEmpty = ss.isEmpty :=
  (List.mergeSort_perm ..).isEmpty_eq

theorem block_eq_paragraphs (ss : List Statement) :
    block ss = paragraphs (remotes ss) (siblings ss) := by
  rw [block, paragraphs, List.partition_eq_filter_filter]
  simp only [remotes, siblings, List.filter_cons, isEmpty_mergeSort, List.filter_nil,
    Function.comp_def]
  split <;> split <;> rfl

theorem pairwise_precedes {ss : List Statement} (hn : (ss.map (·.urn)).Nodup) :
    (ss.mergeSort inOrder).Pairwise Precedes := by
  have hperm : (ss.mergeSort inOrder).Perm ss := List.mergeSort_perm ..
  have hne : (ss.mergeSort inOrder).Pairwise fun a b => a.urn ≠ b.urn :=
    List.pairwise_map.mp ((hperm.map _).nodup_iff.mpr hn)
  refine ((pairwise_mergeSort ss).and hne).imp ?_
  rintro a b ⟨hab, hne⟩
  rcases (inOrder_iff a b).mp hab with h | ⟨hpath, hurn⟩
  · exact .inl h
  · exact .inr ⟨hpath, Imports.lt_of_le_of_ne hurn hne⟩

theorem groups_perm (ss : List Statement) : (remotes ss ++ siblings ss).Perm ss := by
  have hsort := (List.mergeSort_perm (ss.filter fun s => !s.isLocal) inOrder).append
    (List.mergeSort_perm (ss.filter fun s => s.isLocal) inOrder)
  refine hsort.trans (List.perm_append_comm.trans ?_)
  exact List.filter_append_perm (fun s : Statement => s.isLocal) ss

end Statement

namespace Imports

open Statement

/-- What statements tell about some uses: remote ones and local ones. -/
structure Tells (ctx : Context String) (us : List Use) (remotes siblings : List Statement) : Prop where
  /-- There is a statement for each identity that is used. -/
  sources : ∀ urn, (∃ s ∈ remotes ++ siblings, s.urn = urn) ↔ ∃ u ∈ us, u.source.identity = urn
  /-- No identity has two statements. -/
  once : ((remotes ++ siblings).map (·.urn)).Nodup
  remote : ∀ s ∈ remotes, ∀ u ∈ us, u.source.identity = s.urn → u.source.isLocal = false
  sibling : ∀ s ∈ siblings, ∀ u ∈ us, u.source.identity = s.urn → u.source.isLocal = true
  /-- A statement shows the path of the source that its identity was first used for. -/
  located : ∀ s ∈ remotes ++ siblings, ∃ u, (us.find? fun u => u.source.identity = s.urn) = some u ∧
    u.source.path ctx = .ok s.path
  remotesOrdered : remotes.Pairwise Precedes
  siblingsOrdered : siblings.Pairwise Precedes
  /-- A statement lists the members that are used, each of them once, by code points. -/
  members : ∀ s ∈ remotes ++ siblings, (s.clauses.map (·.member)).Pairwise (· < ·) ∧
    ∀ member, member ∈ s.clauses.map (·.member) ↔ ∃ u ∈ us, u.pair = (s.urn, member)
  /-- A clause is for a type if all uses of its member are. -/
  types : ∀ s ∈ remotes ++ siblings, ∀ c ∈ s.clauses,
    (c.typeOnly = true ↔ ∀ u ∈ us, u.pair = (s.urn, c.member) → u.typeOnly = true)
  worded : ∀ s ∈ remotes ++ siblings, s.Worded

variable (us : List Use)

theorem mem_urns_recordAll (urn : String) :
    urn ∈ (recordAll {} us).modules.map (·.urn) ↔ ∃ u ∈ us, u.source.identity = urn := by
  have hkeyed := keyed_recordAll us
  constructor
  · intro h
    obtain ⟨m, hm, rfl⟩ := List.mem_map.mp h
    obtain ⟨i, hi⟩ := List.exists_mem_of_ne_nil _ (hkeyed.inhabited m hm)
    have hkey : (m.urn, i.member) ∈ (recordAll {} us).queue.map key :=
      List.mem_map_of_mem ((mem_queue_iff_listed _ (m.urn, i)).mpr ⟨m, hm, rfl, hi⟩)
    obtain ⟨u, hu, hpair⟩ := (mem_keys_recordAll us _).mp hkey
    exact ⟨u, hu, (Prod.mk.inj hpair).1⟩
  · rintro ⟨u, hu, rfl⟩
    obtain ⟨i, hi⟩ := exists_find?_of_mem hu
    obtain ⟨m, hm, hurn, -⟩ :=
      (hkeyed.find?_eq_some_iff u.source.identity i).mp (member_of_find? hi ▸ hi)
    exact List.mem_map.mpr ⟨m, hm, hurn⟩

variable {us}

/-- A module of a table has the source that was first used under its identity. -/
theorem exists_use_of_mem {m : ImportedModule String} (hm : m ∈ (recordAll {} us).modules) :
    ∃ u, (us.find? fun u => u.source.identity = m.urn) = some u ∧ u.source = m.source := by
  have hsource := source_recordAll us m.urn
  rw [(keyed_recordAll us).module? hm, Option.map_some] at hsource
  exact Option.map_eq_some_iff.mp hsource.symm

/-- The imports of a module are those of the pairs that are used, as their uses make them. -/
theorem mem_imports_recordAll {m : ImportedModule String} (hm : m ∈ (recordAll {} us).modules)
    (i : Import String) : i ∈ m.imports ↔ merged i.member (usesOf us m.urn i.member) = some i := by
  rw [(keyed_recordAll us).mem_imports_iff hm, find?_recordAll]

theorem exists_import_iff {m : ImportedModule String} (hm : m ∈ (recordAll {} us).modules)
    (member : String) :
    (∃ i ∈ m.imports, i.member = member) ↔ ∃ u ∈ us, u.pair = (m.urn, member) := by
  have hkeyed := keyed_recordAll us
  constructor
  · rintro ⟨i, hi, rfl⟩
    exact (mem_keys_recordAll us _).mp
      (hkeyed.mem_keys ((hkeyed.mem_imports_iff hm i).mp hi))
  · rintro ⟨u, hu, hpair⟩
    obtain ⟨hurn, rfl⟩ := Prod.mk.inj hpair
    obtain ⟨i, hi⟩ := exists_find?_of_mem hu
    have hmember := member_of_find? hi
    rw [hurn, ← hmember] at hi
    exact ⟨i, (hkeyed.mem_imports_iff hm i).mpr hi, hmember⟩

theorem typeOnly_iff_of_mem {m : ImportedModule String} (hm : m ∈ (recordAll {} us).modules)
    {i : Import String} (hi : i ∈ m.imports) :
    i.typeOnly = true ↔ ∀ u ∈ us, u.pair = (m.urn, i.member) → u.typeOnly = true := by
  have hmade := (mem_imports_recordAll hm i).mp hi
  rw [← all_usesOf_iff]
  rw [merged] at hmade
  split at hmade
  next => cases hmade
  next =>
    have htypeOnly := congrArg Import.typeOnly (Option.some.inj hmade)
    exact Iff.of_eq (congrArg (· = true) htypeOnly.symm)

/-! ### The statements of a table -/

/-- A statement is about a module of the table. -/
theorem exists_module_of_statement {ctx : Context String} {t : Imports String}
    {spelled : String → Import String → String} {s : Statement}
    (hs : s ∈ t.statementsWith ctx spelled) :
    ∃ m ∈ t.modules, s.urn = m.urn ∧ s.path = m.source.pathText ctx ∧
      s.isLocal = m.source.isLocal ∧
      s.clauses = m.ranked.map fun i => i.clauseOf (spelled m.urn i) := by
  obtain ⟨m, hm, rfl⟩ := List.mem_map.mp hs
  exact ⟨m, hm, rfl, rfl, rfl, rfl⟩

/-- A clause shows the spelling of the import that the table holds for its member. -/
theorem exists_find?_of_clause {ctx : Context String} {t : Imports String} (h : t.Keyed)
    {spelled : String → Import String → String} {s : Statement}
    (hs : s ∈ t.statementsWith ctx spelled) {c : Clause} (hc : c ∈ s.clauses) :
    ∃ i, t.find? s.urn c.member = some i ∧ c.localName = spelled s.urn i := by
  obtain ⟨m, hm, hurn, -, -, hclauses⟩ := exists_module_of_statement hs
  rw [hclauses] at hc
  obtain ⟨i, hi, rfl⟩ := List.mem_map.mp hc
  rw [hurn]
  exact ⟨i, (h.mem_imports_iff hm i).mp (m.ranked_perm.mem_iff.mp hi), rfl⟩

section

variable {ctx : Context String} {spelled : String → Import String → String} {s : Statement}

theorem isLocal_of_statement (hs : s ∈ (recordAll {} us).statementsWith ctx spelled) {u : Use}
    (hu : u.source.identity = s.urn) : u.source.isLocal = s.isLocal := by
  obtain ⟨m, hm, hurn, -, hlocal, -⟩ := exists_module_of_statement hs
  rw [hlocal, Source.isLocal_eq, Source.isLocal_eq, hu, hurn, (keyed_recordAll us).identified m hm]

theorem exists_path_of_statement (hs : s ∈ (recordAll {} us).statementsWith ctx spelled) :
    ∃ u, (us.find? fun u => u.source.identity = s.urn) = some u ∧
      u.source.path ctx = .ok s.path := by
  obtain ⟨m, hm, hurn, hpath, -, -⟩ := exists_module_of_statement hs
  obtain ⟨u, hfirst, hsource⟩ := exists_use_of_mem hm
  rw [hurn, hpath]
  exact ⟨u, hfirst, hsource ▸ m.source.path_eq ctx⟩

theorem members_of_statement (hs : s ∈ (recordAll {} us).statementsWith ctx spelled) :
    (s.clauses.map (·.member)).Pairwise (· < ·) ∧
      ∀ member, member ∈ s.clauses.map (·.member) ↔ ∃ u ∈ us, u.pair = (s.urn, member) := by
  obtain ⟨m, hm, hurn, -, -, hclauses⟩ := exists_module_of_statement hs
  have hmembers : s.clauses.map (·.member) = m.ranked.map (·.member) := by
    rw [hclauses, List.map_map]
    rfl
  rw [hmembers, hurn]
  refine ⟨List.pairwise_map.mpr ((keyed_recordAll us).pairwise_ranked hm), fun member => ?_⟩
  rw [← exists_import_iff hm, (m.ranked_perm.map _).mem_iff, List.mem_map]

theorem typeOnly_of_statement (hs : s ∈ (recordAll {} us).statementsWith ctx spelled) {c : Clause}
    (hc : c ∈ s.clauses) :
    c.typeOnly = true ↔ ∀ u ∈ us, u.pair = (s.urn, c.member) → u.typeOnly = true := by
  obtain ⟨m, hm, hurn, -, -, hclauses⟩ := exists_module_of_statement hs
  rw [hclauses] at hc
  obtain ⟨i, hi, rfl⟩ := List.mem_map.mp hc
  rw [hurn]
  exact typeOnly_iff_of_mem hm (m.ranked_perm.mem_iff.mp hi)

end

/-- Whatever its imports are spelled like, the statements of a table tell about its uses. -/
theorem tells_statementsWith (ctx : Context String) (us : List Use)
    (spelled : String → Import String → String) :
    Tells ctx us (remotes ((recordAll {} us).statementsWith ctx spelled))
      (siblings ((recordAll {} us).statementsWith ctx spelled)) := by
  set ss := (recordAll {} us).statementsWith ctx spelled with hss
  have hperm := groups_perm ss
  have hmem : ∀ s ∈ remotes ss ++ siblings ss, s ∈ (recordAll {} us).statementsWith ctx spelled :=
    fun s => hperm.mem_iff.mp
  have hurns : ss.map (·.urn) = (recordAll {} us).modules.map (·.urn) := by
    rw [hss, statementsWith, List.map_map]
    rfl
  have hnodup : (ss.map (·.urn)).Nodup := hurns ▸ (keyed_recordAll us).urns
  exact
    { sources := fun urn => by
        rw [← mem_urns_recordAll, ← hurns, ← (hperm.map _).mem_iff, List.mem_map]
      once := (hperm.map _).nodup_iff.mpr hnodup
      remote := fun s hs u _ hurn => by
        obtain ⟨hs, hlocal⟩ := List.mem_filter.mp (List.mem_mergeSort.mp hs)
        rw [isLocal_of_statement hs hurn]
        simpa using hlocal
      sibling := fun s hs u _ hurn => by
        obtain ⟨hs, hlocal⟩ := List.mem_filter.mp (List.mem_mergeSort.mp hs)
        rw [isLocal_of_statement hs hurn]
        exact hlocal
      located := fun s hs => exists_path_of_statement (hmem s hs)
      remotesOrdered := pairwise_precedes (hnodup.sublist (List.filter_sublist.map _))
      siblingsOrdered := pairwise_precedes (hnodup.sublist (List.filter_sublist.map _))
      members := fun s hs => members_of_statement (hmem s hs)
      types := fun s hs c hc => typeOnly_of_statement (hmem s hs) hc
      worded := fun s _ => s.worded }

end Imports

end ApiTypes
