import ApiTypes.Proofs.Import.Queue
import ApiTypes.Proofs.Traversal

/-! The import block in closed form. Once every import has a spelling the block can
always be written: it is the block of one statement for each source, with one clause
for each of its members. Statements with different identities are written in an order
of their own, so the block does not depend on the order that they are listed in. -/

namespace ApiTypes

open Traversal

/-- What one clause of a statement says. -/
structure Clause where
  member : String
  localName : String
  typeOnly : Bool

namespace Clause

def text (typesOnly : Bool) (c : Clause) : String :=
  let shown := if c.localName = c.member then c.localName else c.member ++ " as " ++ c.localName
  if c.typeOnly && !typesOnly then "type " ++ shown else shown

end Clause

/-- What one import statement says. -/
structure Statement where
  urn : String
  path : String
  isLocal : Bool
  clauses : List Clause

namespace Statement

def text (s : Statement) : String :=
  let typesOnly := s.clauses.all (·.typeOnly)
  let opening := if typesOnly then "import type \x7b " else "import \x7b "
  opening ++ ", ".intercalate (s.clauses.map (Clause.text typesOnly)) ++ " \x7d from " ++
    Text.Literal.literal .ascii s.path ++ ";"

def inOrder (a b : Statement) : Bool :=
  a.path < b.path || (a.path = b.path && a.urn ≤ b.urn)

/-- Some statements in order, one a line. -/
def group (ss : List Statement) : String :=
  "\n".intercalate ((ss.mergeSort inOrder).map text)

/-- Remote statements, a blank line, local statements. -/
def block (ss : List Statement) : String :=
  let (siblings, remotes) := ss.partition (·.isLocal)
  "\n\n".intercalate (([remotes, siblings].filter fun g => !g.isEmpty).map group)

end Statement

/-! ### Paths and warnings over texts -/

namespace Source

variable (ctx : Context String)

theorem exists_path_eq_ok (s : Source String) : ∃ p, s.path ctx = .ok p := by
  cases s with
  | api package inside | library package inside =>
    cases h : ctx.packaging
    all_goals
      simp only [path, version?, Context.versionOf, Label.requireKey_string, remotePath, h]
      exact ⟨_, rfl⟩
  | sibling target => exact ⟨_, rfl⟩

theorem exists_warnings_eq_ok (s : Source String) : ∃ es, s.warnings ctx = .ok es := by
  cases s with
  | api package inside =>
    simp only [warnings, Context.versionOf, Label.requireKey_string, ok_bind, pure_eq_ok]
    split
    next => exact ⟨_, rfl⟩
    next => split <;> exact ⟨_, rfl⟩
  | library _ _ => exact ⟨_, rfl⟩
  | sibling _ => exact ⟨_, rfl⟩

/-- The path of a source, which over texts there always is. -/
def pathText (s : Source String) : String :=
  match s.path ctx with
  | .ok p => p
  | .error _ => ""

theorem path_eq (s : Source String) : s.path ctx = .ok (s.pathText ctx) := by
  obtain ⟨p, hp⟩ := s.exists_path_eq_ok ctx
  rw [pathText, hp]

end Source

/-! ### Statements of a table -/

theorem Label.mapM_requireText (texts : List String) :
    texts.mapM Label.requireText = (.ok texts : Except Error (List String)) := by
  have h := mapM_eq_ok (f := Label.requireText) (g := id) (l := texts) fun s _ => rfl
  rwa [List.map_id] at h

namespace Import

/-- The clause of an import whose spelling is known. -/
def clauseOf (spelled : String) (i : Import String) : Clause :=
  { member := i.member, localName := spelled, typeOnly := i.typeOnly }

theorem clause_eq {names : Names String} {i : Import String} {spelled : String}
    (h : i.token names = .ok spelled) {typesOnly : Bool} (ht : typesOnly = true → i.typeOnly = true) :
    i.clause names typesOnly = .ok ((i.clauseOf spelled).text typesOnly) := by
  have hv : (typesOnly && !i.typeOnly) = false := by
    cases typesOnly
    · rfl
    · rw [ht rfl]; rfl
  rw [clause, hv, h]
  simp only [Bool.false_eq_true, if_false, Label.equal_string, Label.plain_string, Label.ofText,
    Clause.text, clauseOf, decide_eq_true_eq, id_eq]
  rfl

end Import

namespace ImportedModule

/-- The statement of a module, given the spelling of each of its imports. -/
def statementOf (path : String) (spelled : Import String → String) (m : ImportedModule String) :
    Statement :=
  { urn := m.urn, path, isLocal := m.source.isLocal
    clauses := m.ranked.map fun i => i.clauseOf (spelled i) }

theorem statement_eq {names : Names String} {m : ImportedModule String}
    {spelled : Import String → String} (h : ∀ i ∈ m.imports, i.token names = .ok (spelled i))
    (path : String) :
    m.statement names path = .ok (m.statementOf path spelled).text := by
  have hall : ∀ i ∈ m.ranked, m.ranked.all (·.typeOnly) = true → i.typeOnly = true :=
    fun i hi ha => List.all_eq_true.mp ha i hi
  have hc : m.ranked.mapM (Import.clause names (m.ranked.all (·.typeOnly))) =
      .ok (m.ranked.map fun i =>
        (i.clauseOf (spelled i)).text (m.ranked.all (·.typeOnly))) :=
    mapM_eq_ok fun i hi =>
      Import.clause_eq (h i (m.ranked_perm.mem_iff.mp hi)) (hall i hi)
  rw [statement, sorted_eq, ok_bind]
  simp only
  rw [hc, ok_bind, Label.mapM_requireText, ok_bind, Statement.text, statementOf, List.all_map, List.map_map]
  rfl

end ImportedModule

namespace Imports

/-- The statements of all modules with their paths, given a spelling for each import. -/
def statementsOf (spelled : String → Import String → String)
    (located : List (String × ImportedModule String)) : List Statement :=
  located.map fun e => e.2.statementOf e.1 (spelled e.2.urn)

/-- The statements that import a table, given the spelling of each import. -/
def statementsWith (ctx : Context String) (spelled : String → Import String → String)
    (t : Imports String) : List Statement :=
  t.modules.map fun m => m.statementOf (m.source.pathText ctx) (spelled m.urn)

theorem statements_eq {names : Names String} {spelled : String → Import String → String}
    {located : List (String × ImportedModule String)}
    (h : ∀ e ∈ located, ∀ i ∈ e.2.imports, i.token names = .ok (spelled e.2.urn i)) :
    statements names located = .ok (Statement.group (statementsOf spelled located)) := by
  have hl : (located.mergeSort inOrder).mapM (fun (path, m) => m.statement names path) =
      .ok ((located.mergeSort inOrder).map fun e =>
        (e.2.statementOf e.1 (spelled e.2.urn)).text) :=
    mapM_eq_ok fun e he => ImportedModule.statement_eq (h e (List.mem_mergeSort.mp he)) e.1
  have hs : (located.mergeSort inOrder).map (fun e => e.2.statementOf e.1 (spelled e.2.urn)) =
      (statementsOf spelled located).mergeSort Statement.inOrder :=
    List.map_mergeSort fun a _ b _ => rfl
  rw [statements, hl, ok_bind, Statement.group, ← hs, List.map_map]
  rfl

theorem block_eq {names : Names String} {spelled : String → Import String → String}
    {located : List (String × ImportedModule String)}
    (h : ∀ e ∈ located, ∀ i ∈ e.2.imports, i.token names = .ok (spelled e.2.urn i)) :
    block names located = .ok (Statement.block (statementsOf spelled located)) := by
  have hp : ∀ p : Bool → Bool,
      (statementsOf spelled located).filter (fun s => p s.isLocal) =
        statementsOf spelled (located.filter fun e => p e.2.source.isLocal) := by
    intro p
    rw [statementsOf, List.filter_map]
    rfl
  have hg : ∀ groups : List (List (String × ImportedModule String)),
      (∀ g ∈ groups, ∀ e ∈ g, e ∈ located) →
        groups.mapM (statements names) =
          .ok (groups.map fun g => Statement.group (statementsOf spelled g)) :=
    fun groups hs => mapM_eq_ok fun g hm => statements_eq fun e he => h e (hs g hm e he)
  have he : ∀ g : List (String × ImportedModule String),
      (statementsOf spelled g).isEmpty = g.isEmpty := by
    intro g
    cases g <;> rfl
  rw [block, Statement.block, List.partition_eq_filter_filter, List.partition_eq_filter_filter]
  simp only
  rw [hg _ (by
    intro g hm e he
    rcases List.mem_cons.mp (List.mem_of_mem_filter hm) with rfl | hm
    · exact List.mem_of_mem_filter he
    · rw [List.mem_singleton.mp hm] at he
      exact List.mem_of_mem_filter he), ok_bind]
  have hr := hp (! ·)
  have hl := hp id
  simp only [id_eq] at hl
  simp only [Function.comp_def, hr, hl, List.filter_cons, he, List.filter_nil, pure_eq_ok]
  split <;> split <;> rfl

end Imports

namespace Statement

theorem inOrder_iff (a b : Statement) :
    inOrder a b = true ↔ a.path < b.path ∨ a.path = b.path ∧ a.urn ≤ b.urn := by
  simp only [inOrder, Bool.or_eq_true, Bool.and_eq_true, decide_eq_true_eq]

theorem inOrder_trans (a b c : Statement) (hab : inOrder a b = true) (hbc : inOrder b c = true) :
    inOrder a c = true := by
  rw [inOrder_iff] at hab hbc ⊢
  rcases hab with hab | ⟨hab, hu⟩
  · rcases hbc with hbc | ⟨hbc, -⟩
    · exact .inl (String.lt_trans hab hbc)
    · exact .inl (hbc ▸ hab)
  · rcases hbc with hbc | ⟨hbc, hv⟩
    · exact .inl (hab ▸ hbc)
    · exact .inr ⟨hab.trans hbc, String.le_trans hu hv⟩

theorem inOrder_total (a b : Statement) : (inOrder a b || inOrder b a) = true := by
  rw [Bool.or_eq_true, inOrder_iff, inOrder_iff]
  by_cases he : a.path = b.path
  · rcases String.le_total a.urn b.urn with h | h
    · exact .inl (.inr ⟨he, h⟩)
    · exact .inr (.inr ⟨he.symm, h⟩)
  · rcases String.le_total a.path b.path with h | h
    · exact .inl (.inl (Imports.lt_of_le_of_ne h he))
    · exact .inr (.inl (Imports.lt_of_le_of_ne h (Ne.symm he)))

/-- Both orders at once leave one identity. -/
theorem urn_eq_of_inOrder {a b : Statement} (hab : inOrder a b = true) (hba : inOrder b a = true) :
    a.urn = b.urn := by
  rw [inOrder_iff] at hab hba
  rcases hab with hab | ⟨hab, hu⟩
  · rcases hba with hba | ⟨hba, -⟩
    · exact absurd hba (String.lt_asymm hab)
    · exact absurd hba.symm (String.ne_of_lt hab)
  · rcases hba with hba | ⟨-, hv⟩
    · exact absurd hab.symm (String.ne_of_lt hba)
    · exact String.le_antisymm hu hv

theorem pairwise_mergeSort (ss : List Statement) :
    (ss.mergeSort inOrder).Pairwise fun a b => inOrder a b = true :=
  List.pairwise_mergeSort inOrder_trans inOrder_total ss

/-- Statements with different identities are written in one order. -/
theorem group_perm {ss ss' : List Statement} (hp : ss.Perm ss') (hn : (ss.map (·.urn)).Nodup) :
    group ss = group ss' := by
  have hsort : ss.mergeSort inOrder = ss'.mergeSort inOrder := by
    refine List.Perm.eq_of_pairwise ?_ (pairwise_mergeSort ss) (pairwise_mergeSort ss')
      ((List.mergeSort_perm ..).trans (hp.trans (List.mergeSort_perm ..).symm))
    intro a b ha hb hab hba
    have ha' := List.mem_mergeSort.mp ha
    have hb' := hp.mem_iff.mpr (List.mem_mergeSort.mp hb)
    exact List.inj_on_of_nodup_map hn ha' hb' (urn_eq_of_inOrder hab hba)
  rw [group, group, hsort]

theorem block_perm {ss ss' : List Statement} (hp : ss.Perm ss') (hn : (ss.map (·.urn)).Nodup) :
    block ss = block ss' := by
  have hg : ∀ p : Statement → Bool, group (ss.filter p) = group (ss'.filter p) := fun p =>
    group_perm (hp.filter p) (hn.sublist (List.filter_sublist.map _))
  have he : ∀ p : Statement → Bool, (ss.filter p).isEmpty = (ss'.filter p).isEmpty := fun p =>
    (hp.filter p).isEmpty_eq
  rw [block, block, List.partition_eq_filter_filter, List.partition_eq_filter_filter]
  simp only [List.filter_cons, List.filter_nil, he]
  split <;> split <;> simp only [List.map_cons, List.map_nil, hg]

end Statement

end ApiTypes
