import ApiTypes.Proofs.Import.Block
import ApiTypes.Proofs.Module.Registration

/-! The registered module. Its names are resolved, and behind the registrations that came first
stand those of its imports, in the order of the queue. So an import is spelled by its position
behind them, whatever they are. Every binding of it reads so, and the import block is there to be
written, with that spelling in the clause of the import. -/

namespace ApiTypes

open Op Names Traversal

namespace Imports

/-- The spelling of an import whose table is registered behind some names. -/
def spellingBehind (es : List (Name String)) (t : Imports String) (urn : String)
    (i : Import String) : String :=
  Name.numbered i.identifier (position (es ++ t.queue.map Module.importName)
    (es.length + t.place urn i.member) (Module.importName (urn, i)))

theorem spellingBehind_named (es : List (Name String)) (t : Imports String) (first : Nat)
    (urn : String) (i : Import String) :
    t.spellingBehind es urn (named t.queue first urn i) = t.spellingBehind es urn i := by
  rw [named]
  split <;> rfl

end Imports

namespace Module

/-- A module whose names are resolved, with some registrations and then those of a table. -/
structure Registered (es : List (Name String)) (t : Imports String) (m : Module String) : Prop where
  keyed : t.Keyed
  names : m.names = ofSettled (es ++ t.queue.map importName)
  imports : m.imports = { t.assign es.length t.queue with applied := true }

variable {es : List (Name String)} {t : Imports String} {m : Module String}

theorem Registered.token_import (h : m.Registered es t) {urn : String} {i : Import String}
    (hi : t.find? urn i.member = some i) :
    m.names.token (es.length + t.place urn i.member) = .ok (t.spellingBehind es urn i) := by
  have hentry : (es ++ t.queue.map importName)[es.length + t.place urn i.member]? =
      some (importName (urn, i)) := by
    rw [List.getElem?_append_right (Nat.le_add_right _ _), Nat.add_sub_cancel_left,
      List.getElem?_map, h.keyed.queue_place hi]
    rfl
  rw [h.names, token_ofSettled _ hentry]
  rfl

/-- The reading of an import of a registered module. -/
theorem Registered.read_member (h : m.Registered es t) (urn member : String) :
    m.read (.member urn member) =
      match t.find? urn member with
      | some i => .ok (t.spellingBehind es urn i)
      | none => .error (.ofDefect (.unresolvedImport (.text member))) := by
  have hf : m.imports.find? urn member = (t.assign es.length t.queue).find? urn member := by
    rw [h.imports]
    rfl
  rw [read, hf, h.keyed.find?_assign]
  cases hi : t.find? urn member with
  | none => rfl
  | some i =>
    obtain rfl := Imports.member_of_find? hi
    exact h.token_import hi

/-! ### The import block -/

theorem ranked_mapImports (m : ImportedModule String) (f : Import String → Import String)
    (hf : ∀ i, (f i).member = i.member) :
    ({ m with imports := m.imports.map f } : ImportedModule String).ranked = m.ranked.map f := by
  refine (List.map_mergeSort fun a _ b _ => ?_).symm
  rw [hf, hf]

theorem Registered.modules_eq (h : m.Registered es t) :
    m.imports.modules = t.modules.map fun i =>
      { i with imports := i.imports.map (Imports.named t.queue es.length i.urn) } := by
  rw [h.imports, Imports.assign_eq _ _ _ h.keyed.nodup_keys]
  rfl

theorem Registered.token_of_mem (h : m.Registered es t) {k : ImportedModule String}
    (hk : k ∈ m.imports.modules) {i : Import String} (hi : i ∈ k.imports) :
    i.token m.names = .ok (t.spellingBehind es k.urn i) := by
  rw [h.modules_eq] at hk
  obtain ⟨k₀, hk₀, rfl⟩ := List.mem_map.mp hk
  obtain ⟨i₀, hi₀, rfl⟩ := List.mem_map.mp hi
  have hf := (h.keyed.find?_eq_some_iff k₀.urn i₀).mpr ⟨k₀, hk₀, rfl, hi₀⟩
  rw [Imports.spellingBehind_named, h.keyed.named_eq _ hf]
  exact h.token_import hf

theorem Registered.block_eq (h : m.Registered es t) (ctx : Context String) :
    Imports.block m.names (m.imports.modules.map fun i => (i.source.pathText ctx, i)) =
      .ok (Statement.block (t.statementsWith ctx (t.spellingBehind es))) := by
  have htoken : ∀ e ∈ m.imports.modules.map fun i => (i.source.pathText ctx, i),
      ∀ i ∈ e.2.imports, i.token m.names = .ok (t.spellingBehind es e.2.urn i) := by
    intro e he i hi
    obtain ⟨k, hk, rfl⟩ := List.mem_map.mp he
    exact h.token_of_mem hk hi
  rw [Imports.block_eq htoken]
  congr 2
  rw [Imports.statementsOf, Imports.statementsWith, h.modules_eq, List.map_map, List.map_map]
  refine List.map_congr_left fun k hk => ?_
  simp only [Function.comp_apply, ImportedModule.statementOf]
  rw [ranked_mapImports _ _ (Imports.member_named _ _ _), List.map_map]
  congr 1
  refine List.map_congr_left fun i hi => ?_
  have hf := (h.keyed.find?_eq_some_iff k.urn i).mpr ⟨k, hk, rfl, k.ranked_perm.mem_iff.mp hi⟩
  rw [Function.comp_apply, Imports.spellingBehind_named, h.keyed.named_eq _ hf]
  rfl

variable (ctx : Context String)

theorem exec_locate (source : Source String) :
    ∃ log, exec (locate ctx source) m = (.ok (source.pathText ctx), { m with log }) := by
  obtain ⟨events, he⟩ := source.exists_warnings_eq_ok ctx
  rw [locate, exec_bind, exec_liftExcept, he]
  simp only [note]
  rw [exec_bind, exec_modify]
  simp only [exec_liftExcept, Source.path_eq]
  exact ⟨_, rfl⟩

theorem exec_locateAll (is : List (ImportedModule String)) :
    ∃ log, exec (is.mapM fun i => do return (← locate ctx i.source, i)) m =
      (.ok (is.map fun i => (i.source.pathText ctx, i)), { m with log }) := by
  induction is generalizing m with
  | nil => exact ⟨m.log, rfl⟩
  | cons i rest ih =>
    obtain ⟨log, hl⟩ := exec_locate (m := m) ctx i.source
    obtain ⟨log', hr⟩ := ih (m := { m with log })
    rw [List.mapM_cons, exec_bind, exec_bind_of_ok hl]
    simp only [exec_pure]
    rw [exec_bind_of_ok hr]
    exact ⟨log', rfl⟩

/-- A registered module writes its import block. -/
theorem Registered.exec_importBlock (h : m.Registered es t) :
    ∃ log, exec (importBlock ctx) m =
      (.ok (Statement.block (t.statementsWith ctx (t.spellingBehind es))), { m with log }) := by
  obtain ⟨log, hl⟩ := exec_locateAll (m := m) ctx m.imports.modules
  have hlocated : exec (locateImports ctx) m = _ := hl
  rw [importBlock, exec_bind_of_ok hlocated, exec_bind_of_ok (exec_get _), exec_liftExcept]
  exact ⟨log, by rw [h.block_eq ctx]⟩

end Module

end ApiTypes
