import ApiTypes.Proofs.Module.Registered

/-! The settled module. Once the names of a module are resolved, every symbol has a
spelling that depends on the declared identifiers and the imports alone: a declared
identifier is spelled as it is, and an import by the number of declarations and of
earlier imports of its identifier. Readings of bindings agree with it, and so does the block
of statements. -/

namespace ApiTypes

open Op Names Traversal

namespace Imports

/-- How many imports of the same identifier are registered before an import. -/
def rank (t : Imports String) (urn : String) (i : Import String) : Nat :=
  (t.queue.take (t.place urn i.member)).countP fun e => e.2.identifier = i.identifier

/-- An import stands behind another of its identifier exactly if the queue has one before
it. -/
theorem Keyed.rank_pos_iff {t : Imports String} (h : t.Keyed) {urn : String} {i : Import String}
    (hi : t.find? urn i.member = some i) :
    0 < t.rank urn i ↔ ∃ e ∈ t.queue, Before e (urn, i) ∧ e.2.identifier = i.identifier := by
  have hplace := h.queue_place hi
  obtain ⟨hlt, he⟩ := List.getElem?_eq_some_iff.mp hplace
  have hsplit : t.queue.take (t.place urn i.member) ++
      (urn, i) :: t.queue.drop (t.place urn i.member + 1) = t.queue := by
    rw [← he, List.getElem_cons_drop, List.take_append_drop]
  have hbefore : ∀ e, e ∈ t.queue.take (t.place urn i.member) ↔ e ∈ t.queue ∧ Before e (urn, i) := by
    intro e
    have hp := h.pairwise_queue
    rw [← hsplit, List.pairwise_append, List.pairwise_cons] at hp
    obtain ⟨-, ⟨hafter, -⟩, hcross⟩ := hp
    constructor
    · intro hm
      exact ⟨List.mem_of_mem_take hm, hcross e hm _ List.mem_cons_self⟩
    · rintro ⟨hm, hb⟩
      rw [← hsplit, List.mem_append, List.mem_cons] at hm
      rcases hm with hm | rfl | hm
      · exact hm
      · exact absurd hb (before_irrefl _)
      · exact absurd hb (before_asymm (hafter e hm))
  simp only [rank, List.countP_pos_iff, hbefore, decide_eq_true_eq, and_assoc]

/-- The spelling of an import beside some declarations. -/
def spelling (declared : List String) (t : Imports String) (urn : String) (i : Import String) :
    String :=
  Name.numbered i.identifier (declared.count i.identifier + t.rank urn i)

theorem spelling_named (declared : List String) (t : Imports String) (first : Nat) (urn : String)
    (i : Import String) :
    t.spelling declared urn (named t.queue first urn i) = t.spelling declared urn i := by
  rw [named]
  split <;> rfl

/-- The statements that import a table beside some declarations. -/
def statementsIn (ctx : Context String) (declared : List String) (t : Imports String) :
    List Statement :=
  t.modules.map fun m => m.statementOf (m.source.pathText ctx) (t.spelling declared m.urn)

end Imports

namespace Module

/-- The spelling of a symbol in a module, by its declarations and its imports. -/
def spellIn (declared : List String) (t : Imports String) : Symbol String → Except Error String
  | .declared x =>
    if x ∈ declared then .ok x else .error (.ofDefect (.undeclaredName (.text x)))
  | .imported source member =>
    match t.find? source.identity member with
    | some i => .ok (t.spelling declared source.identity i)
    | none => .error (.ofDefect (.unresolvedImport (.text member)))

/-- All registrations of a module: its declarations, then the queue of its imports. -/
def registrations (declared : List String) (t : Imports String) : List (Name String) :=
  declared.map (fun identifier => { identifier, usage := .declaration }) ++ t.queue.map importName

/-- A module whose names are resolved, with different declarations. -/
structure Settled (declared : List String) (t : Imports String) (m : Module String) : Prop where
  nodup : declared.Nodup
  keyed : t.Keyed
  names : m.names = ofSettled (registrations declared t)
  imports : m.imports = { t.assign declared.length t.queue with applied := true }

section

variable (declared : List String) (t : Imports String)

theorem declaredIn_registrations : declaredIn (registrations declared t) = declared := by
  have hd : (declared.map fun identifier =>
      ({ identifier, usage := .declaration } : Name String)).filterMap
        (fun n => if n.usage = .declaration then some n.identifier else none) = declared := by
    rw [List.filterMap_map]
    exact List.filterMap_some
  have hi : (t.queue.map importName).filterMap
      (fun n => if n.usage = .declaration then some n.identifier else none) = [] := by
    simp [importName]
  rw [declaredIn, registrations, List.filterMap_append, hd, hi, List.append_nil]

theorem countOf_declarations (x : String) (usage : Usage) (ds : List String) :
    countOf x usage (ds.map fun identifier => { identifier, usage := .declaration }) =
      if usage = .declaration then ds.count x else 0 := by
  rw [countOf, List.countP_map]
  cases usage with
  | imported => simp
  | declaration =>
    rw [if_pos rfl, List.count]
    refine List.countP_congr fun y _ => ?_
    simp

theorem countOf_imports (x : String) (usage : Usage) (q : List (String × Import String)) :
    countOf x usage (q.map importName) =
      if usage = .imported then q.countP fun e => e.2.identifier = x else 0 := by
  rw [countOf, List.countP_map]
  cases usage with
  | imported =>
    rw [if_pos rfl]
    refine List.countP_congr fun e _ => ?_
    rw [Function.comp_apply, decide_eq_true_iff, decide_eq_true_iff]
    exact and_iff_left rfl
  | declaration => simp [importName]

theorem countOf_append (x : String) (usage : Usage) (es es' : List (Name String)) :
    countOf x usage (es ++ es') = countOf x usage es + countOf x usage es' :=
  List.countP_append ..

theorem getElem?_registrations_declared {j : Nat} {x : String} (h : declared[j]? = some x) :
    (registrations declared t)[j]? = some { identifier := x, usage := .declaration } := by
  have hlt := (List.getElem?_eq_some_iff.mp h).1
  rw [registrations, List.getElem?_append_left (by rwa [List.length_map]), List.getElem?_map, h]
  rfl

theorem getElem?_registrations_import {j : Nat} {e : String × Import String}
    (h : t.queue[j]? = some e) :
    (registrations declared t)[declared.length + j]? = some (importName e) := by
  rw [registrations, List.getElem?_append_right (by rw [List.length_map]; omega), List.length_map,
    Nat.add_sub_cancel_left, List.getElem?_map, h]
  rfl

/-- Declarations that are all different stand at the first position. -/
theorem position_declared (hn : declared.Nodup) {j : Nat} {x : String} (h : declared[j]? = some x) :
    position (registrations declared t) j { identifier := x, usage := .declaration } = 0 := by
  obtain ⟨hlt, he⟩ := List.getElem?_eq_some_iff.mp h
  have hnot : x ∉ declared.take j := by
    intro hmem
    rw [← List.take_append_drop j declared, List.nodup_append] at hn
    refine hn.2.2 x hmem x ?_ rfl
    rw [← he]
    exact List.mem_drop_iff_getElem.mpr ⟨0, by omega, by simp⟩
  have htake : (registrations declared t).take j =
      (declared.take j).map fun identifier => { identifier, usage := .declaration } := by
    rw [registrations, List.take_append_of_le_length (by rw [List.length_map]; omega),
      List.map_take]
  simp only [position]
  rw [htake, countOf_declarations, if_pos rfl, List.count_eq_zero_of_not_mem hnot]

theorem position_import (j : Nat) (e : String × Import String) :
    position (registrations declared t) (declared.length + j) (importName e) =
      declared.count e.2.identifier +
        (t.queue.take j).countP fun e' => e'.2.identifier = e.2.identifier := by
  have htake : (registrations declared t).take (declared.length + j) =
      declared.map (fun identifier => { identifier, usage := .declaration }) ++
        (t.queue.take j).map importName := by
    rw [registrations, List.take_append, List.length_map, Nat.add_sub_cancel_left, List.map_take,
      List.take_of_length_le (by rw [List.length_map]; omega)]
  simp only [position, importName]
  rw [htake, registrations, countOf_append, countOf_append, countOf_declarations,
    countOf_declarations, countOf_imports, countOf_imports]
  simp

/-- Behind declarations, an import is spelled by how many of them have its identifier. -/
theorem spellingBehind_declarations :
    t.spellingBehind (declared.map fun identifier => { identifier, usage := .declaration }) =
      t.spelling declared := by
  funext urn i
  have hposition := position_import declared t (t.place urn i.member) (urn, i)
  rw [registrations] at hposition
  rw [Imports.spellingBehind, List.length_map, hposition]
  rfl

end

variable {declared : List String} {t : Imports String} {m : Module String}

/-- A settled module is registered, with its declarations first. -/
theorem Settled.registered (h : m.Settled declared t) :
    m.Registered (declared.map fun identifier => { identifier, usage := .declaration }) t where
  keyed := h.keyed
  names := h.names
  imports := by
    rw [List.length_map]
    exact h.imports

/-! ### Readings -/

theorem Settled.token_declared (h : m.Settled declared t) {j : Nat} {x : String}
    (hj : declared[j]? = some x) : m.names.token j = .ok x := by
  rw [h.names, token_ofSettled _ (getElem?_registrations_declared declared t hj),
    position_declared declared t h.nodup hj]
  rfl

theorem Settled.read_lookup (h : m.Settled declared t) (x : String) :
    m.read (.lookup x) = spellIn declared t (.declared x) := by
  rw [read, h.names, spellIn]
  by_cases hx : x ∈ declared
  · rw [← declaredIn_registrations declared t] at hx
    obtain ⟨n, s, hd, ht⟩ := declared_ofSettled _ hx
    rw [declaredIn_registrations] at hx
    rw [hd, ok_bind, if_pos hx]
    exact ht
  · rw [if_neg hx, declared_ofSettled_of_notMem _ (by rwa [declaredIn_registrations])]
    rfl

/-- The reading of an import of a settled module. -/
theorem Settled.read_member (h : m.Settled declared t) (urn member : String) :
    m.read (.member urn member) =
      match t.find? urn member with
      | some i => .ok (t.spelling declared urn i)
      | none => .error (.ofDefect (.unresolvedImport (.text member))) := by
  have hread := h.registered.read_member urn member
  rw [spellingBehind_declarations] at hread
  exact hread

theorem Settled.spell_eq (h : m.Settled declared t) : m.spell = spellIn declared t := by
  funext symbol
  cases symbol with
  | declared x => exact h.read_lookup x
  | imported source member =>
    rw [spell, Source.urn_eq, ok_bind]
    exact h.read_member source.identity member

/-! ### The import block -/

theorem Settled.modules_eq (h : m.Settled declared t) :
    m.imports.modules = t.modules.map fun i =>
      { i with imports := i.imports.map (Imports.named t.queue declared.length i.urn) } := by
  have hmodules := h.registered.modules_eq
  rwa [List.length_map] at hmodules

theorem Settled.token_of_mem (h : m.Settled declared t) {k : ImportedModule String}
    (hk : k ∈ m.imports.modules) {i : Import String} (hi : i ∈ k.imports) :
    i.token m.names = .ok (t.spelling declared k.urn i) := by
  rw [h.registered.token_of_mem hk hi, spellingBehind_declarations]

theorem Settled.exec_importBlock (h : m.Settled declared t) (ctx : Context String) :
    ∃ log, exec (importBlock ctx) m =
      (.ok (Statement.block (t.statementsIn ctx declared)), { m with log }) := by
  have hblock := h.registered.exec_importBlock ctx
  rwa [spellingBehind_declarations] at hblock

end Module

end ApiTypes
