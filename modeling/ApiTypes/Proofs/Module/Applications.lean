import ApiTypes.Proofs.Import.Merging
import ApiTypes.Proofs.Module.Later
import ApiTypes.Proofs.Name.Additions

/-! Repeated applications of an import table. An application registers every import of the table.
It closes the table to further uses, but not to further applications, which register every import
again and point it to its last registration. So the names of a module are its declarations and, for
each application, all of its imports, and the spelling of an import counts the applications before
the last one: only a table that is applied once keeps one name for each member. -/

namespace ApiTypes

open Op Names

/-! ### Tables with changed imports -/

namespace Imports

variable {t : Imports String} {f : String → Import String → Import String}

theorem queue_mapImports (hf : ∀ urn i, (f urn i).member = i.member) (t : Imports String) :
    (t.mapImports f).queue = t.queue.map fun e => (e.1, f e.1 e.2) := by
  have hordered : (t.mapImports f).ordered =
      t.ordered.map fun m => { m with imports := m.imports.map (f m.urn) } := by
    let change (m : ImportedModule String) : ImportedModule String :=
      { m with imports := m.imports.map (f m.urn) }
    exact (List.map_mergeSort (f := change) fun _ _ _ _ => rfl).symm
  rw [queue, queue, hordered, List.flatMap_map, List.map_flatMap]
  congr 1
  funext m
  rw [Module.ranked_mapImports m (f m.urn) (hf m.urn), List.map_map, List.map_map]
  rfl

theorem Keyed.mapImports (h : t.Keyed) (hf : ∀ urn i, (f urn i).member = i.member) :
    (t.mapImports f).Keyed where
  urns := by
    have hurns : (t.mapImports f).modules.map (·.urn) = t.modules.map (·.urn) := by
      simp [Imports.mapImports, Function.comp_def]
    rw [hurns]
    exact h.urns
  identified m hm := by
    obtain ⟨m₀, hm₀, rfl⟩ := List.mem_map.mp hm
    exact h.identified m₀ hm₀
  inhabited m hm := by
    obtain ⟨m₀, hm₀, rfl⟩ := List.mem_map.mp hm
    simpa using h.inhabited m₀ hm₀
  members m hm := by
    obtain ⟨m₀, hm₀, rfl⟩ := List.mem_map.mp hm
    simpa [hf, Function.comp_def] using h.members m₀ hm₀

/-- The table after an application, whose registrations stand behind some others. -/
def applyBehind (t : Imports String) (first : Nat) : Imports String :=
  { t.assign first t.queue with applied := true }

theorem Keyed.applyBehind_eq (h : t.Keyed) (first : Nat) :
    t.applyBehind first = { t.mapImports (named t.queue first) with applied := true } := by
  rw [applyBehind, assign_eq _ _ _ h.nodup_keys]

theorem Keyed.applyBehind (h : t.Keyed) (first : Nat) : (t.applyBehind first).Keyed := by
  have hnamed := h.mapImports (member_named t.queue first)
  rw [h.applyBehind_eq]
  exact ⟨hnamed.urns, hnamed.identified, hnamed.inhabited, hnamed.members⟩

theorem Keyed.queue_applyBehind (h : t.Keyed) (first : Nat) :
    (t.applyBehind first).queue = t.queue.map fun e => (e.1, named t.queue first e.1 e.2) := by
  rw [h.applyBehind_eq]
  exact queue_mapImports (member_named t.queue first) t

theorem Keyed.keys_applyBehind (h : t.Keyed) (first : Nat) :
    (t.applyBehind first).queue.map key = t.queue.map key := by
  rw [h.queue_applyBehind, List.map_map]
  refine List.map_congr_left fun e _ => ?_
  exact Prod.ext rfl (member_named t.queue first e.1 e.2)

theorem Keyed.place_applyBehind (h : t.Keyed) (first : Nat) (urn member : String) :
    (t.applyBehind first).place urn member = t.place urn member := by
  rw [place, h.keys_applyBehind, place]

theorem Keyed.find?_applyBehind (h : t.Keyed) (first : Nat) (urn member : String) :
    (t.applyBehind first).find? urn member =
      (t.find? urn member).map fun i => { i with name := some (first + t.place urn member) } :=
  h.find?_assign first urn member

/-- The registrations that an application makes. -/
def registrations (t : Imports String) : List (Name String) :=
  t.queue.map Module.importName

theorem Keyed.registrations_applyBehind (h : t.Keyed) (first : Nat) :
    (t.applyBehind first).registrations = t.registrations := by
  rw [registrations, h.queue_applyBehind, List.map_map, registrations]
  refine List.map_congr_left fun e _ => ?_
  rw [Function.comp_apply, named]
  split <;> rfl

end Imports

/-! ### Calls of the tables -/

/-- A call of the tables of a module, from outside of its rendering. -/
inductive TableCall where
  | use (u : Use)
  | apply
  | declare (identifier : String)

namespace TableCall

def run : TableCall → Op (Module String) Unit
  | use u => do let _ ← Module.useImport u.source u.member u.localName u.typeOnly
  | apply => Module.applyImports
  | declare identifier => do let _ ← Module.addName identifier .declaration

def isApply : TableCall → Bool
  | apply => true
  | _ => false

def declared? : TableCall → Option String
  | declare identifier => some identifier
  | _ => none

/-- How often the table is applied. -/
def applications (calls : List TableCall) : Nat :=
  calls.countP isApply

/-- The identifiers that are to be declared. -/
def declarations (calls : List TableCall) : List String :=
  calls.filterMap declared?

/-- The uses that come before the first application. -/
def granted : List TableCall → List Use
  | [] => []
  | use u :: rest => u :: granted rest
  | apply :: _ => []
  | declare _ :: rest => granted rest

theorem granted_concat_use (calls : List TableCall) (u : Use) :
    granted (calls ++ [use u]) =
      if applications calls = 0 then granted calls ++ [u] else granted calls := by
  induction calls with
  | nil => rfl
  | cons c rest ih =>
    cases c with
    | use v =>
      have hcount : applications (use v :: rest) = applications rest := by
        simp [applications, isApply]
      rw [List.cons_append, granted, ih, hcount, granted]
      split <;> rfl
    | apply => rw [List.cons_append, granted, granted, if_neg (by simp [applications, isApply])]
    | declare x => exact ih

theorem granted_concat {calls : List TableCall} {c : TableCall} (h : ∀ u, c ≠ use u) :
    granted (calls ++ [c]) = granted calls := by
  induction calls with
  | nil =>
    cases c with
    | use u => exact absurd rfl (h u)
    | apply | declare => rfl
  | cons c' rest ih =>
    cases c' with
    | use v => exact congrArg (v :: ·) ih
    | apply => rfl
    | declare x => exact ih

/-! ### One call -/

variable {m : Module String}

theorem exec_use_of_applied (h : m.imports.applied = true) (u : Use) :
    (exec (use u).run m).2 = m := by
  rw [run, exec_bind, Module.exec_useImport_of_applied h]

theorem exec_use (h : m.imports.applied = false) (u : Use) :
    (exec (use u).run m).2 = { m with imports := m.imports.record u } := by
  rw [run, exec_bind, Module.exec_useImport h u]
  rfl

/-- An application succeeds until the names are resolved, also if it is not the first one. -/
theorem exec_apply (h : m.names.resolved = false) :
    exec apply.run m = (.ok (),
      { m with
        names := { m.names with entries := m.names.entries ++ m.imports.registrations }
        imports := m.imports.applyBehind m.names.entries.length }) :=
  Module.exec_applyImports h

theorem exec_declare (x : String) :
    (exec (declare x).run m).2 = { m with names := m.names.added (x, .declaration) } := by
  rw [run, exec_bind, Module.exec_addName_eq, Names.added]
  cases m.names.add x .declaration <;> rfl

end TableCall

/-! ### Any number of calls -/

namespace Names

/-- The registrations of imports among others. -/
def importsIn (es : List (Name String)) : List (Name String) :=
  es.filter fun n => n.usage = .imported

/-- Some registrations, made a number of times. -/
def rounds (k : Nat) (es : List (Name String)) : List (Name String) :=
  (List.replicate k es).flatten

theorem importsIn_append (es es' : List (Name String)) :
    importsIn (es ++ es') = importsIn es ++ importsIn es' :=
  List.filter_append ..

theorem rounds_succ (k : Nat) (es : List (Name String)) :
    rounds (k + 1) es = rounds k es ++ es := by
  simp [rounds, List.replicate_succ']

theorem countP_rounds (p : Name String → Bool) (k : Nat) (es : List (Name String)) :
    (rounds k es).countP p = k * es.countP p := by
  induction k with
  | zero => simp [rounds]
  | succ k ih => rw [rounds_succ, List.countP_append, ih, Nat.succ_mul]

theorem length_rounds (k : Nat) (es : List (Name String)) :
    (rounds k es).length = k * es.length := by
  simp [rounds]

theorem countOf_imported (x : String) (es : List (Name String)) :
    countOf x .imported es = (importsIn es).countP fun n => n.identifier = x := by
  rw [countOf, importsIn, List.countP_filter]
  refine List.countP_congr fun n _ => ?_
  simp

theorem length_eq_declaredIn_add_importsIn (es : List (Name String)) :
    es.length = (declaredIn es).length + (importsIn es).length := by
  induction es with
  | nil => rfl
  | cons n rest ih =>
    cases hu : n.usage <;> simp [declaredIn, importsIn, hu] at ih ⊢ <;> omega

end Names

namespace Imports

variable (t : Imports String)

theorem importsIn_registrations_take (place : Nat) :
    importsIn (t.registrations.take place) = t.registrations.take place := by
  rw [importsIn, List.filter_eq_self]
  intro n hn
  obtain ⟨e, -, rfl⟩ := List.mem_map.mp (List.mem_of_mem_take hn)
  rfl

theorem importsIn_registrations : importsIn t.registrations = t.registrations := by
  have h := t.importsIn_registrations_take t.registrations.length
  rwa [List.take_length] at h

theorem declaredIn_registrations_eq_nil : declaredIn t.registrations = [] := by
  simp [declaredIn, registrations, Module.importName]

end Imports

namespace Module

open TableCall

/-- The module after some calls of its tables, each of which may fail. -/
def called (path : String) (calls : List TableCall) : Module String :=
  calls.foldl (fun m c => (exec c.run m).2) { path }

theorem called_concat (path : String) (calls : List TableCall) (c : TableCall) :
    called path (calls ++ [c]) = (exec c.run (called path calls)).2 :=
  List.foldl_concat ..

/-- What some calls leave of a module, with the import table applied a number of times. -/
structure Called (calls : List TableCall) (m : Module String) : Prop where
  names : m.names.Open
  keyed : m.imports.Keyed
  recorded : applications calls = 0 → m.imports = Imports.recordAll {} (granted calls)
  applied : applications calls ≠ 0 → m.imports.applied = true
  keys : ∀ k, k ∈ m.imports.queue.map Imports.key ↔ k ∈ (granted calls).map Use.pair
  declared : ∀ x, x ∈ declaredIn m.names.entries ↔ x ∈ declarations calls
  imported : importsIn m.names.entries = rounds (applications calls) m.imports.registrations
  named : applications calls ≠ 0 → ∀ urn member i, m.imports.find? urn member = some i →
    ∃ serial, i.name = some serial ∧ m.names.entries[serial]? = some (importName (urn, i)) ∧
      importsIn (m.names.entries.take serial) =
        rounds (applications calls - 1) m.imports.registrations ++
          m.imports.registrations.take (m.imports.place urn member)

variable {calls : List TableCall} {m : Module String}

theorem Called.use (h : Called calls m) (u : Use) :
    Called (calls ++ [.use u]) (exec (TableCall.use u).run m).2 := by
  have hcount : applications (calls ++ [.use u]) = applications calls := by
    simp [applications, isApply]
  have hdeclared : declarations (calls ++ [.use u]) = declarations calls := by
    simp [declarations, declared?]
  by_cases hk : applications calls = 0
  · have happlied : m.imports.applied = false := by
      rw [h.recorded hk]
      exact Imports.applied_recordAll {} _
    have hgranted : granted (calls ++ [.use u]) = granted calls ++ [u] := by
      rw [granted_concat_use, if_pos hk]
    have htable : m.imports.record u = Imports.recordAll {} (granted calls ++ [u]) := by
      rw [h.recorded hk, Imports.recordAll, Imports.recordAll, List.foldl_concat]
    rw [exec_use happlied, htable]
    exact
      { names := h.names
        keyed := Imports.keyed_recordAll _
        recorded := fun _ => by rw [hgranted]
        applied := fun hne => absurd (hcount.trans hk) hne
        keys := fun k => by
          rw [hgranted, Imports.mem_keys_recordAll, List.mem_map]
          rfl
        declared := fun x => by rw [hdeclared]; exact h.declared x
        imported := by
          have himported := h.imported
          rw [hk] at himported
          rw [hcount, hk]
          exact himported
        named := fun hne => absurd (hcount.trans hk) hne }
  · have hgranted : granted (calls ++ [.use u]) = granted calls := by
      rw [granted_concat_use, if_neg hk]
    rw [exec_use_of_applied (h.applied hk)]
    exact
      { names := h.names
        keyed := h.keyed
        recorded := fun h0 => absurd (hcount.symm.trans h0) hk
        applied := fun _ => h.applied hk
        keys := fun k => by rw [hgranted]; exact h.keys k
        declared := fun x => by rw [hdeclared]; exact h.declared x
        imported := by rw [hcount]; exact h.imported
        named := fun _ => by rw [hcount]; exact h.named hk }

theorem Called.declare (h : Called calls m) (x : String) :
    Called (calls ++ [.declare x]) (exec (TableCall.declare x).run m).2 := by
  have hcount : applications (calls ++ [.declare x]) = applications calls := by
    simp [applications, isApply]
  have hgranted : granted (calls ++ [.declare x]) = granted calls :=
    granted_concat fun _ => TableCall.noConfusion
  have hdeclarations : declarations (calls ++ [.declare x]) = declarations calls ++ [x] := by
    simp [declarations, declared?]
  -- the declaration stands behind all registrations, unless it is refused
  obtain ⟨more, hadded, hmore, hdeclared⟩ : ∃ more,
      m.names.added (x, .declaration) = { m.names with entries := m.names.entries ++ more } ∧
        importsIn more = [] ∧
        ∀ y, y ∈ declaredIn (m.names.entries ++ more) ↔ y ∈ declaredIn m.names.entries ∨ y = x := by
    rw [added_eq h.names.resolved]
    by_cases hx : x ∈ declaredIn m.names.entries
    · rw [if_pos ⟨rfl, hx⟩]
      refine ⟨[], by simp, rfl, fun y => ?_⟩
      rw [List.append_nil]
      exact ⟨.inl, fun hy => hy.elim id fun he => he ▸ hx⟩
    · rw [if_neg fun hc => hx hc.2]
      refine ⟨_, rfl, rfl, fun y => ?_⟩
      rw [declaredIn_concat]
      simp
  have hnames := h.names.added (x, .declaration)
  rw [exec_declare]
  rw [hadded] at hnames ⊢
  exact
    { names := hnames
      keyed := h.keyed
      recorded := fun h0 => by rw [hgranted]; exact h.recorded (hcount.symm.trans h0)
      applied := fun hne => h.applied (hcount ▸ hne)
      keys := fun k => by rw [hgranted]; exact h.keys k
      declared := fun y => by
        rw [hdeclared, hdeclarations, List.mem_append, List.mem_singleton, h.declared]
      imported := by
        rw [importsIn_append, hmore, List.append_nil, hcount]
        exact h.imported
      named := fun hne urn member i hi => by
        obtain ⟨serial, hname, hentry, hbefore⟩ := h.named (hcount ▸ hne) urn member i hi
        have hlt := (List.getElem?_eq_some_iff.mp hentry).1
        refine ⟨serial, hname, ?_, ?_⟩
        · rw [List.getElem?_append_left hlt, hentry]
        · rw [List.take_append_of_le_length (Nat.le_of_lt hlt), hcount]
          exact hbefore }

/-- One more application registers the queue once more, behind all registrations. -/
theorem Called.apply (h : Called calls m) :
    Called (calls ++ [.apply]) (exec TableCall.apply.run m).2 := by
  have hcount : applications (calls ++ [.apply]) = applications calls + 1 := by
    simp [applications, isApply]
  have hgranted : granted (calls ++ [.apply]) = granted calls :=
    granted_concat fun _ => TableCall.noConfusion
  have hdeclarations : declarations (calls ++ [.apply]) = declarations calls := by
    simp [declarations, declared?]
  have hdeclared : declaredIn (m.names.entries ++ m.imports.registrations) =
      declaredIn m.names.entries := by
    rw [declaredIn, List.filterMap_append, ← declaredIn, ← declaredIn,
      Imports.declaredIn_registrations_eq_nil, List.append_nil]
  have hround := h.keyed.registrations_applyBehind m.names.entries.length
  rw [exec_apply h.names.resolved]
  dsimp only
  exact
    { names :=
        { resolved := h.names.resolved
          unspelled := fun n hn => by
            rcases List.mem_append.mp hn with hn | hn
            · exact h.names.unspelled n hn
            · obtain ⟨e, -, rfl⟩ := List.mem_map.mp hn
              rfl
          nodup := by rw [hdeclared]; exact h.names.nodup }
      keyed := h.keyed.applyBehind _
      recorded := fun h0 => by omega
      applied := fun _ => rfl
      keys := fun k => by rw [hgranted, h.keyed.keys_applyBehind]; exact h.keys k
      declared := fun x => by rw [hdeclared, hdeclarations]; exact h.declared x
      imported := by
        rw [importsIn_append, h.imported, Imports.importsIn_registrations, hround, hcount,
          rounds_succ]
      named := fun _ urn member i hi => by
        rw [h.keyed.find?_applyBehind] at hi
        obtain ⟨i₀, hi₀, rfl⟩ := Option.map_eq_some_iff.mp hi
        have hregistered : m.imports.registrations[m.imports.place urn member]? =
            some (importName (urn, i₀)) := by
          rw [Imports.registrations, List.getElem?_map, h.keyed.queue_place hi₀]
          rfl
        refine ⟨m.names.entries.length + m.imports.place urn member, rfl, ?_, ?_⟩
        · rw [List.getElem?_append_right (Nat.le_add_right ..), Nat.add_sub_cancel_left,
            hregistered]
          rfl
        · rw [List.take_length_add_append, importsIn_append, h.imported, hcount,
            Imports.importsIn_registrations_take, h.keyed.place_applyBehind, hround,
            Nat.add_sub_cancel] }

/-- The run lemma: any calls leave a module as it is called for. -/
theorem called_called (path : String) (calls : List TableCall) :
    Called calls (called path calls) := by
  induction calls using List.reverseRecOn with
  | nil =>
    exact
      { names := ⟨rfl, List.forall_mem_nil _, List.nodup_nil⟩
        keyed := Imports.keyed_recordAll []
        recorded := fun _ => rfl
        applied := fun h => absurd rfl h
        keys := fun k => by simp [called, Imports.queue, Imports.ordered, granted]
        declared := fun x => .rfl
        imported := rfl
        named := fun h => absurd rfl h }
  | append_singleton calls c ih =>
    rw [called_concat]
    cases c with
    | use u => exact ih.use u
    | apply => exact ih.apply
    | declare x => exact ih.declare x

/-! ### The resolution -/

/-- What becomes of a module whose import table is applied some times before its names are
resolved. -/
structure RegistersPerApplication (path : String) (calls : List TableCall)
    (m settled : Module String) : Prop where
  /-- Every application succeeds, also one that is not the first. -/
  applies : ∀ before after, calls = before ++ .apply :: after →
    (exec applyImports (called path before)).1 = .ok ()
  /-- The table has one import for each pair that is used before the first application. -/
  keys : (m.imports.queue.map Imports.key).Nodup ∧
    ∀ k, k ∈ m.imports.queue.map Imports.key ↔ k ∈ (granted calls).map Use.pair
  /-- Every application registers each import of the table once. -/
  imported : importsIn m.names.entries = rounds (applications calls) m.imports.registrations
  size : m.names.size = (declarations calls).dedup.length +
    applications calls * ((granted calls).map Use.pair).dedup.length
  /-- There is one name for each declaration and each pair exactly if the table is applied once, or
  has nothing to register. -/
  size_iff : m.names.size =
      (declarations calls).dedup.length + ((granted calls).map Use.pair).dedup.length ↔
    applications calls = 1 ∨ granted calls = []
  size_settled : settled.names.size = m.names.size
  /-- An import stands behind the declarations of its identifier, behind all imports of it from
  earlier applications, and behind those that the last application registers before it. -/
  spelled : applications calls ≠ 0 → ∀ urn member i, m.imports.find? urn member = some i →
    settled.read (.member urn member) = .ok (Name.numbered i.identifier
      ((declarations calls).dedup.count i.identifier +
        (applications calls - 1) *
          (m.imports.queue.countP fun e => e.2.identifier = i.identifier) +
        m.imports.rank urn i))
  /-- An import that nothing else collides with is spelled by the number of applications alone. -/
  alone : applications calls ≠ 0 → ∀ urn member i, m.imports.find? urn member = some i →
    i.identifier ∉ declarations calls →
    (∀ e ∈ m.imports.queue, e.2.identifier = i.identifier → Imports.key e = (urn, member)) →
    settled.read (.member urn member) =
      .ok (Name.numbered i.identifier (applications calls - 1))

theorem Called.length_registrations (h : Called calls m) :
    m.imports.registrations.length = ((granted calls).map Use.pair).dedup.length := by
  have hperm : (m.imports.queue.map Imports.key).Perm ((granted calls).map Use.pair).dedup := by
    rw [List.perm_ext_iff_of_nodup h.keyed.nodup_keys (List.nodup_dedup _)]
    intro k
    rw [h.keys, List.mem_dedup]
  rw [Imports.registrations, List.length_map, ← hperm.length_eq, List.length_map]

theorem Called.declaredIn_perm (h : Called calls m) :
    (declaredIn m.names.entries).Perm (declarations calls).dedup := by
  rw [List.perm_ext_iff_of_nodup h.names.nodup (List.nodup_dedup _)]
  intro x
  rw [h.declared, List.mem_dedup]

theorem Called.size (h : Called calls m) :
    m.names.size = (declarations calls).dedup.length +
      applications calls * ((granted calls).map Use.pair).dedup.length := by
  rw [Names.size, length_eq_declaredIn_add_importsIn, h.declaredIn_perm.length_eq, h.imported,
    length_rounds, h.length_registrations]

theorem Called.read_member (h : Called calls m) (hk : applications calls ≠ 0) {urn member : String}
    {i : Import String} (hi : m.imports.find? urn member = some i) :
    (exec resolveNames m).2.read (.member urn member) = .ok (Name.numbered i.identifier
      ((declarations calls).dedup.count i.identifier +
        (applications calls - 1) *
          (m.imports.queue.countP fun e => e.2.identifier = i.identifier) +
        m.imports.rank urn i)) := by
  obtain rfl := Imports.member_of_find? hi
  obtain ⟨serial, hname, hentry, hbefore⟩ := h.named hk urn i.member i hi
  have hcount : ∀ q : List (String × Import String),
      ((q.map importName).countP fun n => n.identifier = i.identifier) =
        q.countP fun e => e.2.identifier = i.identifier := fun q => by
    rw [List.countP_map]
    rfl
  have hposition : position m.names.entries serial (importName (urn, i)) =
      (declarations calls).dedup.count i.identifier +
        (applications calls - 1) *
          (m.imports.queue.countP fun e => e.2.identifier = i.identifier) +
        m.imports.rank urn i := by
    simp only [position, importName]
    rw [countOf_declaration, h.declaredIn_perm.count_eq, countOf_imported, hbefore,
      List.countP_append, countP_rounds, Imports.registrations, ← List.map_take, hcount, hcount,
      Imports.rank, Nat.add_assoc]
  obtain ⟨log, hresolve⟩ := exec_resolveNames h.names.resolved h.names.unspelled
  rw [hresolve, read, hi]
  dsimp only [Import.token]
  rw [hname]
  dsimp only
  rw [token_ofSettled _ hentry, hposition]
  rfl

/-- An import with an identifier of its own is the one that the queue has for the identifier. -/
theorem Called.sharing_eq_one (h : Called calls m) {urn member : String} {i : Import String}
    (hi : m.imports.find? urn member = some i)
    (halone : ∀ e ∈ m.imports.queue, e.2.identifier = i.identifier →
      Imports.key e = (urn, member)) :
    (m.imports.queue.countP fun e => e.2.identifier = i.identifier) = 1 := by
  have hkey : (m.imports.queue.countP fun e => e.2.identifier = i.identifier) =
      (m.imports.queue.map Imports.key).count (urn, member) := by
    rw [List.count, List.countP_map]
    refine List.countP_congr fun e he => ?_
    simp only [Function.comp_apply, decide_eq_true_eq, beq_iff_eq]
    refine ⟨halone e he, fun hk => ?_⟩
    -- the queue has no two imports under one key
    have hfound := (h.keyed.mem_queue e.1 e.2).mp he
    obtain ⟨rfl, rfl⟩ := Prod.mk.inj hk
    rw [Option.some.inj (hfound.symm.trans hi)]
  rw [hkey]
  exact List.count_eq_one_of_mem h.keyed.nodup_keys (h.keyed.mem_keys hi)

theorem Called.rank_eq_zero (h : Called calls m) {urn member : String} {i : Import String}
    (hi : m.imports.find? urn member = some i)
    (halone : ∀ e ∈ m.imports.queue, e.2.identifier = i.identifier →
      Imports.key e = (urn, member)) : m.imports.rank urn i = 0 := by
  obtain rfl := Imports.member_of_find? hi
  by_contra hrank
  obtain ⟨e, he, hbefore, hidentifier⟩ :=
    (h.keyed.rank_pos_iff hi).mp (Nat.pos_of_ne_zero hrank)
  obtain ⟨hurn, hmember⟩ := Prod.mk.inj (halone e he hidentifier)
  rcases hbefore with hlt | ⟨-, hlt⟩
  · exact String.ne_of_lt hlt hurn
  · exact String.ne_of_lt hlt hmember

/-- Whatever calls of the tables come before the resolution, each application of the import table
has registered every import. -/
theorem registers_per_application (path : String) (calls : List TableCall) :
    (exec resolveNames (called path calls)).1 = .ok () ∧
      RegistersPerApplication path calls (called path calls)
        (exec resolveNames (called path calls)).2 := by
  have h := called_called path calls
  obtain ⟨log, hresolve⟩ := exec_resolveNames h.names.resolved h.names.unspelled
  refine ⟨congrArg Prod.fst hresolve, ?_⟩
  exact
    { applies := fun before _ _ =>
        congrArg Prod.fst (exec_apply (called_called path before).names.resolved)
      keys := ⟨h.keyed.nodup_keys, h.keys⟩
      imported := h.imported
      size := h.size
      size_iff := by
        rw [h.size, Nat.add_left_cancel_iff]
        by_cases hpairs : granted calls = []
        · simp [hpairs]
        · have hpos : ((granted calls).map Use.pair).dedup.length ≠ 0 := by simpa using hpairs
          rw [Nat.mul_eq_right hpos]
          exact (or_iff_left hpairs).symm
      size_settled := by
        rw [hresolve]
        exact List.length_mapIdx
      spelled := fun hk _ _ _ hi => h.read_member hk hi
      alone := fun hk urn member i hi hdeclared hothers => by
        rw [h.read_member hk hi, h.sharing_eq_one hi hothers, h.rank_eq_zero hi hothers,
          List.count_eq_zero_of_not_mem (by simpa using hdeclared)]
        simp }

/-- A table with one import that is applied twice. -/
def twice : List TableCall :=
  [.use ⟨.api "apps" none, "A", none, false⟩, .apply, .apply]

/-- The second application succeeds too. The one member then has two names, and its import gives
up the name of the member, although nothing else asks for it. -/
theorem second_application_renames :
    let m := called "apps/v1.ts" twice
    let settled := (exec resolveNames m).2
    (exec applyImports (called "apps/v1.ts" (twice.take 2))).1 = .ok () ∧
      m.names.size = 2 ∧
      m.names.size ≠ (declarations twice).length + ((granted twice).map Use.pair).dedup.length ∧
      (m.imports.find? "kure:api:apps" "A").map Import.identifier = some "A" ∧
      settled.read (.member "kure:api:apps" "A") = .ok "A_" := by
  exact ⟨by with_unfolding_all rfl, by decide +kernel, by decide +kernel, by decide +kernel,
    by with_unfolding_all rfl⟩

end Module

end ApiTypes
