import ApiTypes.Proofs.Schema.Text

/-! What engine, packaging and dependencies can change. They decide whether and why a
generation fails for no schema, and they reach a text through the paths of its remote
imports alone: the members and the local imports are written alike in every context, and
the remote imports differ at most in their paths, and so in the order that these put
them in. A bare path does not show a version, so between bare packagings nothing
differs. -/

namespace ApiTypes

open Traversal

/-! ### Paths in two contexts -/

namespace Source

variable {ctx ctx' : Context String}

theorem exists_version?_eq_ok (ctx : Context String) (s : Source String) :
    ∃ v, s.version? ctx = .ok v := by
  cases s with
  | api package inside =>
    rw [version?, Context.versionOf, Label.requireKey_string]
    exact ⟨_, rfl⟩
  | library | sibling => exact ⟨_, rfl⟩

/-- A path beside a module depends on the path of the module alone. -/
theorem pathText_of_isLocal (h : ctx.modulePath = ctx'.modulePath) {s : Source String}
    (hs : s.isLocal = true) : s.pathText ctx = s.pathText ctx' := by
  cases s with
  | sibling target => simp only [pathText, path, version?, siblingPath, h]
  | api | library => cases hs

/-- A bare path depends on no more than that. -/
theorem pathText_of_bare (h : ctx.modulePath = ctx'.modulePath) (hb : ctx.packaging = .bare)
    (hb' : ctx'.packaging = .bare) (s : Source String) : s.pathText ctx = s.pathText ctx' := by
  obtain ⟨v, hv⟩ := s.exists_version?_eq_ok ctx
  obtain ⟨v', hv'⟩ := s.exists_version?_eq_ok ctx'
  cases s with
  | sibling target => exact pathText_of_isLocal h rfl
  | api package inside | library package inside =>
    simp only [pathText, path, hv, hv', ok_bind, remotePath, hb, hb']

end Source

/-! ### Fragments that are joined in two steps -/

theorem intercalate_ne_empty {separator s : String} (hs : s ≠ "") (rest : List String) :
    separator.intercalate (s :: rest) ≠ "" := by
  cases rest with
  | nil => rwa [String.intercalate_singleton]
  | cons t more =>
    rw [String.intercalate_cons_cons, ne_eq, String.append_eq_empty_iff, String.append_eq_empty_iff]
    exact fun h => hs h.1.1

theorem intercalate_intercalate (separator s : String) (ss ts : List String) :
    separator.intercalate (separator.intercalate (s :: ss) :: ts) =
      separator.intercalate (s :: ss ++ ts) := by
  induction ss generalizing s with
  | nil => rw [String.intercalate_singleton, List.singleton_append]
  | cons t more ih =>
    rw [String.intercalate_cons_cons, String.intercalate_cons_append, ih, List.cons_append,
      List.cons_append, List.cons_append, String.intercalate_cons_cons]

theorem joinFragments_join (fs gs : List String) :
    Module.joinFragments (Module.joinFragments fs :: gs) = Module.joinFragments (fs ++ gs) := by
  simp only [Module.joinFragments, List.filter_append]
  cases hfs : fs.filter (· ≠ "") with
  | nil => rfl
  | cons f rest =>
    have hmem : f ∈ fs.filter (· ≠ "") := hfs ▸ List.mem_cons_self
    have hf : f ≠ "" := of_decide_eq_true (List.mem_filter.mp hmem).2
    rw [List.filter_cons, if_pos (decide_eq_true (intercalate_ne_empty hf rest)),
      intercalate_intercalate]

/-! ### Statements in two contexts -/

namespace Statement

/-- A statement without its path. -/
def pathless (s : Statement) : Statement :=
  { s with path := "" }

theorem text_ne_empty (s : Statement) : s.text ≠ "" := by
  rw [text]
  simp only [ne_eq, String.append_eq_empty_iff]
  rintro ⟨-, h⟩
  exact absurd h (by decide)

theorem group_ne_empty_iff (ss : List Statement) : group ss ≠ "" ↔ ¬ ss.isEmpty := by
  cases ss with
  | nil =>
    rw [group, List.mergeSort_nil]
    decide
  | cons s rest =>
    have hlength : ((s :: rest).mergeSort inOrder).length = rest.length + 1 :=
      List.length_mergeSort (s :: rest)
    obtain ⟨t, more, ht⟩ := List.exists_cons_of_length_eq_add_one hlength
    rw [group, ht, List.map_cons]
    exact iff_of_true (intercalate_ne_empty t.text_ne_empty _) (by simp)

/-- The remote statements and the local statements are fragments of their own. -/
theorem block_eq_joinFragments (ss : List Statement) :
    block ss = Module.joinFragments
      [group (ss.filter fun s => !s.isLocal), group (ss.filter (·.isLocal))] := by
  have hfilter (gs : List (List Statement)) :
      (gs.filter fun g => !g.isEmpty).map group = (gs.map group).filter (· ≠ "") := by
    rw [List.filter_map]
    congr 1
    refine List.filter_congr fun g _ => ?_
    rw [Bool.eq_iff_iff, Function.comp_apply, decide_eq_true_iff, group_ne_empty_iff]
    simp
  rw [block, List.partition_eq_filter_filter]
  simp only [hfilter]
  rfl

end Statement

namespace Schema

variable (s : Schema String) (engine : Engine) (packaging : Option Packaging)

/-- The import statements for other packages. -/
def remotes : List Statement :=
  (s.statements engine packaging).filter fun statement => !statement.isLocal

/-- The import statements for modules of the same package. -/
def siblings : List Statement :=
  (s.statements engine packaging).filter (·.isLocal)

theorem joinFragments_fragments :
    Module.joinFragments (s.fragments engine packaging) =
      Module.joinFragments (Statement.group (s.remotes engine packaging) ::
        Statement.group (s.siblings engine packaging) :: s.memberTexts) := by
  rw [fragments, Statement.block_eq_joinFragments, joinFragments_join]
  rfl

variable (deps : List (Dependency String)) (engine' : Engine) (packaging' : Option Packaging)

/-- A schema with other dependencies. -/
def withDependencies : Schema String :=
  { s with dependencies := deps }

/-- The path of the module is the same in every context of a schema. -/
theorem modulePath_context_withDependencies :
    ((s.withDependencies deps).context engine' packaging').modulePath =
      (s.context engine packaging).modulePath := rfl

theorem siblings_withDependencies :
    (s.withDependencies deps).siblings engine' packaging' = s.siblings engine packaging := by
  rw [siblings, siblings, statements, statements, Imports.statementsIn, Imports.statementsIn,
    List.filter_map, List.filter_map]
  refine List.map_congr_left fun m hm => ?_
  have hlocal : m.source.isLocal = true := (List.mem_filter.mp hm).2
  have hmodule := s.modulePath_context_withDependencies engine packaging deps engine' packaging'
  rw [Source.pathText_of_isLocal hmodule hlocal]
  rfl

theorem pathless_remotes_withDependencies :
    ((s.withDependencies deps).remotes engine' packaging').map Statement.pathless =
      (s.remotes engine packaging).map Statement.pathless := by
  rw [remotes, remotes, statements, statements, Imports.statementsIn, Imports.statementsIn,
    List.filter_map, List.filter_map, List.map_map, List.map_map]
  rfl

theorem statements_of_bare (h : packaging.getD engine.defaultPackaging = .bare)
    (h' : packaging'.getD engine'.defaultPackaging = .bare) :
    (s.withDependencies deps).statements engine' packaging' = s.statements engine packaging := by
  rw [statements, statements, Imports.statementsIn, Imports.statementsIn]
  refine List.map_congr_left fun m _ => ?_
  have hmodule := s.modulePath_context_withDependencies engine packaging deps engine' packaging'
  rw [Source.pathText_of_bare hmodule h' h]
  rfl

/-- Schemas that differ at most in their dependencies fail alike, whatever the engine and the
packaging, or have texts with the same members and the same local imports, and with remote
imports that differ at most in their paths; between bare packagings the texts are the same. -/
theorem generate_agrees :
    ((∃ e, (s.generate engine packaging).result = .error e ∧
        ((s.withDependencies deps).generate engine' packaging').result = .error e) ∨
      (s.generate engine packaging).result = .ok (Module.joinFragments
          (Statement.group (s.remotes engine packaging) ::
            Statement.group (s.siblings engine packaging) :: s.memberTexts)) ∧
        ((s.withDependencies deps).generate engine' packaging').result = .ok (Module.joinFragments
          (Statement.group ((s.withDependencies deps).remotes engine' packaging') ::
            Statement.group (s.siblings engine packaging) :: s.memberTexts))) ∧
    ((s.withDependencies deps).remotes engine' packaging').map Statement.pathless =
      (s.remotes engine packaging).map Statement.pathless ∧
    (packaging.getD engine.defaultPackaging = .bare →
      packaging'.getD engine'.defaultPackaging = .bare →
        ((s.withDependencies deps).generate engine' packaging').result =
          (s.generate engine packaging).result) := by
  -- neither the failure nor the members of a schema are about its dependencies
  have hfailure : (s.withDependencies deps).failure? = s.failure? := rfl
  have hmembers : (s.withDependencies deps).memberTexts = s.memberTexts := rfl
  have hs := s.generate_result engine packaging
  have ht := (s.withDependencies deps).generate_result engine' packaging'
  refine ⟨?_, s.pathless_remotes_withDependencies .., fun hb hb' => ?_⟩
  · rw [hfailure] at ht
    rw [joinFragments_fragments] at hs ht
    rw [hmembers, siblings_withDependencies s engine packaging] at ht
    cases hf : s.failure? with
    | some e =>
      rw [hf] at hs ht
      exact .inl ⟨e, hs, ht⟩
    | none =>
      rw [hf] at hs ht
      exact .inr ⟨hs, ht⟩
  · rw [hs, ht, hfailure, fragments, fragments, hmembers,
      s.statements_of_bare engine packaging deps engine' packaging' hb hb']

end Schema

end ApiTypes
