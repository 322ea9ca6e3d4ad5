import ApiTypes.Proofs.Plan.Statements
import ApiTypes.Proofs.Schema.Generation

/-! The text of a module in closed form. What a schema is generated to is known without
running a module: nothing but its failure, or else the import block and the statements
of the header, the base type and the definitions over one spelling of symbols. Engine,
packaging and dependencies reach the text through the paths of the import block alone,
and the same text is known with its comments and literals marked. -/

namespace ApiTypes

open Op Traversal

namespace Module

/-- The spelling of a symbol; one that nothing spells stands for itself. -/
def nameIn (declared : List String) (t : Imports String) : Symbol String → String
  | .declared x => x
  | .imported source member =>
    match t.find? source.identity member with
    | some i => t.spelling declared source.identity i
    | none => member

theorem eq_nameIn {declared : List String} {t : Imports String} {symbol : Symbol String} {x : String}
    (h : spellIn declared t symbol = .ok x) : x = nameIn declared t symbol := by
  cases symbol with
  | declared y =>
    rw [spellIn] at h
    split at h
    next => exact (Except.ok.inj h).symm
    next => cases h
  | imported source member =>
    rw [spellIn] at h
    rw [nameIn]
    cases hi : t.find? source.identity member with
    | some i => rw [hi] at h; exact (Except.ok.inj h).symm
    | none => rw [hi] at h; cases h

end Module

/-! ### Marked import blocks -/

namespace Segment

/-- Rows of segments with a blank line between them, the empty ones left out. -/
def paragraphs (sss : List (List Segment)) : List Segment :=
  intercalate "\n\n" (sss.filter fun ss => text ss ≠ "")

theorem text_paragraphs (sss : List (List Segment)) :
    text (paragraphs sss) = Module.joinFragments (sss.map text) := by
  rw [paragraphs, text_intercalate, Module.joinFragments, List.filter_map]
  rfl

end Segment

namespace Statement

def segments (s : Statement) : List Segment :=
  let typesOnly := s.clauses.all (·.typeOnly)
  [.code (if typesOnly then "import type \x7b " else "import \x7b ")] ++
    Segment.intercalate ", " (s.clauses.map fun c => [.code (c.text typesOnly)]) ++
    [.code " \x7d from ", Segment.quote .ascii s.path, .code ";"]

theorem text_segments (s : Statement) : Segment.text s.segments = s.text := by
  simp only [segments, Segment.text_append, Segment.text_intercalate, List.map_map,
    Function.comp_def, Segment.text_code_cons, Segment.text_quote_cons, Segment.text_nil,
    String.append_empty, text, String.append_assoc]

def groupSegments (ss : List Statement) : List Segment :=
  Segment.intercalate "\n" ((ss.mergeSort inOrder).map segments)

theorem text_groupSegments (ss : List Statement) : Segment.text (groupSegments ss) = group ss := by
  rw [groupSegments, Segment.text_intercalate, List.map_map, group]
  simp only [Function.comp_def, text_segments]

def blockSegments (ss : List Statement) : List Segment :=
  let (siblings, remotes) := ss.partition (·.isLocal)
  Segment.intercalate "\n\n" (([remotes, siblings].filter fun g => !g.isEmpty).map groupSegments)

theorem text_blockSegments (ss : List Statement) : Segment.text (blockSegments ss) = block ss := by
  simp only [blockSegments, block, Segment.text_intercalate, List.map_map, Function.comp_def,
    text_groupSegments]

end Statement

namespace Schema

variable (s : Schema String) (engine : Engine) (packaging : Option Packaging)

/-- The spelling of symbols in the module of a schema. -/
def spelling : Symbol String → String :=
  Module.nameIn s.declarations (importsOf s.members)

/-- The import statements of the module of a schema. -/
def statements : List Statement :=
  (importsOf s.members).statementsIn (s.context engine packaging) s.declarations

/-- The header, the base type if there are resources, and the definitions. -/
def memberSegments : List (List Segment) :=
  Segment.header s.apiVersion s.spelling ::
    (s.metadata?.toList.map (Segment.base s.apiVersion s.spelling) ++
      s.definitions.map (Definition.segments s.spelling))

/-- The text of a module with its comments and literals marked. -/
def segments : List Segment :=
  Segment.paragraphs (Statement.blockSegments (s.statements engine packaging) :: s.memberSegments)

/-- The texts of the members. -/
def memberTexts : List String :=
  s.memberSegments.map Segment.text

/-- The import block and the texts of the members. -/
def fragments : List String :=
  Statement.block (s.statements engine packaging) :: s.memberTexts

/-- The plans of a schema write its members, one after the other. -/
theorem plans_write (ctx : Context String) (hctx : ctx.apiVersion = s.apiVersion) :
    Yields s.fault? (fun ps => List.Forall₂ (Plan.Writes ctx s.spelling) ps s.memberSegments)
      s.plans := by
  rw [plans, fault?, memberSegments]
  refine s.basePlan?_yields.bind fun base hbase => ?_
  refine (yields_mapM fun d _ => d.plan_writes ctx s.spelling).map fun ps hps => ?_
  have hwrites : List.Forall₂ (Plan.Writes ctx s.spelling) base.toList
      (s.metadata?.toList.map (Segment.base s.apiVersion s.spelling)) := by
    rw [hbase.1, ← hctx]
    cases s.metadata? with
    | none => exact .nil
    | some r => exact .cons (Plan.base_writes r) .nil
  refine .cons (hctx ▸ Plan.header_writes) (List.rel_append hwrites ?_)
  exact List.forall₂_map_right_iff.mpr hps.flip

variable {s}

theorem text_segments_eq :
    Segment.text (s.segments engine packaging) =
      Module.joinFragments (s.fragments engine packaging) := by
  rw [segments, Segment.text_paragraphs, List.map_cons, Statement.text_blockSegments, fragments,
    memberTexts]

theorem texts_eq (hf : s.fault? = none) {texts : List String}
    (h : s.members.mapM (Member.text (s.context engine packaging) (Module.spellOf s.members)) =
      .ok texts) : texts = s.memberTexts := by
  obtain ⟨hplans, hplanned⟩ := planned_of_fault?_eq_none hf
  have hwrites : List.Forall₂ (Plan.Writes (s.context engine packaging) s.spelling) s.planned
      s.memberSegments := by
    have hy := s.plans_write (s.context engine packaging) rfl
    rw [hf, hplans] at hy
    obtain ⟨ps, hps, hw⟩ := hy
    rwa [Except.ok.inj hps]
  have hspell : ∀ symbol x, Module.spellOf s.members symbol = .ok x → x = s.spelling symbol := by
    intro symbol x hx
    rw [Module.spellOf, hplanned.declarationsOf_members] at hx
    exact Module.eq_nameIn hx
  rw [members, List.mapM_map] at h
  simp only [Function.comp_def, Plan.text_toMember] at h
  exact Plan.texts_eq_of_writes hwrites hspell h

variable (s) in
/-- The result of a generation: its failure, or else its fragments with a blank line between
them. -/
theorem generate_result :
    (s.generate engine packaging).result =
      match s.failure? with
      | some e => .error e
      | none => .ok (Module.joinFragments (s.fragments engine packaging)) := by
  have hy := generate_yields (s := s) engine packaging
  cases hfailure : s.failure? with
  | some e =>
    rw [hfailure] at hy
    exact hy
  | none =>
    rw [hfailure] at hy
    obtain ⟨text, ht, -⟩ := hy
    obtain ⟨hf, hrepeated, -⟩ := conditions_of_ok ht
    obtain ⟨-, hplanned⟩ := planned_of_fault?_eq_none hf
    rw [generate_eq engine packaging hf, Module.outcome, hplanned.declarationsOf_members,
      hrepeated] at ht ⊢
    cases htexts : s.members.mapM
        (Member.text (s.context engine packaging) (Module.spellOf s.members)) with
    | error e => rw [htexts] at ht; cases ht
    | ok texts =>
      rw [texts_eq engine packaging hf htexts, Module.blockOf, hplanned.declarationsOf_members]
      rfl

/-- The text that a schema is generated to is the text of its segments. -/
theorem text_eq {text : String} (h : (s.generate engine packaging).result = .ok text) :
    text = Segment.text (s.segments engine packaging) := by
  have hf := (exists_text_iff engine packaging).mp ⟨text, h⟩
  rw [generate_result, hf] at h
  rw [text_segments_eq, ← Except.ok.inj h]

end Schema

end ApiTypes
