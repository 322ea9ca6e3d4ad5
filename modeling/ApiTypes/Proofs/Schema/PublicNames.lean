import ApiTypes.Proofs.Schema.Exports
import ApiTypes.Proofs.Schema.Scanning

/-! The public names of a module. The header exports the version as a type and as a constant,
the base type is exported if there are resources, and every definition exports its own name:
nothing else is exported, nothing is renamed, and no import can change these names. The
comment of the base type is the one place through which a schema can export more, since it
shows the version as it is. -/

namespace ApiTypes

open Text Scan Export Segment

namespace Schema

variable {s : Schema String}

variable (s) in
/-- The public names of the module of a schema, in order. -/
def publicNames : List Export :=
  [⟨.type, "APIVersion"⟩, ⟨.constant, "apiVersion"⟩] ++
    (if s.resource?.isSome then [⟨.type, "Resource"⟩] else []) ++
    s.definitions.flatMap Definition.publicNames

theorem Planned.exports_block (hplanned : s.Planned s.planned)
    (hn : s.NamedOver (isNameChar · = true)) (engine : Engine) (packaging : Option Packaging) :
    Exports (Statement.blockSegments (s.statements engine packaging)) [] :=
  Statement.exports_blockSegments fun statement hs => statement.exports_segments
    (hplanned.over_clauses ofWords_isNameChar hn engine packaging statement hs)

theorem Planned.exports_segments (hplanned : s.Planned s.planned)
    (hn : s.NamedOver (isNameChar · = true)) (engine : Engine) (packaging : Option Packaging) :
    Exports (s.segments engine packaging) s.publicNames := by
  have hspells := hplanned.spellsOver ofWords_isNameChar hn
  have hown : ∀ x, s.spelling (.declared x) = x := fun _ => rfl
  have hblock := hplanned.exports_block hn engine packaging
  have hbase : List.Forall₂ Exports (s.metadata?.toList.map (Segment.base s.apiVersion s.spelling))
      (if s.resource?.isSome then [[⟨.type, "Resource"⟩]] else []) := by
    have hsome := hplanned.metadata
    cases hr : s.metadata? with
    | none =>
      rw [hr] at hsome
      rw [← hsome]
      exact .nil
    | some r =>
      rw [hr] at hsome
      have hresource : s.resource?.isSome := hsome.symm
      rw [if_pos hresource]
      exact .cons (exports_base s.apiVersion r hown
        (hspells.mono (base_subset hresource) (metadata_references_subset hr))) .nil
  have hdefinitions : List.Forall₂ Exports (s.definitions.map (Definition.segments s.spelling))
      (s.definitions.map Definition.publicNames) := by
    rw [List.forall₂_map_left_iff, List.forall₂_map_right_iff, List.forall₂_same]
    exact fun d hd => d.exports_segments hown
      (hspells.mono (definition_subset hd) (definition_references_subset hd))
  have hrows := exports_paragraphs (.cons hblock
    (.cons (exports_header s.apiVersion hown) (List.rel_append hbase hdefinitions)))
  have hnames : (([] : List Export) :: [⟨.type, "APIVersion"⟩, ⟨.constant, "apiVersion"⟩] ::
      ((if s.resource?.isSome then [[⟨.type, "Resource"⟩]] else []) ++
        s.definitions.map Definition.publicNames)).flatten = s.publicNames := by
    rw [publicNames, List.flatMap_def]
    split <;> simp
  rw [← hnames]
  exact hrows

/-- The text of a module exports the public names of its schema, as long as its names are
written in characters of names and no version that the base type shows ends a comment. -/
theorem exports_eq {engine : Engine} {packaging : Option Packaging} {text : String}
    (h : (s.generate engine packaging).result = .ok text)
    (hn : s.NamedOver (isNameChar · = true))
    (hv : s.resource?.isSome → ¬ endOfComment <:+: s.apiVersion.toList) :
    Scan.exports text = s.publicNames := by
  obtain ⟨hplanned, -⟩ := settled_rendered h
  have htokens := (tokens_iff_of_named ofWords_isNameChar bare_of_isNameChar h hn).mpr hv
  have hexports := hplanned.exports_segments hn engine packaging []
  rw [List.append_nil] at hexports
  rw [Scan.exports, htokens, hexports]
  exact List.append_nil _

end Schema

/-! ### Versions that end a comment -/

namespace Segment

/-- Rows with a separator behind each of them. -/
def terminated (separator : String) (sss : List (List Segment)) : List Segment :=
  sss.flatMap (· ++ [.code separator])

theorem exists_intercalate_eq (separator : String) (before : List (List Segment))
    (ss : List Segment) (after : List (List Segment)) :
    ∃ more, intercalate separator (before ++ ss :: after) =
      terminated separator before ++ (ss ++ more) := by
  induction before with
  | nil =>
    cases after with
    | nil => exact ⟨[], (List.append_nil ss).symm⟩
    | cons ss' rest => exact ⟨_, rfl⟩
  | cons first rest ih =>
    obtain ⟨more, hmore⟩ := ih
    obtain ⟨next, others, hnext⟩ : ∃ next others, rest ++ ss :: after = next :: others :=
      List.exists_cons_of_ne_nil (by simp)
    refine ⟨more, ?_⟩
    rw [List.cons_append, hnext, intercalate, ← hnext, hmore, terminated, terminated,
      List.flatMap_cons, List.append_assoc, List.append_assoc]
    · rfl
    · simp

theorem exists_paragraphs_eq (before : List (List Segment)) {ss : List Segment} (h : text ss ≠ "")
    (after : List (List Segment)) :
    ∃ more, paragraphs (before ++ ss :: after) =
      terminated "\n\n" (before.filter fun ss => text ss ≠ "") ++ (ss ++ more) := by
  rw [paragraphs, List.filter_append, List.filter_cons_of_pos (by simpa using h)]
  exact exists_intercalate_eq "\n\n" _ ss _

theorem exports_terminated {separator : String} (hsep : ∀ t ∈ codes separator, t.isGap = true)
    {sss : List (List Segment)} {ess : List (List Export)} (h : List.Forall₂ Exports sss ess) :
    Exports (terminated separator sss) ess.flatten := by
  induction h with
  | nil => exact exports_nil
  | cons hs _ ih =>
    have hgap : Exports [.code separator] [] := exports_gap (by
      rw [List.flatMap_singleton]
      exact hsep)
    have hrow := (hs.append hgap).append ih
    rwa [List.append_nil] at hrow

theorem allSafe_terminated {separator : String} (hsep : Plain separator.toList)
    {sss : List (List Segment)} (h : ∀ ss ∈ sss, AllSafe ss) :
    AllSafe (terminated separator sss) := by
  intro s hs
  obtain ⟨ss, hm, hs⟩ := List.mem_flatMap.mp hs
  exact (h ss hm).append (allSafe_code hsep) s hs

theorem scan_append {ss : List Segment} (h : AllSafe ss) (rest : List Char) :
    scan .code (ss.flatMap chars ++ rest) = ss.flatMap Segment.tokens ++ scan .code rest := by
  induction ss with
  | nil => rfl
  | cons s ss ih =>
    rw [AllSafe, List.forall_mem_cons] at h
    rw [List.flatMap_cons, List.append_assoc, scan_chars h.1.1 h.1.2, ih h.2, List.flatMap_cons,
      List.append_assoc]

end Segment

namespace Schema

variable {s : Schema String}

/-- The comment of the base type, up to the end of comment in the version that it shows. -/
theorem baseComment_eq {version : String} {before after : List Char}
    (hv : version.toList = before ++ '*' :: '/' :: after) (hb : ¬ endOfComment <:+: before)
    {resource : String} (hr : Plain resource.toList) :
    ∃ shown, ¬ endOfComment <:+: shown ∧
      (baseComment version resource).toList =
        shown ++ '*' :: '/' :: (after ++ "` API. ".toList) := by
  refine ⟨("* A \x7b@link " ++ resource ++ " resource\x7d in the `").toList ++ before, ?_, ?_⟩
  · have hplain : ¬ endOfComment <:+: ("* A \x7b@link " ++ resource).toList := fun hi => by
      rw [String.toList_append] at hi
      have hslash := plain_append (by decide : Plain "* A \x7b@link ".toList) hr
      exact (hslash '/' (hi.subset (by decide))).1 rfl
    have hlast : " resource\x7d in the `".toList.getLast? = some '`' := by decide
    refine not_infix_append ?_ hb (.inl ?_)
    · rw [String.toList_append]
      exact not_infix_append hplain (by decide) (.inr (by decide))
    · rw [String.toList_append, List.getLast?_append, hlast, Option.some_or]
      decide
  · rw [baseComment, String.toList_append, String.toList_append, hv]
    simp

/-- The rows before the base type. -/
def openingRows (s : Schema String) (engine : Engine) (packaging : Option Packaging) :
    List (List Segment) :=
  [Statement.blockSegments (s.statements engine packaging), Segment.header s.apiVersion s.spelling]

/-- What a text shows before the base type. -/
def opening (s : Schema String) (engine : Engine) (packaging : Option Packaging) : List Segment :=
  terminated "\n\n" ((s.openingRows engine packaging).filter fun ss => Segment.text ss ≠ "")

section

variable {engine : Engine} {packaging : Option Packaging} (hplanned : s.Planned s.planned)
  (hn : s.NamedOver (isNameChar · = true))

include hplanned hn

theorem Planned.exports_opening : Exports (s.opening engine packaging)
    [⟨.type, "APIVersion"⟩, ⟨.constant, "apiVersion"⟩] := by
  have hrows : List.Forall₂ Exports (s.openingRows engine packaging)
      [[], [⟨.type, "APIVersion"⟩, ⟨.constant, "apiVersion"⟩]] :=
    .cons (hplanned.exports_block hn engine packaging)
      (.cons (exports_header s.apiVersion fun _ => rfl) .nil)
  obtain ⟨kept, hkept, hflat⟩ := exists_kept hrows
  have hgap : ∀ t ∈ codes "\n\n", t.isGap = true := by decide
  have hexports := exports_terminated hgap hkept
  rwa [hflat] at hexports

theorem Planned.allSafe_opening : AllSafe (s.opening engine packaging) := by
  have hspells := (hplanned.spellsOver ofWords_isNameChar hn).plain bare_of_isNameChar
  have hboth : ∀ ss ∈ s.openingRows engine packaging, AllSafe ss := by
    rw [openingRows, List.forall_mem_cons, List.forall_mem_singleton]
    exact ⟨hplanned.allSafe_block ofWords_isNameChar bare_of_isNameChar hn engine packaging,
      allSafe_header _ (hspells.mono header_subset (List.nil_subset _))⟩
  exact allSafe_terminated (by decide) fun ss hs => hboth ss (List.mem_of_mem_filter hs)

end

/-- If the version ends the comment of the base type, what follows in it is read as code: the
module exports the names of its header, and then whatever this code exports. -/
theorem exports_of_early_end {engine : Engine} {packaging : Option Packaging} {text : String}
    (h : (s.generate engine packaging).result = .ok text)
    (hn : s.NamedOver (isNameChar · = true)) (hr : s.resource?.isSome) {before after : List Char}
    (hv : s.apiVersion.toList = before ++ '*' :: '/' :: after) (hb : ¬ endOfComment <:+: before) :
    ∃ rest, Scan.exports text = [⟨.type, "APIVersion"⟩, ⟨.constant, "apiVersion"⟩] ++
      exportsFrom true (scan .code (after ++ rest)) := by
  obtain ⟨hplanned, -⟩ := settled_rendered h
  obtain ⟨r, hmetadata⟩ := Option.isSome_iff_exists.mp (hplanned.metadata.trans hr)
  obtain ⟨rest, hbase⟩ : ∃ rest, Segment.base s.apiVersion s.spelling r =
      .comment (baseComment s.apiVersion (s.spelling (supportSymbol "Resource"))).toList :: rest :=
    ⟨_, rfl⟩
  have hne : Segment.text (Segment.base s.apiVersion s.spelling r) ≠ "" := by
    rw [hbase]
    exact text_comment_ne _ _
  obtain ⟨more, hmore⟩ := exists_paragraphs_eq (s.openingRows engine packaging) hne
    (s.definitions.map (Definition.segments s.spelling))
  have hsegments : s.segments engine packaging =
      s.opening engine packaging ++ (Segment.base s.apiVersion s.spelling r ++ more) := by
    rw [opening, ← hmore, segments, memberSegments, hmetadata]
    rfl
  -- the comment is read up to the end of comment in the version
  have hplain : Plain (s.spelling (supportSymbol "Resource")).toList :=
    ((hplanned.spellsOver ofWords_isNameChar hn).plain bare_of_isNameChar).support _ (by decide)
  obtain ⟨shown, hshown, hcomment⟩ := baseComment_eq hv hb hplain
  refine ⟨"` API. ".toList ++ '*' :: '/' :: (rest ++ more).flatMap chars, ?_⟩
  have hscan := scan_comment hshown []
    (after ++ ("` API. ".toList ++ '*' :: '/' :: (rest ++ more).flatMap chars))
  have hchars : (s.segments engine packaging).flatMap chars =
      (s.opening engine packaging).flatMap chars ++ '/' :: '*' :: (shown ++ '*' :: '/' ::
        (after ++ ("` API. ".toList ++ '*' :: '/' :: (rest ++ more).flatMap chars))) := by
    rw [hsegments, hbase, List.flatMap_append, List.cons_append, List.flatMap_cons, chars,
      hcomment]
    simp
  have htokens : Scan.tokens text = (s.opening engine packaging).flatMap Segment.tokens ++
      .comment shown :: scan .code
        (after ++ ("` API. ".toList ++ '*' :: '/' :: (rest ++ more).flatMap chars)) := by
    rw [text_eq engine packaging h, Scan.tokens, Segment.text, String.toList_ofList, hchars,
      scan_append (hplanned.allSafe_opening hn), scan, hscan, List.nil_append]
  rw [Scan.exports, htokens, hplanned.exports_opening hn]
  rfl

/-- A re-export whose import is renamed, and a resource, in a group of the given name. -/
def forwarded (group : String) : Schema String :=
  { group := { name := some group, directory := some "apps" }, version := "v1"
    definitions := [{ name := "Meta", value := memberOf "core" "Meta" },
      { name := "Gadget", description := some "export const hidden", value :=
          .resource [.mk "metadata" (memberOf "meta" "Meta") true none false,
            .mk "export" (.array (memberOf "core" "Meta")) false none false] defaultScope }] }

theorem exports_eq_forwarded : ∃ text, ((forwarded "apps").generate .deno none).result = .ok text ∧
    Scan.exports text = [⟨.type, "APIVersion"⟩, ⟨.constant, "apiVersion"⟩, ⟨.type, "Resource"⟩,
      ⟨.type, "Meta"⟩, ⟨.interface, "Gadget"⟩, ⟨.constant, "Gadget"⟩, ⟨.type, "GadgetList"⟩] := by
  obtain ⟨text, h⟩ := (exists_text_iff .deno none (s := forwarded "apps")).mpr (by rfl)
  exact ⟨text, h, exports_eq h (by decide) fun _ => by decide⟩

/-- A group name ends the comment of the base type and exports a constant behind it, which is
no public name of the schema. -/
theorem forwarded_exports_extra : ∃ text,
    ((forwarded "apps */\nexport const extra = 1; /*").generate .deno none).result = .ok text ∧
    ⟨.constant, "extra"⟩ ∈ Scan.exports text ∧
    ⟨.constant, "extra"⟩ ∉ (forwarded "apps */\nexport const extra = 1; /*").publicNames := by
  obtain ⟨text, h⟩ :=
    (exists_text_iff .deno none (s := forwarded "apps */\nexport const extra = 1; /*")).mpr (by rfl)
  have hversion : (forwarded "apps */\nexport const extra = 1; /*").apiVersion.toList =
      "apps ".toList ++ '*' :: '/' ::
        ("\nexport const extra = 1; ".toList ++ "/*/v1".toList) := by rfl
  obtain ⟨rest, hexports⟩ := exports_of_early_end h (by decide) rfl hversion (by decide)
  refine ⟨text, h, ?_, by decide⟩
  rw [hexports, List.append_assoc, scan_plain (by decide)]
  -- the code behind the comment is a newline and the declaration of a constant
  have hdeclared := exportsFrom_declaration "const " .constant (by decide)
    (x := "extra") (by decide) (c := ' ') (by decide) (by decide)
    (codes "= 1; " ++ scan .code ("/*/v1".toList ++ rest))
  refine List.mem_append_right _ ?_
  show _ ∈ exportsFrom true (codes "export " ++ (codes "const " ++ (codes "extra" ++
    .code ' ' :: (codes "= 1; " ++ scan .code ("/*/v1".toList ++ rest)))))
  rw [hdeclared]
  exact List.mem_cons_self

end Schema

end ApiTypes
