import ApiTypes.Proofs.Schema.Alphabet

/-! Where the comments and literals of a generated text end. If the definitions and the
references of a schema are named by plain identifiers, a scan of its text finds each
literal and each documentation block as it was written, whatever the schema says in
descriptions, choices, keys, scopes, packages and versions. The comment of the base type
is the exception: it shows the API version as it is, so it ends early exactly if that
version holds an end of comment. -/

namespace ApiTypes

open Text Scan Segment

theorem Clause.plain_text {c : Clause} (hm : Plain c.member.toList) (hl : Plain c.localName.toList)
    (typesOnly : Bool) : Plain (c.text typesOnly).toList := by
  have hshown : Plain (if c.localName = c.member then c.localName
      else c.member ++ " as " ++ c.localName).toList := by
    split
    next => exact hl
    next =>
      rw [String.toList_append, String.toList_append]
      exact plain_append (plain_append hm (by decide)) hl
  rw [text]
  split
  next =>
    rw [String.toList_append]
    exact plain_append (by decide) hshown
  next => exact hshown

theorem Statement.allSafe_blockSegments {ss : List Statement}
    (h : ∀ s ∈ ss, ∀ c ∈ s.clauses, Plain c.member.toList ∧ Plain c.localName.toList) :
    AllSafe (blockSegments ss) := by
  have hstatement : ∀ s ∈ ss, AllSafe s.segments := by
    intro s hs
    have hopen : AllSafe [.code (if s.clauses.all (·.typeOnly) then "import type \x7b "
        else "import \x7b ")] := by
      split <;> exact allSafe_code (by decide)
    refine (hopen.append (forall_intercalate (safe_code (by decide)) ?_)).append
      (.cons (safe_code (by decide)) (.cons (safe_quote ..) (allSafe_code (by decide))))
    intro segments hm
    obtain ⟨c, hc, rfl⟩ := List.mem_map.mp hm
    exact allSafe_code (Clause.plain_text (h s hs c hc).1 (h s hs c hc).2 _)
  have hgroup : ∀ g ⊆ ss, AllSafe (groupSegments g) := by
    intro g hg
    refine forall_intercalate (safe_code (by decide)) fun segments hm => ?_
    obtain ⟨s, hs, rfl⟩ := List.mem_map.mp hm
    exact hstatement s (hg (List.mem_mergeSort.mp hs))
  rw [blockSegments, List.partition_eq_filter_filter]
  refine forall_intercalate (safe_code (by decide)) fun segments hm => ?_
  obtain ⟨g, hg, rfl⟩ := List.mem_map.mp hm
  rcases List.mem_cons.mp (List.mem_of_mem_filter hg) with rfl | hg
  · exact hgroup _ (List.filter_subset_self _)
  · obtain rfl := List.mem_singleton.mp hg
    exact hgroup _ (List.filter_subset_self _)

namespace Segment

theorem text_comment_ne (body : List Char) (rest : List Segment) :
    text (.comment body :: rest) ≠ "" := by
  rw [text_comment_cons]
  simp only [ne_eq, String.append_eq_empty_iff]
  rintro ⟨⟨⟨hopen, -⟩, -⟩, -⟩
  exact absurd hopen (by decide)

/-- A comment is never left out with an empty row. -/
theorem mem_paragraphs {sss : List (List Segment)} {body : List Char} {rest : List Segment}
    (h : .comment body :: rest ∈ sss) {s : Segment} (hs : s ∈ .comment body :: rest) :
    s ∈ paragraphs sss :=
  mem_intercalate (List.mem_filter.mpr ⟨h, decide_eq_true (text_comment_ne body rest)⟩) hs

end Segment

namespace Schema

variable {s : Schema String}

/-- Definitions and references are named by plain identifiers. -/
def PlainNames (s : Schema String) : Prop :=
  (∀ d ∈ s.definitions, PropertyKey.isIdentifier d.name.toList = true) ∧
    ∀ r ∈ s.references, PropertyKey.isIdentifier r.name.toList = true

instance (s : Schema String) : Decidable s.PlainNames :=
  inferInstanceAs (Decidable (_ ∧ _))

theorem PlainNames.named {P : Char → Prop} (h : s.PlainNames) (hword : OfWords P) :
    s.NamedOver P where
  definition d hd c hc := hword c (word_of_isIdentifier (h.1 d hd) c hc)
  reference r hr c hc := hword c (word_of_isIdentifier (h.2 r hr) c hc)

section

variable {P : Char → Prop} (hword : OfWords P) (hbare : ∀ c, P c → Bare c)
  (hplanned : s.Planned s.planned) (h : s.NamedOver P)

include hword hbare hplanned h

theorem Planned.allSafe_block (engine : Engine) (packaging : Option Packaging) :
    AllSafe (Statement.blockSegments (s.statements engine packaging)) := by
  refine Statement.allSafe_blockSegments fun statement hs c hc => ?_
  obtain ⟨hmember, hlocal⟩ := hplanned.over_clauses hword h engine packaging statement hs c hc
  exact ⟨fun c hc => hbare c (hmember c hc), fun c hc => hbare c (hlocal c hc)⟩

/-- The members are safe, but for the comment of the base type. -/
theorem Planned.safe_members : ∀ ss ∈ s.memberSegments, AllSafe ss ∨
    ∃ rest, AllSafe rest ∧ s.resource?.isSome ∧ ss =
      .comment (baseComment s.apiVersion (s.spelling (supportSymbol "Resource"))).toList :: rest := by
  have hspells := (hplanned.spellsOver hword h).plain hbare
  rw [memberSegments, List.forall_mem_cons, List.forall_mem_append, List.forall_mem_map,
    List.forall_mem_map]
  refine ⟨.inl (allSafe_header _ (hspells.mono header_subset (List.nil_subset _))),
    fun r hr => .inr ?_, fun d hd => .inl (d.allSafe_segments
      (hspells.mono (definition_subset hd) (definition_references_subset hd)))⟩
  have hmetadata : s.metadata? = some r := Option.mem_toList.mp hr
  have hresource : s.resource?.isSome := by rw [← hplanned.metadata, hmetadata]; rfl
  obtain ⟨rest, hrest, he⟩ := marked_base s.apiVersion r
    (hspells.mono (base_subset hresource) (metadata_references_subset hmetadata))
  exact ⟨rest, hrest, hresource, he⟩

end

/-- The comment of the base type ends early exactly if the version it shows holds an end of
comment. -/
theorem infix_baseComment_iff (version : String) {resource : String} (h : Plain resource.toList) :
    endOfComment <:+: (baseComment version resource).toList ↔
      endOfComment <:+: version.toList := by
  have hplain {cs : List Char} (hc : Plain cs) : ¬ endOfComment <:+: cs := fun hi =>
    (hc '/' (hi.subset (by decide))).1 rfl
  have hlast : " resource\x7d in the `".toList.getLast? = some '`' := by decide
  rw [baseComment, String.toList_append, String.toList_append]
  constructor
  · intro hi
    by_contra hv
    refine not_infix_append (not_infix_append ?_ hv (.inl ?_)) (by decide) (.inr (by decide)) hi
    · rw [String.toList_append, String.toList_append]
      exact hplain (plain_append (plain_append (by decide) h) (by decide))
    · rw [String.toList_append, List.getLast?_append, hlast, Option.some_or]
      decide
  · intro hv
    exact hv.trans (List.infix_append _ _ _)

section

variable {P : Char → Prop} (hword : OfWords P) (hbare : ∀ c, P c → Bare c)
  (engine : Engine) (packaging : Option Packaging)

include hword hbare

theorem Planned.marked_segments (hplanned : s.Planned s.planned) (h : s.NamedOver P) :
    ∀ segment ∈ s.segments engine packaging, segment.Marked := by
  refine forall_intercalate (P := Segment.Marked) (safe_code (by decide)).1 fun ss hs => ?_
  rcases List.mem_cons.mp (List.mem_of_mem_filter hs) with rfl | hs
  · exact fun segment hm => (hplanned.allSafe_block hword hbare h engine packaging segment hm).1
  · rcases hplanned.safe_members hword hbare h ss hs with hsafe | ⟨rest, hsafe, -, rfl⟩
    · exact fun segment hm => (hsafe segment hm).1
    · exact List.forall_mem_cons.mpr ⟨trivial, fun segment hm => (hsafe segment hm).1⟩

theorem Planned.closed_segments_iff (hplanned : s.Planned s.planned) (h : s.NamedOver P) :
    (∀ segment ∈ s.segments engine packaging, segment.Closed) ↔
      (s.resource?.isSome → ¬ endOfComment <:+: s.apiVersion.toList) := by
  have hresource : Plain (s.spelling (supportSymbol "Resource")).toList :=
    ((hplanned.spellsOver hword h).plain hbare).support _ (by decide)
  constructor
  · intro hclosed hr
    obtain ⟨r, hmetadata⟩ := Option.isSome_iff_exists.mp (hplanned.metadata.trans hr)
    have hm : Segment.base s.apiVersion s.spelling r ∈ s.memberSegments := by
      simp [memberSegments, hmetadata]
    obtain ⟨rest, hbase⟩ : ∃ rest, Segment.base s.apiVersion s.spelling r =
        .comment (baseComment s.apiVersion (s.spelling (supportSymbol "Resource"))).toList :: rest :=
      ⟨_, rfl⟩
    rw [hbase] at hm
    have hmem := hclosed _ (mem_paragraphs (List.mem_cons_of_mem _ hm) List.mem_cons_self)
    exact fun hv => hmem ((infix_baseComment_iff s.apiVersion hresource).mpr hv)
  · intro hv
    refine forall_intercalate (P := Segment.Closed) trivial fun ss hs => ?_
    rcases List.mem_cons.mp (List.mem_of_mem_filter hs) with rfl | hs
    · exact fun segment hm => (hplanned.allSafe_block hword hbare h engine packaging segment hm).2
    · rcases hplanned.safe_members hword hbare h ss hs with hsafe | ⟨rest, hsafe, hr, rfl⟩
      · exact fun segment hm => (hsafe segment hm).2
      · rw [List.forall_mem_cons]
        refine ⟨fun hi => hv hr ?_, fun segment hm => (hsafe segment hm).2⟩
        exact (infix_baseComment_iff s.apiVersion hresource).mp hi

variable {engine packaging}

theorem tokens_iff_of_named {text : String} (h : (s.generate engine packaging).result = .ok text)
    (hn : s.NamedOver P) :
    Scan.tokens text = (s.segments engine packaging).flatMap Segment.tokens ↔
      (s.resource?.isSome → ¬ endOfComment <:+: s.apiVersion.toList) := by
  obtain ⟨hplanned, -⟩ := settled_rendered h
  have hmarked := hplanned.marked_segments hword hbare engine packaging hn
  rw [text_eq engine packaging h, tokens_text_iff hmarked]
  exact hplanned.closed_segments_iff hword hbare engine packaging hn

end

section

variable {engine : Engine} {packaging : Option Packaging}

theorem tokens_iff {text : String} (h : (s.generate engine packaging).result = .ok text)
    (hn : s.PlainNames) :
    Scan.tokens text = (s.segments engine packaging).flatMap Segment.tokens ↔
      (s.resource?.isSome → ¬ endOfComment <:+: s.apiVersion.toList) :=
  tokens_iff_of_named ofWords_bare (fun _ hc => hc) h (hn.named ofWords_bare)

/-- The text of a schema with plain names is the text of its segments, and it scans into them
exactly if no API version that the base type shows holds an end of comment. -/
theorem scan_exact {text : String} (h : (s.generate engine packaging).result = .ok text)
    (hn : s.PlainNames) :
    text = Segment.text (s.segments engine packaging) ∧
      (Scan.tokens text = (s.segments engine packaging).flatMap Segment.tokens ↔
        (s.resource?.isSome → ¬ endOfComment <:+: s.apiVersion.toList)) :=
  ⟨text_eq engine packaging h, tokens_iff h hn⟩

end

/-- A resource in a group of the given name, with marks in all of its texts. -/
def marked (group : String) : Schema String :=
  let metadata : Reference String :=
    { name := "ObjectMeta", scope := some { group := { directory := some "meta" }, version := "*/" } }
  let properties : List (Property String) :=
    [.mk "metadata" (.reference metadata) true none false,
      .mk "say \x22*/" (.string (some ["\x22", "/*"])) false (some "*/ and more") false]
  let gadget : Definition String :=
    { name := "Gadget", description := some "/* or */", value := .resource properties "\x22" }
  { group := { name := some group, directory := some "apps" }, version := "v1"
    definitions := [gadget] }

theorem scan_exact_marked : ∃ text, ((marked "apps").generate .deno none).result = .ok text ∧
    text = Segment.text ((marked "apps").segments .deno none) ∧
    Scan.tokens text = ((marked "apps").segments .deno none).flatMap Segment.tokens := by
  obtain ⟨text, h⟩ := (exists_text_iff .deno none (s := marked "apps")).mpr (by rfl)
  obtain ⟨htext, hscan⟩ := scan_exact h (by decide)
  exact ⟨text, h, htext, hscan.mpr fun _ => by decide⟩

/-- A group name ends the comment of the base type. -/
theorem marked_not_scanned : ∃ text, ((marked "a*/b").generate .deno none).result = .ok text ∧
    (marked "a*/b").PlainNames ∧
    Scan.tokens text ≠ ((marked "a*/b").segments .deno none).flatMap Segment.tokens := by
  obtain ⟨text, h⟩ := (exists_text_iff .deno none (s := marked "a*/b")).mpr (by rfl)
  have hn : (marked "a*/b").PlainNames := by decide
  exact ⟨text, h, hn, fun he => (tokens_iff h hn).mp he rfl (by decide)⟩

end Schema

end ApiTypes
