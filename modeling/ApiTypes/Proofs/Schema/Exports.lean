import ApiTypes.Proofs.Plan.Exports
import ApiTypes.Proofs.Schema.Alphabet

/-! What the statements of a module export. A statement exports the name behind its keywords,
and a definition exports its own name as it stands in the schema: an alias and a re-export as
a type, an object as an interface, a resource as an interface and a constant and, with a
suffix, as the type of its lists. Import statements export nothing. -/

namespace ApiTypes

open Text Scan Export Segment

variable {spelled : Symbol String → String}

/-! ### Statements -/

/-- A statement exports the name behind its keywords, and what follows it. -/
theorem exports_declaration (head word : String) (form : Form) {x s : String}
    (h : (word, form) ∈ heads)
    (hhead : head = "export " ++ word) (hx : Over (isNameChar · = true) x) {c : Char}
    {cs : List Char} (hs : s.toList = c :: cs) (hc : isNameChar c = false) (hbrace : c ≠ '\x7b')
    {ss : List Segment} {es : List Export} (hrest : Closes (.code s :: ss) es) :
    Exports (.code head :: .code x :: .code s :: ss) (⟨form, x⟩ :: es) := by
  intro us
  have hmore := hrest us
  rw [List.flatMap_cons, Segment.tokens, hs, List.map_cons, List.append_assoc,
    List.cons_append] at hmore
  have hread := exportsFrom_declaration word form h hx hc hbrace
    (cs.map Token.code ++ (ss.flatMap Segment.tokens ++ us))
  rw [hmore, ← List.append_assoc, ← codes_append, ← hhead] at hread
  rw [List.flatMap_cons, List.flatMap_cons, List.flatMap_cons, Segment.tokens, Segment.tokens,
    Segment.tokens, hs, List.append_assoc, List.append_assoc, List.append_assoc, List.map_cons,
    List.cons_append]
  exact hread

/-- The rest of a statement that holds no break but its semicolon. -/
theorem closes_rest {ss : List Segment} (h : Inner ss) {s : String}
    (hs : ∀ t ∈ codes s, t.isBreak = false) : Closes (ss ++ [.code (s ++ ";")]) [] := by
  refine h.closes_append fun us => ?_
  rw [List.flatMap_singleton, Segment.tokens, ← codes, codes_append, List.append_assoc,
    exportsFrom_false_append hs]
  rfl

/-- What the header of a module exports. -/
theorem exports_header (version : String) (hown : ∀ x, spelled (.declared x) = x) :
    Exports (Segment.header version spelled)
      [⟨.type, "APIVersion"⟩, ⟨.constant, "apiVersion"⟩] := by
  have hliteral : Inner [.code " = ", quote .unicode version] :=
    (inner_nil.quote .unicode version).code (by decide)
  have hconstant : Exports [.code "export const ", .code "apiVersion", .code ": ",
      .code "APIVersion", .code " = ", quote .unicode version, .code ";"]
        [⟨.constant, "apiVersion"⟩] := by
    refine exports_declaration "export const " "const " .constant (by decide) (by decide)
      (by decide) (c := ':') rfl (by decide) (by decide) ?_
    exact closes_rest (s := "") ((hliteral.code (s := "APIVersion") (by decide)).code
      (s := ": ") (by decide)) (by decide)
  have hrest : Closes [.code " = ", quote .unicode version, .code ";\nexport const ",
      .code "apiVersion", .code ": ", .code "APIVersion", .code " = ", quote .unicode version,
      .code ";"] [⟨.constant, "apiVersion"⟩] :=
    -- the constant begins behind the first semicolon
    hliteral.closes_append fun us => hconstant us
  have hexports := exports_declaration "export type " "type " .type
    (by decide) (by decide) (x := "APIVersion") (by decide) (c := ' ') rfl (by decide) (by decide)
    hrest
  have htype : spelled (ownSymbol versionType) = "APIVersion" := hown _
  have hvalue : spelled (ownSymbol versionValue) = "apiVersion" := hown _
  rw [Segment.header, htype, hvalue]
  exact hexports

/-- What the base type exports. -/
theorem exports_base (version : String) (metadata : Reference String)
    (hown : ∀ x, spelled (.declared x) = x)
    (h : SpellsOver (isNameChar · = true) spelled [versionType, resourceBase] [metadata]) :
    Exports (Segment.base version spelled metadata) [⟨.type, "Resource"⟩] := by
  have hscope := codes_name (h.support "NameScope" (by decide))
  have hresource := codes_name (h.support "Resource" (by decide))
  have hmetadata := inner_name (h.references metadata List.mem_cons_self)
  have hversion := codes_name (h.declared versionType List.mem_cons_self)
  have hrest : Closes ([.code "<K extends string, S extends ",
      .code (spelled (supportSymbol "NameScope")), .code " = ", quote .unicode defaultScope,
      .code "> = ", .code (spelled (supportSymbol "Resource")), .code "<",
      .code (spelled (ownSymbol versionType)), .code ", K, S, ", .code (spelled metadata.symbol)] ++
      [.code (">" ++ ";")]) [] := by
    have happlied := (((hmetadata.code (s := ", K, S, ") (by decide)).code hversion).code
      (s := "<") (by decide)).code hresource
    have hdefault := ((happlied.code (s := "> = ") (by decide)).quote .unicode defaultScope).code
      (s := " = ") (by decide)
    exact closes_rest ((hdefault.code hscope).code (by decide)) (by decide)
  have hexports := exports_declaration "export type " "type " .type
    (by decide) (by decide) (x := "Resource") (by decide) (c := '<') rfl (by decide) (by decide)
    hrest
  have hbase : spelled (ownSymbol resourceBase) = "Resource" := hown _
  intro us
  rw [Segment.base, hbase]
  -- the comment and the newline behind it are gaps
  exact hexports us

/-! ### Definitions -/

namespace Definition

variable (d : Definition String)

/-- The public names of a definition. -/
def publicNames : List Export :=
  match d.value with
  | .resource _ _ => [⟨.interface, d.name⟩, ⟨.constant, d.name⟩, ⟨.type, d.name ++ "List"⟩]
  | .object _ _ => [⟨.interface, d.name⟩]
  | _ => [⟨.type, d.name⟩]

section

variable (hown : ∀ x, spelled (.declared x) = x) (hname : Over (isNameChar · = true) d.name)

include hown hname

/-- A statement of a definition exports its name behind its documentation. -/
theorem exports_statement (head word : String) (form : Form) {s : String} (h : (word, form) ∈ heads)
    (hhead : head = "export " ++ word) {c : Char} {cs : List Char} (hs : s.toList = c :: cs)
    (hc : isNameChar c = false) (hbrace : c ≠ '\x7b') {ss : List Segment}
    (hrest : Closes (.code s :: ss) []) :
    Exports (d.docSegments ++ .code head :: .code (spelled d.symbol) :: .code s :: ss)
      [⟨form, d.name⟩] := by
  have hsymbol : spelled d.symbol = d.name := hown d.name
  rw [hsymbol]
  exact (exports_doc d.description d.deprecated 0).append
    (exports_declaration head word form h hhead hname hs hc hbrace hrest)

theorem exports_aliasSegments
    (h : ∀ r ∈ d.value.references, Over (isNameChar · = true) (spelled r.symbol)) :
    Exports (d.aliasSegments spelled) [⟨.type, d.name⟩] := by
  have hvalue := (TypeExpr.silent_segments d.value h).closes_append closes_semicolon
    goesOn_semicolon
  have hrest : Inner [.code " = "] := inner_code (by decide)
  have hexports := d.exports_statement hown hname "export type " "type " .type (by decide)
    (by decide) (c := ' ') rfl (by decide) (by decide)
    (hrest.closes_append hvalue)
  rw [aliasSegments, List.append_assoc, List.append_assoc]
  exact hexports

theorem exports_reexportSegments (target : Reference String)
    (h : Over (isNameChar · = true) (spelled target.symbol)) :
    Exports (d.reexportSegments spelled target) [⟨.type, d.name⟩] := by
  have hsymbol : spelled d.symbol = d.name := hown d.name
  have hclause : Exports [.code "export type \x7b ", .code (spelled target.symbol),
      .code (if spelled target.symbol = d.name then "" else " as " ++ d.name), .code " \x7d;"]
        [⟨.type, d.name⟩] := by
    intro us
    have hread := exportsFrom_clause h hname us
    simp only [List.flatMap_cons, List.flatMap_nil, List.append_nil, List.append_assoc]
    exact hread
  rw [reexportSegments, hsymbol, List.append_assoc, List.append_assoc]
  exact (exports_doc d.description d.deprecated 0).append hclause

theorem exports_interfaceSegments (properties : List (Property String))
    (parents : List (Reference String))
    (h : ∀ r ∈ parents ++ Property.allReferences properties,
      Over (isNameChar · = true) (spelled r.symbol)) :
    Exports (d.interfaceSegments spelled properties parents) [⟨.interface, d.name⟩] := by
  rw [List.forall_mem_append] at h
  have hbody := closes_braced (Property.exports_allSegments properties h.2)
  have hblank : Inner [.code " "] := inner_code (by decide)
  rw [interfaceSegments, headingSegments]
  cases parents with
  | nil =>
    have hexports := d.exports_statement hown hname "export interface " "interface " .interface
      (by decide) (by decide) (c := ' ') rfl (by decide)
      (by decide) (hblank.closes_append hbody)
    simp only [List.isEmpty_nil, if_true, List.append_nil, List.append_assoc]
    exact hexports
  | cons r rest =>
    have hparents : Silent (intercalate ", " ((r :: rest).map (Reference.segments spelled))) := by
      have hcomma : GoesOn [.code ", "] := fun us =>
        neutral_code (c := ',') (by decide) (by decide) (by decide) (.code ' ' :: us)
      refine silent_intercalate (inner_code (by decide)) hcomma ?_
      rw [List.forall_mem_map]
      exact fun r hr => (inner_name (h.1 r hr)).silent
    have hblock : GoesOn ([.code " "] ++ braced (Property.allSegments spelled properties)) :=
      fun us => neutral_space (goesOn_braced _ us)
    have hextends : Inner [.code " extends "] := inner_code (by decide)
    have hexports := d.exports_statement hown hname "export interface " "interface " .interface
      (by decide) (by decide) (c := ' ') rfl (by decide)
      (by decide) (hextends.closes_append (hparents.closes_append (hblank.closes_append hbody) hblock))
    simp only [List.isEmpty_cons, Bool.false_eq_true, if_false, List.append_assoc]
    exact hexports

theorem exports_resourceSegments (properties : List (Property String)) (scope : String)
    (h : SpellsOver (isNameChar · = true) spelled [d.name, resourceBase]
      (Property.allReferences (body properties))) :
    Exports (d.resourceSegments spelled properties scope) [⟨.interface, d.name⟩] := by
  have hbody := closes_braced (Property.exports_allSegments (body properties) h.references)
  have hbase := codes_name (h.declared resourceBase (by simp))
  have hscope : Inner (if scope = defaultScope then [] else [.code ", ", quote .unicode scope]) := by
    split
    next => exact inner_nil
    next => exact (inner_nil.quote .unicode scope).code (by decide)
  have hangle : Inner [.code "> "] := inner_code (by decide)
  have hopen : Inner [.code " extends ", .code (spelled (ownSymbol resourceBase)), .code "<",
      quote .unicode (spelled d.symbol)] :=
    (((inner_nil.quote .unicode (spelled d.symbol)).code (s := "<") (by decide)).code hbase).code
      (by decide)
  have hexports := d.exports_statement hown hname "export interface " "interface " .interface
      (by decide) (by decide) (c := ' ') rfl (by decide)
    (by decide) (hopen.closes_append (hscope.closes_append (hangle.closes_append hbody)))
  rw [resourceSegments, List.append_assoc, List.append_assoc, List.append_assoc]
  exact hexports

theorem exports_factorySegments (scope : String)
    (h : SpellsOver (isNameChar · = true) spelled [d.name, versionValue] []) :
    Exports (d.factorySegments spelled scope) [⟨.constant, d.name⟩] := by
  have hsymbol : spelled d.symbol = d.name := hown d.name
  have hvalue := codes_name (h.declared versionValue (by simp))
  have hfactory := codes_name (h.support "factory" (by decide))
  have hinner : Inner [.code " = ", .code (spelled (supportSymbol "factory")), .code "<",
      .code d.name, .code ">(", .code (spelled (ownSymbol versionValue)), .code ", ",
      quote .unicode d.name, .code ", ", quote .unicode scope] := by
    have harguments := (((inner_nil.quote .unicode scope).code (s := ", ") (by decide)).quote
      .unicode d.name).code (s := ", ") (by decide)
    have hcall := ((harguments.code hvalue).code (s := ">(") (by decide)).code (codes_name hname)
    exact ((hcall.code (s := "<") (by decide)).code hfactory).code (by decide)
  rw [factorySegments, hsymbol]
  exact exports_declaration "export const " "const " .constant (by decide) (by decide) hname
    (c := ' ') rfl (by decide) (by decide) (closes_rest (s := ")") hinner (by decide))

theorem exports_listSegments
    (h : SpellsOver (isNameChar · = true) spelled [d.name, d.listName] []) :
    Exports (d.listSegments spelled) [⟨.type, d.name ++ "List"⟩] := by
  have hsymbol : spelled d.symbol = d.name := hown d.name
  have hsupport := codes_name (h.support "ResourceList" (by decide))
  have hlist : Over (isNameChar · = true) d.listName := by
    rw [← hown d.listName]
    exact h.declared d.listName (by simp)
  have hinner : Inner [.code " = ", .code (spelled (supportSymbol "ResourceList")), .code "<",
      .code d.name] :=
    (((inner_name hname).code (s := "<") (by decide)).code hsupport).code (by decide)
  rw [listSegments, hsymbol, hown]
  exact exports_declaration "export type " "type " .type (by decide) (by decide) hlist
    (c := ' ') rfl (by decide) (by decide) (closes_rest (s := ">") hinner (by decide))

end

/-- The statements of a definition export its public names. -/
theorem exports_segments (hown : ∀ x, spelled (.declared x) = x)
    (h : SpellsOver (isNameChar · = true) spelled (d.declares ++ d.outline.lookups) d.references) :
    Exports (d.segments spelled) d.publicNames := by
  have hname : Over (isNameChar · = true) d.name := by
    rw [← hown d.name]
    refine h.declared d.name (List.mem_append_left _ ?_)
    rw [declares]
    split <;> exact List.mem_cons_self
  rw [declares, outline, references] at h
  rw [segments, publicNames]
  cases hv : d.value with
  | resource properties scope =>
    simp only [hv, TypeExpr.isResource, if_true] at h
    have hgap : ∀ t ∈ codes "\n\n", t.isGap = true := by decide
    have hparts := exports_intercalate hgap
      (.cons (d.exports_resourceSegments hown hname properties scope
          (h.mono (by simp) (List.Subset.refl _)))
        (.cons (d.exports_factorySegments hown hname scope (h.mono (by simp) (List.nil_subset _)))
          (.cons (d.exports_listSegments hown hname (h.mono (by simp) (List.nil_subset _))) .nil)))
    exact hparts
  | object properties parents =>
    simp only [hv, TypeExpr.isResource, TypeExpr.references] at h
    exact d.exports_interfaceSegments hown hname properties parents h.references
  | reference target =>
    simp only [hv, TypeExpr.isResource, TypeExpr.references] at h
    exact d.exports_reexportSegments hown hname target (h.references target List.mem_cons_self)
  | string | integer | float | boolean | unknown | array | map | union | optional =>
    simp only [hv, TypeExpr.isResource] at h
    refine d.exports_aliasSegments hown hname ?_
    rw [hv]
    exact h.references

end Definition

/-! ### Modules -/

theorem Clause.inner_text {c : Clause} (hm : Over (isNameChar · = true) c.member)
    (hl : Over (isNameChar · = true) c.localName) (typesOnly : Bool) :
    Inner [.code (c.text typesOnly)] := by
  have hshown : ∀ t ∈ codes (if c.localName = c.member then c.localName
      else c.member ++ " as " ++ c.localName), t.isBreak = false := by
    split
    next => exact codes_name hl
    next =>
      rw [codes_append, codes_append]
      exact List.forall_mem_append.mpr
        ⟨List.forall_mem_append.mpr ⟨codes_name hm, by decide⟩, codes_name hl⟩
  refine inner_code ?_
  rw [text]
  split
  next =>
    rw [codes_append]
    exact List.forall_mem_append.mpr ⟨by decide, hshown⟩
  next => exact hshown

namespace Statement

/-- An import statement exports nothing. -/
theorem exports_segments (s : Statement) (h : ∀ c ∈ s.clauses,
    Over (isNameChar · = true) c.member ∧ Over (isNameChar · = true) c.localName) :
    Exports s.segments [] := by
  have hclauses : ∀ ss ∈ s.clauses.map fun c => [Segment.code (c.text (s.clauses.all (·.typeOnly)))],
      Silent ss := by
    rw [List.forall_mem_map]
    exact fun c hc => (Clause.inner_text (h c hc).1 (h c hc).2 _).silent
  have hcomma : GoesOn [.code ", "] := fun us =>
    neutral_code (c := ',') (by decide) (by decide) (by decide) (.code ' ' :: us)
  have hsource : Closes [.code " \x7d from ", quote .ascii s.path, .code ";"] [] := fun us => rfl
  have hgoesOn : GoesOn [.code " \x7d from ", quote .ascii s.path, .code ";"] := fun us =>
    neutral_space (neutral_of_isBreak (by decide) _)
  have hrest := (silent_intercalate (inner_code (by decide)) hcomma hclauses).closes_append hsource
    hgoesOn
  intro us
  rw [segments, List.append_assoc, List.flatMap_append, List.flatMap_singleton, List.append_assoc]
  split
  next =>
    rw [← List.nil_append (exportsFrom true us), ← hrest us]
    have hinner : ∀ t ∈ codes "mport type \x7b ", t.isBreak = false := by decide
    exact exportsFrom_false_append hinner _
  next =>
    rw [← List.nil_append (exportsFrom true us), ← hrest us]
    have hinner : ∀ t ∈ codes "mport \x7b ", t.isBreak = false := by decide
    exact exportsFrom_false_append hinner _

/-- Neither does a block of them. -/
theorem exports_blockSegments {ss : List Statement} (h : ∀ s ∈ ss, Exports s.segments []) :
    Exports (blockSegments ss) [] := by
  have hgroup : ∀ g ⊆ ss, Exports (groupSegments g) [] := by
    intro g hg
    refine exports_intercalate_nil (by decide) ?_
    rw [List.forall_mem_map]
    exact fun s hs => h s (hg (List.mem_mergeSort.mp hs))
  rw [blockSegments, List.partition_eq_filter_filter]
  refine exports_intercalate_nil (by decide) ?_
  rw [List.forall_mem_map]
  intro g hg
  rcases List.mem_cons.mp (List.mem_of_mem_filter hg) with rfl | hg
  · exact hgroup _ (List.filter_subset_self _)
  · obtain rfl := List.mem_singleton.mp hg
    exact hgroup _ (List.filter_subset_self _)

end Statement

namespace Segment

/-- A row that writes nothing holds no tokens. -/
theorem tokens_eq_nil {ss : List Segment} (h : text ss = "") : ss.flatMap Segment.tokens = [] := by
  have hchars : ss.flatMap chars = [] := by
    have hl := congrArg String.toList h
    rwa [text, String.toList_ofList] at hl
  rw [List.flatMap_eq_nil_iff] at hchars ⊢
  intro s hs
  have hempty := hchars s hs
  cases s with
  | code s =>
    rw [chars] at hempty
    rw [Segment.tokens, hempty, List.map_nil]
  | comment _ | literal _ => cases hempty

/-- So a row that is left out exports nothing. -/
theorem exists_kept {sss : List (List Segment)} {ess : List (List Export)}
    (h : List.Forall₂ Exports sss ess) :
    ∃ kept, List.Forall₂ Exports (sss.filter fun ss => text ss ≠ "") kept ∧
      kept.flatten = ess.flatten := by
  induction h with
  | nil => exact ⟨[], .nil, rfl⟩
  | @cons ss es sss ess hs _ ih =>
    obtain ⟨kept, hkept, hflat⟩ := ih
    by_cases ht : text ss = ""
    · have hnone := hs []
      rw [tokens_eq_nil ht] at hnone
      have hes : es = [] := by simpa [exportsFrom] using hnone
      rw [List.filter_cons_of_neg (by simpa using ht), hes]
      exact ⟨kept, hkept, hflat⟩
    · rw [List.filter_cons_of_pos (by simpa using ht)]
      exact ⟨es :: kept, .cons hs hkept, by rw [List.flatten_cons, hflat, List.flatten_cons]⟩

theorem exports_paragraphs {sss : List (List Segment)} {ess : List (List Export)}
    (h : List.Forall₂ Exports sss ess) : Exports (paragraphs sss) ess.flatten := by
  obtain ⟨kept, hrows, hflat⟩ := exists_kept h
  rw [← hflat]
  exact exports_intercalate (by decide) hrows

end Segment

end ApiTypes
