import ApiTypes.Proofs.Plan.Statements
import ApiTypes.Proofs.Text.Safe

/-! What plans write is safe. As long as names are spelled without slashes and quotes, no
description, choice, key, scope or version that a type or a declaration is written from
can open or end a comment or a literal. The comment of the base type is the one place
where a text stands as it is. -/

namespace ApiTypes

open Text Scan

/-- A spelling that shows some declarations, some references and the support library without
slashes and quotes. -/
structure SpellsPlain (spelled : Symbol String → String) (declared : List String)
    (rs : List (Reference String)) : Prop where
  declared : ∀ x ∈ declared, Plain (spelled (.declared x)).toList
  support : ∀ member ∈ ["Resource", "NameScope", "factory", "ResourceList"],
    Plain (spelled (supportSymbol member)).toList
  references : ∀ r ∈ rs, Plain (spelled r.symbol).toList

theorem SpellsPlain.mono {spelled : Symbol String → String} {ds ds' : List String}
    {rs rs' : List (Reference String)} (h : SpellsPlain spelled ds rs) (hd : ds' ⊆ ds)
    (hr : rs' ⊆ rs) : SpellsPlain spelled ds' rs' where
  declared x hx := h.declared x (hd hx)
  support := h.support
  references r hm := h.references r (hr hm)

namespace Segment

/-- Segments that are all safe. -/
def AllSafe (ss : List Segment) : Prop :=
  ∀ s ∈ ss, s.Safe

variable {ss ss' : List Segment}

theorem allSafe_nil : AllSafe [] :=
  List.forall_mem_nil _

theorem AllSafe.append (h : AllSafe ss) (h' : AllSafe ss') : AllSafe (ss ++ ss') :=
  List.forall_mem_append.mpr ⟨h, h'⟩

theorem AllSafe.cons {s : Segment} (hs : s.Safe) (h : AllSafe ss) : AllSafe (s :: ss) :=
  List.forall_mem_cons.mpr ⟨hs, h⟩

theorem allSafe_code {s : String} (h : Plain s.toList) : AllSafe [.code s] :=
  .cons (safe_code h) allSafe_nil

theorem allSafe_choices (cs : Option (List String)) : AllSafe (choices cs) := by
  rcases cs with _ | _ | ⟨c, cs⟩
  · exact allSafe_code (by decide)
  · exact allSafe_code (by decide)
  · refine forall_intercalate (safe_code (by decide)) fun ss hm => ?_
    obtain ⟨c, -, rfl⟩ := List.mem_map.mp hm
    exact AllSafe.cons (safe_quote .unicode c) allSafe_nil

theorem allSafe_braced {sss : List (List Segment)} (h : ∀ ss ∈ sss, AllSafe ss) :
    AllSafe (braced sss) := by
  rw [braced]
  split
  next => exact allSafe_code (by decide)
  next =>
    exact .cons (safe_code (by decide)) (.append (forall_intercalate (safe_code (by decide)) h)
      (allSafe_code (by decide)))

end Segment

open Segment

variable {spelled : Symbol String → String}

theorem allSafe_references {rs : List (Reference String)}
    (h : ∀ r ∈ rs, Plain (spelled r.symbol).toList) :
    ∀ ss ∈ rs.map (Reference.segments spelled), AllSafe ss := by
  intro ss hm
  obtain ⟨r, hr, rfl⟩ := List.mem_map.mp hm
  exact allSafe_code (h r hr)

mutual

theorem TypeExpr.allSafe_segments (t : TypeExpr String)
    (h : ∀ r ∈ t.references, Plain (spelled r.symbol).toList) : AllSafe (t.segments spelled) := by
  cases t with
  | string choices =>
    rw [TypeExpr.segments]
    exact allSafe_choices choices
  | integer | float | boolean | unknown =>
    rw [TypeExpr.segments]
    exact allSafe_code (by decide)
  | array items =>
    rw [TypeExpr.segments]
    rw [TypeExpr.references] at h
    exact .append (.append (allSafe_code (by decide)) (TypeExpr.allSafe_segments items h))
      (allSafe_code (by decide))
  | map values =>
    rw [TypeExpr.segments]
    rw [TypeExpr.references] at h
    exact .append (.append (allSafe_code (by decide)) (TypeExpr.allSafe_segments values h))
      (allSafe_code (by decide))
  | optional value =>
    rw [TypeExpr.segments]
    rw [TypeExpr.references] at h
    exact .append (TypeExpr.allSafe_segments value h) (allSafe_code (by decide))
  | union variants =>
    rw [TypeExpr.segments]
    rw [TypeExpr.references] at h
    exact forall_intercalate (safe_code (by decide)) (TypeExpr.allSafe_allSegments variants h)
  | reference target =>
    rw [TypeExpr.segments]
    rw [TypeExpr.references] at h
    exact allSafe_code (h target (List.mem_singleton_self target))
  | object properties parents =>
    rw [TypeExpr.segments]
    rw [TypeExpr.references, List.forall_mem_append] at h
    refine forall_intercalate (safe_code (by decide)) ?_
    rw [List.forall_mem_append, List.forall_mem_singleton]
    exact ⟨allSafe_references h.1, allSafe_braced (Property.allSafe_allSegments properties h.2)⟩
  | resource properties scope =>
    rw [TypeExpr.segments]
    exact allSafe_nil

theorem TypeExpr.allSafe_allSegments (ts : List (TypeExpr String))
    (h : ∀ r ∈ TypeExpr.allReferences ts, Plain (spelled r.symbol).toList) :
    ∀ ss ∈ TypeExpr.allSegments spelled ts, AllSafe ss := by
  cases ts with
  | nil =>
    rw [TypeExpr.allSegments]
    exact List.forall_mem_nil _
  | cons t rest =>
    rw [TypeExpr.allReferences, List.forall_mem_append] at h
    rw [TypeExpr.allSegments, List.forall_mem_cons]
    exact ⟨TypeExpr.allSafe_segments t h.1, TypeExpr.allSafe_allSegments rest h.2⟩

theorem Property.allSafe_segments (p : Property String)
    (h : ∀ r ∈ p.references, Plain (spelled r.symbol).toList) : AllSafe (p.segments spelled) := by
  cases p with
  | mk name value required description deprecated =>
    rw [Property.references] at h
    rw [Property.segments]
    have hmark : AllSafe [.code (if required then ": " else "?: ")] := by
      cases required <;> exact allSafe_code (by decide)
    have hhead : AllSafe
        [.code "  ", Segment.key name, .code (if required then ": " else "?: ")] :=
      .cons (safe_code (by decide)) (.cons (safe_key name) hmark)
    have hnull : AllSafe (if required || value.isOptional then [] else [.code " | null"]) := by
      split
      next => exact allSafe_nil
      next => exact allSafe_code (by decide)
    exact .append (.append (.append (safe_doc description deprecated 1) hhead)
      (.append (TypeExpr.allSafe_segments value h) hnull)) (allSafe_code (by decide))

theorem Property.allSafe_allSegments (ps : List (Property String))
    (h : ∀ r ∈ Property.allReferences ps, Plain (spelled r.symbol).toList) :
    ∀ ss ∈ Property.allSegments spelled ps, AllSafe ss := by
  cases ps with
  | nil =>
    rw [Property.allSegments]
    exact List.forall_mem_nil _
  | cons p rest =>
    rw [Property.allReferences, List.forall_mem_append] at h
    rw [Property.allSegments, List.forall_mem_cons]
    exact ⟨Property.allSafe_segments p h.1, Property.allSafe_allSegments rest h.2⟩

end

/-! ### Declarations -/

variable {declared : List String} {rs : List (Reference String)}

theorem SpellsPlain.safe_own (h : SpellsPlain spelled declared rs) {x : String}
    (hx : x ∈ declared) : (Segment.code (spelled (.declared x))).Safe :=
  safe_code (h.declared x hx)

theorem SpellsPlain.safe_support (h : SpellsPlain spelled declared rs) {member : String}
    (hm : member ∈ ["Resource", "NameScope", "factory", "ResourceList"]) :
    (Segment.code (spelled (supportSymbol member))).Safe :=
  safe_code (h.support member hm)

theorem allSafe_header (version : String)
    (h : SpellsPlain spelled [versionType, versionValue] rs) :
    AllSafe (Segment.header version spelled) := by
  have htype : (Segment.code (spelled (ownSymbol versionType))).Safe :=
    h.safe_own List.mem_cons_self
  have hvalue : (Segment.code (spelled (ownSymbol versionValue))).Safe :=
    h.safe_own (List.mem_cons_of_mem _ List.mem_cons_self)
  simp only [AllSafe, Segment.header, List.forall_mem_cons]
  exact ⟨safe_code (by decide), htype, safe_code (by decide), safe_quote .unicode version,
    safe_code (by decide), hvalue, safe_code (by decide), htype, safe_code (by decide),
    safe_quote .unicode version, safe_code (by decide), allSafe_nil⟩

/-- The base type is safe behind its comment. -/
theorem marked_base (version : String) (metadata : Reference String)
    (h : SpellsPlain spelled [versionType, resourceBase] [metadata]) :
    ∃ rest, AllSafe rest ∧ Segment.base version spelled metadata =
      .comment (Segment.baseComment version (spelled (supportSymbol "Resource"))).toList :: rest := by
  have htype : (Segment.code (spelled (ownSymbol versionType))).Safe :=
    h.safe_own List.mem_cons_self
  have hbase : (Segment.code (spelled (ownSymbol resourceBase))).Safe :=
    h.safe_own (List.mem_cons_of_mem _ List.mem_cons_self)
  have hresource : (Segment.code (spelled (supportSymbol "Resource"))).Safe :=
    h.safe_support (by decide)
  have hscope : (Segment.code (spelled (supportSymbol "NameScope"))).Safe :=
    h.safe_support (by decide)
  have hmetadata : (Segment.code (spelled metadata.symbol)).Safe :=
    safe_code (h.references metadata List.mem_cons_self)
  refine ⟨_, ?_, rfl⟩
  simp only [AllSafe, Reference.segments, List.append_eq, List.cons_append, List.nil_append,
    List.forall_mem_cons]
  exact ⟨safe_code (by decide), hbase, safe_code (by decide), hscope, safe_code (by decide),
    safe_quote .unicode defaultScope, safe_code (by decide), hresource, safe_code (by decide),
    htype, safe_code (by decide), hmetadata, safe_code (by decide), allSafe_nil⟩

namespace Definition

variable (d : Definition String)

theorem allSafe_docSegments : AllSafe d.docSegments :=
  safe_doc d.description d.deprecated 0

theorem allSafe_aliasSegments (h : SpellsPlain spelled [d.name] d.value.references) :
    AllSafe (d.aliasSegments spelled) := by
  have hname : (Segment.code (spelled d.symbol)).Safe := h.safe_own List.mem_cons_self
  have hopen : AllSafe [.code "export type ", .code (spelled d.symbol), .code " = "] :=
    .cons (safe_code (by decide)) (.cons hname (allSafe_code (by decide)))
  exact ((d.allSafe_docSegments.append hopen).append
    (TypeExpr.allSafe_segments d.value h.references)).append (allSafe_code (by decide))

theorem allSafe_reexportSegments {target : Reference String}
    (h : SpellsPlain spelled [d.name] [target]) : AllSafe (d.reexportSegments spelled target) := by
  have hclause : (Segment.code (if spelled target.symbol = spelled d.symbol then ""
      else " as " ++ spelled d.symbol)).Safe := by
    refine safe_code ?_
    split
    next => decide
    next =>
      rw [String.toList_append]
      exact plain_append (by decide) (h.declared d.name List.mem_cons_self)
  exact ((d.allSafe_docSegments.append (allSafe_code (by decide))).append
    (allSafe_code (h.references target List.mem_cons_self))).append
      (.cons hclause (allSafe_code (by decide)))

theorem allSafe_headingSegments {parents : List (Reference String)}
    (h : ∀ r ∈ parents, Plain (spelled r.symbol).toList) :
    AllSafe (headingSegments spelled parents) := by
  rw [headingSegments]
  split
  next => exact allSafe_nil
  next =>
    exact (allSafe_code (by decide)).append
      (forall_intercalate (safe_code (by decide)) (allSafe_references h))

theorem allSafe_interfaceSegments {properties : List (Property String)}
    {parents : List (Reference String)}
    (h : SpellsPlain spelled [d.name] (parents ++ Property.allReferences properties)) :
    AllSafe (d.interfaceSegments spelled properties parents) := by
  have hname : (Segment.code (spelled d.symbol)).Safe := h.safe_own List.mem_cons_self
  have hrefs := List.forall_mem_append.mp h.references
  have hopen : AllSafe [.code "export interface ", .code (spelled d.symbol)] :=
    .cons (safe_code (by decide)) (.cons hname allSafe_nil)
  exact (((d.allSafe_docSegments.append hopen).append (allSafe_headingSegments hrefs.1)).append
    (allSafe_code (by decide))).append
      (allSafe_braced (Property.allSafe_allSegments properties hrefs.2))

theorem allSafe_resourceSegments {properties : List (Property String)} (scope : String)
    (h : SpellsPlain spelled [d.name, resourceBase] (Property.allReferences (body properties))) :
    AllSafe (d.resourceSegments spelled properties scope) := by
  have hname : (Segment.code (spelled d.symbol)).Safe := h.safe_own List.mem_cons_self
  have hbase : (Segment.code (spelled (ownSymbol resourceBase))).Safe :=
    h.safe_own (List.mem_cons_of_mem _ List.mem_cons_self)
  have hopen : AllSafe [.code "export interface ", .code (spelled d.symbol), .code " extends ",
      .code (spelled (ownSymbol resourceBase)), .code "<",
      Segment.quote .unicode (spelled d.symbol)] :=
    .cons (safe_code (by decide)) (.cons hname (.cons (safe_code (by decide)) (.cons hbase
      (.cons (safe_code (by decide)) (.cons (safe_quote ..) allSafe_nil)))))
  have hscope : AllSafe (if scope = defaultScope then []
      else [.code ", ", Segment.quote .unicode scope]) := by
    split
    next => exact allSafe_nil
    next => exact .cons (safe_code (by decide)) (.cons (safe_quote ..) allSafe_nil)
  exact (((d.allSafe_docSegments.append hopen).append hscope).append
    (allSafe_code (by decide))).append
      (allSafe_braced (Property.allSafe_allSegments (body properties) h.references))

theorem allSafe_factorySegments (scope : String) (h : SpellsPlain spelled [d.name, versionValue] rs) :
    AllSafe (d.factorySegments spelled scope) := by
  have hname : (Segment.code (spelled d.symbol)).Safe := h.safe_own List.mem_cons_self
  have hvalue : (Segment.code (spelled (ownSymbol versionValue))).Safe :=
    h.safe_own (List.mem_cons_of_mem _ List.mem_cons_self)
  have hfactory : (Segment.code (spelled (supportSymbol "factory"))).Safe :=
    h.safe_support (by decide)
  simp only [AllSafe, factorySegments, List.forall_mem_cons]
  exact ⟨safe_code (by decide), hname, safe_code (by decide), hfactory, safe_code (by decide),
    hname, safe_code (by decide), hvalue, safe_code (by decide), safe_quote .., safe_code (by decide),
    safe_quote .., safe_code (by decide), allSafe_nil⟩

theorem allSafe_listSegments (h : SpellsPlain spelled [d.name, d.listName] rs) :
    AllSafe (d.listSegments spelled) := by
  have hname : (Segment.code (spelled d.symbol)).Safe := h.safe_own List.mem_cons_self
  have hlist : (Segment.code (spelled (.declared d.listName))).Safe :=
    h.safe_own (List.mem_cons_of_mem _ List.mem_cons_self)
  have hlisting : (Segment.code (spelled (supportSymbol "ResourceList"))).Safe :=
    h.safe_support (by decide)
  simp only [AllSafe, listSegments, List.forall_mem_cons]
  exact ⟨safe_code (by decide), hlist, safe_code (by decide), hlisting, safe_code (by decide), hname,
    safe_code (by decide), allSafe_nil⟩

/-- The statements of a definition are safe. -/
theorem allSafe_segments
    (h : SpellsPlain spelled (d.declares ++ d.outline.lookups) d.references) :
    AllSafe (d.segments spelled) := by
  rw [declares, outline, references] at h
  rw [segments]
  cases hv : d.value with
  | resource properties scope =>
    simp only [hv, TypeExpr.isResource, if_true] at h
    refine forall_intercalate (safe_code (by decide)) ?_
    rw [List.forall_mem_cons, List.forall_mem_cons, List.forall_mem_singleton]
    exact ⟨d.allSafe_resourceSegments scope (h.mono (by simp) (List.Subset.refl _)),
      d.allSafe_factorySegments scope (h.mono (by simp) (List.Subset.refl _)),
      d.allSafe_listSegments (h.mono (by simp) (List.Subset.refl _))⟩
  | object properties parents =>
    simp only [hv, TypeExpr.isResource, TypeExpr.references] at h
    exact d.allSafe_interfaceSegments (h.mono (by simp) (List.Subset.refl _))
  | reference target =>
    simp only [hv, TypeExpr.isResource, TypeExpr.references] at h
    exact d.allSafe_reexportSegments (h.mono (by simp) (List.Subset.refl _))
  | string | integer | float | boolean | unknown | array | map | union | optional =>
    simp only [hv, TypeExpr.isResource] at h
    refine d.allSafe_aliasSegments (h.mono (by simp) ?_)
    rw [hv]
    exact List.Subset.refl _

end Definition

end ApiTypes
