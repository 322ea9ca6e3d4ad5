import ApiTypes.Proofs.Schema.Checks
import Mathlib.Data.Set.List

/-! What loading rejects. A document is loaded exactly if all its checks are passed; if not, loading
stops at the first one that is not, and says what is wrong there and in which definition and
property. This holds of all documents whose lists are lists, whose groups and metadata are objects
and whose packages are texts, which loading does not look into. -/

namespace ApiTypes

open Document (require elementsOf)
open Loading Traversal

theorem Definition.checked (doc : Document) :
    Checked (Definition.checks doc) (fun _ => True) (Definition.ofDocument? doc) := by
  rw [checks, ofDocument?]
  refine Checked.require_bind ?_
  rintro ⟨name, _⟩ _
  refine Checked.require_bind ?_
  rintro ⟨v, _⟩ _
  exact (TypeExpr.checked [.definition name] v).done

/-- A dependency keeps its package. -/
theorem Dependency.checked (doc : Document) :
    Checked (Dependency.checks doc) (fun d => doc.field? "package" = some d.package)
      (Dependency.ofDocument? doc) := by
  rw [checks, ofDocument?]
  refine Checked.require_field.bind_cons ?_
  rintro ⟨package, _⟩ hpackage
  exact Checked.require_field.map fun _ _ => hpackage

/-! ### Packages that differ -/

theorem packages_eq_of_forall₂ {docs : List Document} {ds : List (Dependency Document)}
    (h : List.Forall₂ (fun doc d => doc.field? "package" = some d.package) docs ds) :
    docs.filterMap (fun doc => doc.field? "package") = ds.map (·.package) := by
  induction h with
  | nil => rfl
  | cons hd _ ih => simp only [List.filterMap_cons, hd, ih, List.map_cons]

/-- Whether packages are distinct hangs on the packages alone. -/
theorem requireDistinct_congr {ds ds' : List (Dependency Document)}
    (h : ds.map (·.package) = ds'.map (·.package)) : requireDistinct ds = requireDistinct ds' := by
  rw [requireDistinct, requireDistinct, h]

theorem checked_requireDistinct {doc : Document} {ps : List String}
    (hps : doc.packages = ps.map .text) {ds : List (Dependency Document)}
    (hds : doc.packages = ds.map (·.package)) :
    Checked [⟨[], doc, .distinct⟩] (fun _ => True) (requireDistinct ds) := by
  have htexts : doc.packages.filterMap Document.text? = ps := by
    rw [hps, List.filterMap_map]
    exact List.filterMap_some
  have hpasses : (⟨[], doc, .distinct⟩ : Check).Passes ↔ ps.Nodup := by rw [Check.Passes, htexts]
  let es : List (Dependency String) := ps.map fun p => { package := p, version := "" }
  have hes : es.map (·.package) = ps := by
    rw [List.map_map]
    exact List.map_id ps
  have hdistinct : requireDistinct ds = requireDistinct (es.map (Dependency.relabel .text)) := by
    refine requireDistinct_congr ?_
    rw [← hds, hps, List.map_map, List.map_map]
    rfl
  rw [hdistinct, requireDistinct_text, hes]
  split
  next h =>
    exact Checked.pass (hpasses.mpr h) (Checked.ok trivial)
  next h =>
    have herror : Check.error ⟨[], doc, .distinct⟩ = .ofCause (.repeatedDependency
        ((repeats ps).mergeSort fun p q => !decide (q < p))) (some {}) := by
      simp only [Check.error, htexts]
      rfl
    rw [← herror]
    exact Checked.fail (hpasses.not.mpr h)

/-- Loading a document whose dependencies name texts fails with the first check that is not
passed. -/
theorem Schema.checked {doc : Document} {ps : List String} (hps : doc.packages = ps.map .text) :
    Checked (Schema.checks doc) (fun _ => True) (Schema.ofDocument? doc) := by
  rw [checks, ofDocument?]
  refine Checked.require_field.bind_cons ?_
  rintro ⟨group, _⟩ hgroup
  simp only [hgroup, Option.toList_some, List.map_singleton, List.append_assoc, List.cons_append]
  refine Checked.elementsOf_items.bind ?_
  rintro ⟨deps, _⟩ hitems
  obtain rfl : deps = doc.items "dependencies" := hitems
  refine (Checked.mapM fun d _ => Dependency.checked d).bind fun ds hds => ?_
  refine (checked_requireDistinct hps (packages_eq_of_forall₂ hds)).bind_cons fun _ _ => ?_
  refine Checked.elementsOf_items.bind ?_
  rintro ⟨defs, _⟩ hitems
  obtain rfl : defs = doc.items "definitions" := hitems
  refine (Checked.mapM fun d _ => Definition.checked d).bind fun _ _ => ?_
  refine (Group.checked [] group).bind_cons fun _ _ => ?_
  exact Checked.require_field.done

/-! ### The first fault -/

/-- A document in which loading finds lists where it goes through items, objects where it reads
fields without a look, and texts as packages. Nothing is said of what it does not come to. -/
structure Document.Formed (doc : Document) : Prop where
  items : ∀ c ∈ Schema.checks doc, c.demand = .items → ∃ xs, c.node = .list xs
  fields : ∀ c ∈ Schema.checks doc, c.demand = .fields → ∃ fields, c.node = .object fields
  packages : ∀ p ∈ doc.packages, ∃ s, p = .text s

theorem Document.Formed.exists_packages_eq {doc : Document} (h : doc.Formed) :
    ∃ ps : List String, doc.packages = ps.map .text := by
  have hrange : doc.packages ∈ Set.range (List.map Document.text) := by
    rw [Set.range_list_map]
    intro p hp
    obtain ⟨s, hs⟩ := h.packages p hp
    exact ⟨s, hs.symm⟩
  obtain ⟨ps, hps⟩ := hrange
  exact ⟨ps, hps.symm⟩

/-- The error of a check that is not passed blames the document, and says where. -/
theorem Document.Formed.exists_error_eq {doc : Document} (h : doc.Formed) {c : Check}
    (hc : c ∈ Schema.checks doc) (hfails : ¬ c.Passes) :
    ∃ cause : Cause, cause.category = .schemaFormat ∧
      c.error = .ofCause cause (some (.around c.within)) := by
  obtain ⟨within, node, demand⟩ := c
  cases demand with
  | field key =>
    refine ⟨_, ?_, rfl⟩
    split <;> rfl
  | kind => exact ⟨_, rfl, rfl⟩
  | distinct => exact ⟨_, rfl, rfl⟩
  | items =>
    obtain ⟨xs, hnode⟩ := h.items _ hc rfl
    obtain rfl : node = .list xs := hnode
    exact absurd rfl hfails
  | fields =>
    obtain ⟨fields, hnode⟩ := h.fields _ hc rfl
    obtain rfl : node = .object fields := hnode
    exact absurd rfl hfails

/-- A formed document is loaded exactly if all its checks are passed. If not, loading fails with the
error of the first that is not, which is a fault of the format at the definition and the innermost
property around the node. -/
theorem Schema.ofDocument?_first_fault {doc : Document} (h : doc.Formed) :
    ((∃ s, Schema.ofDocument? doc = .ok s) ↔ ∀ c ∈ Schema.checks doc, c.Passes) ∧
    ∀ e, Schema.ofDocument? doc = .error e ↔
      ∃ before c after, Schema.checks doc = before ++ c :: after ∧ (∀ b ∈ before, b.Passes) ∧
        ¬ c.Passes ∧ e = c.error ∧ ∃ cause : Cause, cause.category = .schemaFormat ∧
          e = .ofCause cause (some (.around c.within)) := by
  obtain ⟨ps, hps⟩ := h.exists_packages_eq
  have hload := Schema.checked hps
  refine ⟨hload.exists_eq_ok_iff, fun e => hload.eq_error_iff.trans ?_⟩
  constructor
  · rintro ⟨before, c, after, hchecks, hbefore, hfails, rfl⟩
    have hc : c ∈ Schema.checks doc := hchecks ▸ List.mem_append_right _ List.mem_cons_self
    exact ⟨before, c, after, hchecks, hbefore, hfails, rfl, h.exists_error_eq hc hfails⟩
  · rintro ⟨before, c, after, hchecks, hbefore, hfails, he, -⟩
    exact ⟨before, c, after, hchecks, hbefore, hfails, he⟩

namespace Misshapen

def size : Document := .object [("name", .text "size")]

def shape : Document := Document.tagged .object [("properties", .list [size])]

def spec : Document := .object [("name", .text "spec"), ("value", shape)]

def value : Document := Document.tagged .object [("properties", .list [spec, .null])]

def gadget : Document := .object [("name", .text "Gadget"), ("value", value)]

/-- A document in which a property of a property has no value, before a property that is null. -/
def schema : Document :=
  .object [("group", .object []), ("version", .text "v1"), ("definitions", .list [gadget])]

def inGadget : List Entry := [.definition (.text "Gadget")]

def inSpec : List Entry := .property (.text "spec") :: inGadget

def inSize : List Entry := .property (.text "size") :: inSpec

theorem checks_eq : Schema.checks schema =
    [⟨[], schema, .field "group"⟩, ⟨[], schema, .distinct⟩, ⟨[], .list [gadget], .items⟩,
      ⟨[], gadget, .field "name"⟩, ⟨inGadget, gadget, .field "value"⟩,
      ⟨inGadget, value, .field "type"⟩, ⟨inGadget, .text "object", .kind⟩,
      ⟨inGadget, .list [spec, .null], .items⟩, ⟨inGadget, spec, .field "name"⟩,
      ⟨inSpec, spec, .field "value"⟩, ⟨inSpec, shape, .field "type"⟩,
      ⟨inSpec, .text "object", .kind⟩, ⟨inSpec, .list [size], .items⟩,
      ⟨inSpec, size, .field "name"⟩] ++
    ⟨inSize, size, .field "value"⟩ ::
    [⟨inGadget, .null, .field "name"⟩, ⟨[], .object [], .fields⟩,
      ⟨[], schema, .field "version"⟩] := by
  cbv

theorem formed : schema.Formed where
  items := by
    rw [checks_eq]
    simp
  fields := by
    rw [checks_eq]
    simp
  packages := by
    have hpackages : schema.packages = [] := by cbv
    simp [hpackages]

end Misshapen

open Misshapen in
theorem Schema.ofDocument?_first_fault_misshapen :
    schema.Formed ∧ Schema.ofDocument? schema = .error (.ofCause (.missingField "value")
      (some { definition := some (.text "Gadget"), property := some (.text "size") })) :=
  ⟨formed, ((Schema.ofDocument?_first_fault formed).2 _).mpr
    ⟨_, _, _, checks_eq, by decide, by decide, rfl, .missingField "value", rfl, rfl⟩⟩

end ApiTypes
