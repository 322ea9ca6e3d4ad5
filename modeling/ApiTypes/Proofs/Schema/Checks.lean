import ApiTypes.Proofs.Schema.Loading

/-! The checks of a load. Loading comes to the nodes of a document in a fixed order and asks
something of each: an object that has a field, the tag of a kind, packages that differ. A check
keeps the node, what is asked of it, and the definition and properties around it whose names have
been read. Here all checks of a document are listed, as if none of them failed; nothing is asked
below a node that is missing. Loading fails with the first check that is not passed, and succeeds
if all are. -/

namespace ApiTypes

open Document (require requireElements requireFields elementsOf)
open Traversal

namespace Loading

/-- A definition or a property whose name has been read. -/
inductive Entry where
  | definition (name : Document)
  | property (name : Document)

def Entry.definition? : Entry → Option Document
  | definition name => some name
  | property _ => none

def Entry.property? : Entry → Option Document
  | definition _ => none
  | property name => some name

/-- What loading asks of a node. The last two are taken for granted: a value that is gone through
item by item, and one whose fields are read as if it had any. -/
inductive Demand where
  | field (key : String)
  | kind
  | distinct
  | items
  | fields

/-- A node that loading comes to, with what it asks of it and the entries around it, the innermost
first. -/
structure Check where
  within : List Entry
  node : Document
  demand : Demand

end Loading

open Loading

/-- The definition around a node and the innermost property around it. -/
def Location.around (entries : List Entry) : Location :=
  { definition := entries.findSome? Entry.definition?
    property := entries.findSome? Entry.property? }

namespace Document

/-- The items of a field; a field that is missing or has no items has none. -/
def items (doc : Document) (key : String) : List Document :=
  ((doc.field? key).bind elements?).getD []

/-- The packages that a schema lists as its dependencies. -/
def packages (doc : Document) : List Document :=
  (doc.items "dependencies").filterMap fun dependency => dependency.field? "package"

end Document

namespace Loading.Check

/-- Whether a node is what it has to be. -/
def Passes (c : Check) : Prop :=
  match c.demand with
  | .field key => (c.node.field? key).isSome
  | .kind => (c.node.text?.bind Kind.ofTag?).isSome
  | .distinct => (c.node.packages.filterMap Document.text?).Nodup
  | .items => c.node.elements?.isSome
  | .fields => c.node.isObject

instance : DecidablePred Passes
  | ⟨_, _, .field _⟩ => inferInstanceAs (Decidable (_ = true))
  | ⟨_, _, .kind⟩ => inferInstanceAs (Decidable (_ = true))
  | ⟨_, _, .distinct⟩ => inferInstanceAs (Decidable (List.Nodup _))
  | ⟨_, _, .items⟩ => inferInstanceAs (Decidable (_ = true))
  | ⟨_, _, .fields⟩ => inferInstanceAs (Decidable (_ = true))

/-- How a load ends at a node that is not what it has to be. -/
def error (c : Check) : Error :=
  let place := some (Location.around c.within)
  match c.demand with
  | .field key =>
    .ofCause (if c.node.isObject then .missingField key else .expectedObject key c.node) place
  | .kind => .ofCause (.unknownType c.node) place
  | .distinct =>
    let packages := c.node.packages.filterMap Document.text?
    .ofCause (.repeatedDependency ((repeats packages).mergeSort fun p q => !decide (q < p))) place
  | .items => .misfit (.iteration c.node)
  | .fields => .misfit (.fields c.node)

def fault? (c : Check) : Option Error :=
  if c.Passes then none else some c.error

end Loading.Check

/-! ### The checks of a document -/

namespace Document

/-- The value of a field, if the field is there; it is smaller than the object. -/
def held (doc : Document) (key : String) : List {v : Document // v.size < doc.size} :=
  match h : doc.field? key with
  | some v => [⟨v, size_lt_of_field? h⟩]
  | none => []

/-- The items of a field; each is smaller than the object. -/
def heldItems (doc : Document) (key : String) : List {x : Document // x.size < doc.size} :=
  (doc.held key).flatMap fun v =>
    match h : v.1.elements? with
    | some xs => xs.attach.map fun x =>
      ⟨x.1, Nat.lt_of_le_of_lt (size_le_of_elements? h x.2) v.2⟩
    | none => []

end Document

def Scope.checks (within : List Entry) (doc : Document) : List Check :=
  ⟨within, doc, .field "group"⟩ ::
    ((doc.field? "group").toList.map fun group => ⟨within, group, .fields⟩) ++
    [⟨within, doc, .field "version"⟩]

def Reference.checks (within : List Entry) (doc : Document) : List Check :=
  ⟨within, doc, .field "target"⟩ ::
    (doc.field? "target").toList.flatMap fun target =>
      ⟨within, target, .field "name"⟩ ::
        (target.optional? "scope").toList.flatMap (Scope.checks within)

mutual

def TypeExpr.checks (within : List Entry) (doc : Document) : List Check :=
  let list (key : String) : List Check :=
    (doc.truthy? key).toList.map fun v => ⟨within, v, .items⟩
  let properties : List Check :=
    list "properties" ++ (doc.heldItems "properties").flatMap fun p => Property.checks within p.1
  let typeIn (key : String) : List Check :=
    ⟨within, doc, .field key⟩ :: (doc.held key).flatMap fun v => TypeExpr.checks within v.1
  ⟨within, doc, .field "type"⟩ ::
    (doc.field? "type").toList.flatMap fun tag =>
      ⟨within, tag, .kind⟩ ::
        match tag.text?.bind Kind.ofTag? with
        | some .string => (doc.optional? "enum").toList.map fun v => ⟨within, v, .items⟩
        | some .array | some .map => typeIn "values"
        | some .union =>
          ⟨within, doc, .field "values"⟩ ::
            ((doc.field? "values").toList.map fun v => ⟨within, v, .items⟩) ++
              (doc.heldItems "values").flatMap fun v => TypeExpr.checks within v.1
        | some .optional => typeIn "value"
        | some .reference => Reference.checks within doc
        | some .object =>
          properties ++ (list "inherit" ++ (doc.items "inherit").flatMap (Reference.checks within))
        | some .resource =>
          properties ++ (doc.truthy? "metadata").toList.map fun v => ⟨within, v, .fields⟩
        | some .integer | some .float | some .boolean | some .unknown | none => []
termination_by doc.size
decreasing_by
  · exact p.2
  · exact v.2
  · exact v.2

def Property.checks (within : List Entry) (doc : Document) : List Check :=
  ⟨within, doc, .field "name"⟩ ::
    (doc.field? "name").toList.flatMap fun name =>
      ⟨.property name :: within, doc, .field "value"⟩ ::
        (doc.held "value").flatMap fun v => TypeExpr.checks (.property name :: within) v.1
termination_by doc.size
decreasing_by exact v.2

end

def Definition.checks (doc : Document) : List Check :=
  ⟨[], doc, .field "name"⟩ ::
    (doc.field? "name").toList.flatMap fun name =>
      ⟨[.definition name], doc, .field "value"⟩ ::
        (doc.field? "value").toList.flatMap (TypeExpr.checks [.definition name])

def Dependency.checks (doc : Document) : List Check :=
  [⟨[], doc, .field "package"⟩, ⟨[], doc, .field "version"⟩]

/-- All that loading asks of a document, in the order in which it does. -/
def Schema.checks (doc : Document) : List Check :=
  let list (key : String) : List Check :=
    (doc.truthy? key).toList.map fun v => ⟨[], v, .items⟩
  ⟨[], doc, .field "group"⟩ ::
    (list "dependencies" ++ (doc.items "dependencies").flatMap Dependency.checks ++
    ⟨[], doc, .distinct⟩ ::
    (list "definitions" ++ (doc.items "definitions").flatMap Definition.checks ++
    ((doc.field? "group").toList.map fun group => ⟨[], group, .fields⟩) ++
    [⟨[], doc, .field "version"⟩]))

/-! ### Reading the nodes of a document -/

namespace Document

theorem flatMap_held {β : Type} (doc : Document) (key : String) (f : Document → List β) :
    ((doc.held key).flatMap fun v => f v.1) = (doc.field? key).toList.flatMap f := by
  rw [held]
  split
  next v h => simp only [h, Option.toList_some, List.flatMap_singleton]
  next h => simp only [h, Option.toList_none, List.flatMap_nil]

theorem unattach_heldItems (doc : Document) (key : String) :
    (doc.heldItems key).unattach = doc.items key := by
  rw [heldItems, held, items]
  split
  next v h =>
    simp only [h, Option.bind_some, List.flatMap_singleton]
    split
    next xs hxs =>
      simp only [hxs, Option.getD_some]
      rw [List.unattach, List.map_map]
      exact List.attach_map_subtype_val xs
    next hxs => simp [hxs]
  next h => simp [h]

theorem flatMap_heldItems {β : Type} (doc : Document) (key : String) (f : Document → List β) :
    ((doc.heldItems key).flatMap fun v => f v.1) = (doc.items key).flatMap f := by
  rw [List.flatMap_subtype (g := f) fun _ _ => rfl, unattach_heldItems]

/-- What does not count has no items. -/
theorem elements?_getD_of_not_isTruthy {v : Document} (h : v.isTruthy = false) :
    v.elements?.getD [] = [] := by
  cases v with
  | text s =>
    obtain rfl : s = "" := by simpa [isTruthy] using h
    rfl
  | list xs =>
    obtain rfl : xs = [] := by simpa [isTruthy] using h
    rfl
  | object fields =>
    obtain rfl : fields = [] := by simpa [isTruthy] using h
    rfl
  | null | bool | integer | real => rfl

end Document

open Document (flatMap_held flatMap_heldItems)

namespace Loading

variable {α β : Type} {P : α → Prop} {Q : β → Prop} {c : Check} {cs cs' : List Check}
  {within : List Entry} {doc : Document} {key : String}

/-- A part of a load that fails with the first of some checks that is not passed; if all are, its
value has a property. -/
def Checked (cs : List Check) (P : α → Prop) (r : Except Error α) : Prop :=
  Yields (cs.findSome? Check.fault?) P r

theorem Check.fault?_eq_none_iff (c : Check) : c.fault? = none ↔ c.Passes := by
  rw [fault?]
  split <;> simp_all

theorem Check.fault?_eq_some_iff (c : Check) (e : Error) :
    c.fault? = some e ↔ ¬ c.Passes ∧ c.error = e := by
  rw [fault?]
  split <;> simp_all

namespace Checked

theorem exists_eq_ok_iff {r : Except Error α} (hr : Checked cs P r) :
    (∃ a, r = .ok a) ↔ ∀ c ∈ cs, c.Passes := by
  rw [Yields.exists_eq_ok_iff hr, List.findSome?_eq_none_iff]
  simp only [Check.fault?_eq_none_iff]

theorem eq_error_iff {r : Except Error α} (hr : Checked cs P r) {e : Error} :
    r = .error e ↔ ∃ before c after, cs = before ++ c :: after ∧ (∀ b ∈ before, b.Passes) ∧
      ¬ c.Passes ∧ e = c.error := by
  rw [Yields.eq_error_iff hr, List.findSome?_eq_some_iff]
  simp only [Check.fault?_eq_none_iff, Check.fault?_eq_some_iff]
  constructor
  · rintro ⟨before, c, after, hcs, ⟨hfails, he⟩, hbefore⟩
    exact ⟨before, c, after, hcs, hbefore, hfails, he.symm⟩
  · rintro ⟨before, c, after, hcs, hbefore, hfails, he⟩
    exact ⟨before, c, after, hcs, ⟨hfails, he.symm⟩, hbefore⟩

theorem ok {a : α} (h : P a) : Checked [] P (.ok a) :=
  yields_ok h

theorem bind {r : Except Error α} {f : α → Except Error β} (hr : Checked cs P r)
    (hf : ∀ a, P a → Checked cs' Q (f a)) : Checked (cs ++ cs') Q (r >>= f) := by
  rw [Checked, List.findSome?_append]
  exact Yields.bind hr hf

theorem bind_cons {r : Except Error α} {f : α → Except Error β} (hr : Checked [c] P r)
    (hf : ∀ a, P a → Checked cs Q (f a)) : Checked (c :: cs) Q (r >>= f) :=
  hr.bind hf

/-- A last step that cannot fail. -/
theorem map {r : Except Error α} {f : α → β} (hr : Checked cs P r) (hf : ∀ a, P a → Q (f a)) :
    Checked cs Q (r >>= fun a => .ok (f a)) :=
  Yields.map hr hf

/-- A last step whose value does not matter. -/
theorem done {r : Except Error α} {f : α → β} (hr : Checked cs P r) :
    Checked cs (fun _ => True) (r >>= fun a => .ok (f a)) :=
  hr.map fun _ _ => trivial

theorem pass {r : Except Error α} (hc : c.Passes) (hr : Checked cs P r) :
    Checked (c :: cs) P r := by
  rw [Checked, List.findSome?_cons, c.fault?_eq_none_iff.mpr hc]
  exact hr

theorem fail (hc : ¬ c.Passes) : Checked (c :: cs) P (.error c.error) := by
  rw [Checked, List.findSome?_cons, Check.fault?, if_neg hc]
  rfl

/-- A list is gone through item by item. -/
theorem mapM {f : α → Except Error β} {checks : α → List Check} {R : α → β → Prop} {l : List α}
    (hf : ∀ a ∈ l, Checked (checks a) (R a) (f a)) :
    Checked (l.flatMap checks) (fun ys => List.Forall₂ R l ys) (l.mapM f) := by
  induction l with
  | nil => exact ok List.Forall₂.nil
  | cons a rest ih =>
    rw [List.forall_mem_cons] at hf
    rw [List.flatMap_cons, List.mapM_cons]
    exact hf.1.bind fun y hy => (ih hf.2).map fun ys hys => .cons hy hys

/-- Items that are known to belong to the list. -/
theorem mapM_attach {f : α → Except Error β} {checks : α → List Check} {l : List α}
    (hf : ∀ a ∈ l, Checked (checks a) (fun _ => True) (f a)) :
    Checked (l.flatMap checks) (fun _ => True) (l.attach.mapM fun a => f a.1) := by
  rw [ApiTypes.mapM_attach]
  exact Yields.imp (Checked.mapM hf) fun _ _ => trivial

theorem require_field :
    Checked [⟨within, doc, .field key⟩] (fun v => doc.field? key = some v.1)
      (require doc key (.around within)) := by
  cases h : doc.field? key with
  | some v =>
    rw [Document.require_eq h]
    exact pass (by simp [Check.Passes, h]) (ok rfl)
  | none =>
    have hc : ¬ (⟨within, doc, .field key⟩ : Check).Passes := by simp [Check.Passes, h]
    have herror :
        require doc key (.around within) = .error (Check.error ⟨within, doc, .field key⟩) := by
      rw [require, Check.error]
      split
      next =>
        split
        next v hv => cases hv.symm.trans h
        next => rfl
      next => rfl
    rw [herror]
    exact fail hc

/-- What comes behind a field that has to be there. -/
theorem require_bind {f : {v : Document // v.size < doc.size} → Except Error α}
    {checks : Document → List Check}
    (hf : ∀ v, doc.field? key = some v.1 → Checked (checks v.1) P (f v)) :
    Checked (⟨within, doc, .field key⟩ :: (doc.field? key).toList.flatMap checks) P
      (require doc key (.around within) >>= f) := by
  refine require_field.bind_cons fun v hv => ?_
  simp only [hv, Option.toList_some, List.flatMap_singleton]
  exact hf v hv

theorem requireElements_items {v : Document} :
    Checked [⟨within, v, .items⟩] (fun xs => v.elements? = some xs.1) (requireElements v) := by
  rw [requireElements]
  split
  next xs h => exact pass (by simp [Check.Passes, h]) (ok h)
  next h => exact fail (by simp [Check.Passes, h])

theorem elementsOf_items :
    Checked ((doc.truthy? key).toList.map fun v => ⟨within, v, .items⟩)
      (fun xs => xs.1 = doc.items key) (elementsOf doc key) := by
  rw [elementsOf, Document.truthy?, Document.items]
  split
  next v h =>
    simp only [h, Option.filter_some, Option.bind_some]
    cases hv : v.isTruthy with
    | true => exact requireElements_items.map fun xs hxs => by rw [hxs]; rfl
    | false => exact ok (Document.elements?_getD_of_not_isTruthy hv).symm
  next h =>
    simp only [h]
    exact ok rfl

theorem requireFields_fields {v : Document} :
    Checked [⟨within, v, .fields⟩] (fun _ => True) (requireFields v) := by
  rw [requireFields]
  split
  next h => exact pass h (ok trivial)
  next h => exact fail h

end Checked

end Loading

/-! ### Loading passes the checks in turn -/

theorem Group.checked (within : List Entry) (doc : Document) :
    Checked [⟨within, doc, .fields⟩] (fun _ => True) (Group.ofDocument? doc) :=
  Checked.requireFields_fields.done

theorem Scope.checked (within : List Entry) (doc : Document) :
    Checked (Scope.checks within doc) (fun _ => True)
      (Scope.ofDocument? (.around within) doc) := by
  rw [checks, ofDocument?]
  refine Checked.require_field.bind_cons ?_
  rintro ⟨group, _⟩ hgroup
  rw [hgroup]
  refine (Group.checked within group).bind fun group _ => ?_
  exact Checked.require_field.done

theorem Reference.checked (within : List Entry) (doc : Document) :
    Checked (Reference.checks within doc) (fun _ => True)
      (Reference.ofDocument? (.around within) doc) := by
  rw [checks, ofDocument?]
  refine Checked.require_bind ?_
  rintro ⟨target, _⟩ _
  refine Checked.require_field.bind_cons ?_
  rintro ⟨name, _⟩ _
  cases hscope : target.optional? "scope" with
  | none => exact Checked.ok trivial
  | some scope =>
    simp only [Option.toList_some, List.flatMap_singleton]
    exact (Scope.checked within scope).done

theorem checked_choicesOf (within : List Entry) (doc : Document) :
    Checked ((doc.optional? "enum").toList.map fun v => ⟨within, v, .items⟩) (fun _ => True)
      (choicesOf doc) := by
  rw [choicesOf]
  cases doc.optional? "enum" with
  | none => exact Checked.ok trivial
  | some v => exact Checked.requireElements_items.done

theorem checked_scopeOf (within : List Entry) (metadata : Option Document) :
    Checked (metadata.toList.map fun v => ⟨within, v, .fields⟩) (fun _ => True)
      (scopeOf metadata) := by
  cases metadata with
  | none => exact Checked.ok trivial
  | some v => exact Checked.requireFields_fields.done

mutual

theorem TypeExpr.checked (within : List Entry) (doc : Document) :
    Checked (TypeExpr.checks within doc) (fun _ => True)
      (TypeExpr.ofDocument? (.around within) doc) := by
  -- the induction is on the size: types and properties are smaller than what they are read from
  have hproperties {β : Type} {cs : List Check}
      {f : List (Property Document) → Except Error β}
      (hf : ∀ ps, Checked cs (fun _ => True) (f ps)) :
      Checked ((((doc.truthy? "properties").toList.map fun v => ⟨within, v, .items⟩) ++
          (doc.heldItems "properties").flatMap fun p => Property.checks within p.1) ++ cs)
        (fun _ => True)
        (do
          let ⟨ps, _⟩ ← elementsOf doc "properties"
          let ps ← ps.attach.mapM fun ⟨p, _⟩ => Property.ofDocument? (.around within) p
          f ps) := by
    rw [flatMap_heldItems, List.append_assoc]
    refine Checked.elementsOf_items.bind ?_
    rintro ⟨ps, hps⟩ hitems
    obtain rfl : ps = doc.items "properties" := hitems
    refine (Checked.mapM_attach fun p hp => ?_).bind fun ps _ => hf ps
    have := hps p hp
    exact Property.checked within p
  rw [TypeExpr.checks, TypeExpr.ofDocument?]
  refine Checked.require_bind ?_
  rintro ⟨tag, _⟩ _
  simp only
  cases hkind : tag.text?.bind Kind.ofTag? with
  | none =>
    have hfails : ¬ (⟨within, tag, .kind⟩ : Check).Passes := by simp [Check.Passes, hkind]
    exact Checked.fail hfails
  | some kind =>
    have hpasses : (⟨within, tag, .kind⟩ : Check).Passes := by simp [Check.Passes, hkind]
    refine Checked.pass hpasses ?_
    cases kind with
    | string => exact (checked_choicesOf within doc).done
    | integer | float | boolean | unknown => exact Checked.ok trivial
    | array | map | optional =>
      simp only [flatMap_held]
      refine Checked.require_bind ?_
      rintro ⟨v, _⟩ _
      exact (TypeExpr.checked within v).done
    | reference => exact (Reference.checked within doc).done
    | union =>
      simp only [flatMap_heldItems]
      refine Checked.require_field.bind_cons ?_
      rintro ⟨v, _⟩ hv
      simp only [Document.items, hv, Option.toList_some, Option.bind_some]
      refine Checked.requireElements_items.bind_cons ?_
      rintro ⟨vs, hvs⟩ hitems
      rw [hitems]
      refine (Checked.mapM_attach fun w hw => ?_).done
      have := hvs w hw
      exact TypeExpr.checked within w
    | object =>
      refine hproperties fun ps => Checked.elementsOf_items.bind ?_
      rintro ⟨rs, _⟩ hitems
      obtain rfl : rs = doc.items "inherit" := hitems
      exact (Checked.mapM fun r _ => Reference.checked within r).done
    | resource => exact hproperties fun ps => (checked_scopeOf within _).done
termination_by doc.size

theorem Property.checked (within : List Entry) (doc : Document) :
    Checked (Property.checks within doc) (fun _ => True)
      (Property.ofDocument? (.around within) doc) := by
  rw [Property.checks, Property.ofDocument?]
  refine Checked.require_bind ?_
  rintro ⟨name, _⟩ _
  rw [flatMap_held]
  refine Checked.require_bind ?_
  rintro ⟨v, _⟩ _
  exact (TypeExpr.checked (.property name :: within) v).done
termination_by doc.size

end

end ApiTypes
