import ApiTypes.Proofs.Plan.Introductions

/-! The plan of a type shows its references. A type without a resource inside has a plan
that requests its references from left to right, writes their spellings in that order,
reads nothing else, and declares nothing; a type with a resource inside has none. The
parents of an object stand before its properties. -/

namespace ApiTypes

open Traversal

mutual

/-- The references of a type, from left to right. -/
def TypeExpr.references : TypeExpr String → List (Reference String)
  | .array items => items.references
  | .map values => values.references
  | .union variants => TypeExpr.allReferences variants
  | .optional value => value.references
  | .reference target => [target]
  | .object properties parents => parents ++ Property.allReferences properties
  | .resource properties _ => Property.allReferences properties
  | _ => []

def TypeExpr.allReferences : List (TypeExpr String) → List (Reference String)
  | [] => []
  | t :: ts => t.references ++ TypeExpr.allReferences ts

def Property.references : Property String → List (Reference String)
  | .mk _ value _ _ _ => value.references

def Property.allReferences : List (Property String) → List (Reference String)
  | [] => []
  | p :: ps => p.references ++ Property.allReferences ps

end

mutual

/-- Whether a resource stands anywhere in a type. -/
def TypeExpr.holdsResource : TypeExpr String → Bool
  | .array items => items.holdsResource
  | .map values => values.holdsResource
  | .union variants => TypeExpr.anyHoldsResource variants
  | .optional value => value.holdsResource
  | .object properties _ => Property.anyHoldsResource properties
  | .resource _ _ => true
  | _ => false

def TypeExpr.anyHoldsResource : List (TypeExpr String) → Bool
  | [] => false
  | t :: ts => t.holdsResource || TypeExpr.anyHoldsResource ts

def Property.holdsResource : Property String → Bool
  | .mk _ value _ _ _ => value.holdsResource

def Property.anyHoldsResource : List (Property String) → Bool
  | [] => false
  | p :: ps => p.holdsResource || Property.anyHoldsResource ps

end

/-- The failure of a type that a resource stands in. -/
def nested? (holds : Bool) : Option Error :=
  if holds then some (.ofCause .nestedResource) else none

theorem nested?_or (a b : Bool) : (nested? a).or (nested? b) = nested? (a || b) := by
  cases a <;> rfl

namespace Plan

/-- A plan that shows some references and nothing else. -/
structure Shows (p : Plan String) (rs : List (Reference String)) : Prop where
  requests : p.requests = rs.map Reference.request
  symbols : ∀ f : Symbol String → Option Error,
    p.symbols.findSome? f = (rs.map Reference.symbol).findSome? f
  spelled : p.spelled = rs.map Reference.symbol
  total : p.Total
  quiet : p.Quiet

variable {p q : Plan String} {rs rs' : List (Reference String)}

theorem Shows.append (hp : p.Shows rs) (hq : q.Shows rs') : (p ++ q).Shows (rs ++ rs') where
  requests := by rw [requests_append, hp.requests, hq.requests, List.map_append]
  symbols f := by
    rw [symbols_append, List.map_append, List.findSome?_append, List.findSome?_append, hp.symbols,
      hq.symbols]
  spelled := by rw [spelled_append, hp.spelled, hq.spelled, List.map_append]
  total := hp.total.append hq.total
  quiet piece hm := (List.mem_append.mp hm).elim (hp.quiet piece) (hq.quiet piece)

theorem shows_empty : ({} : Plan String).Shows [] :=
  ⟨rfl, fun _ => rfl, rfl, List.forall_mem_nil _, List.forall_mem_nil _⟩

theorem shows_ofText {s : String} (h : opensDeclaration s = false) : (ofText s).Shows [] where
  requests := rfl
  symbols _ := rfl
  spelled := rfl
  total := total_ofText s
  quiet piece hm := by
    obtain rfl := List.mem_singleton.mp hm
    exact h

theorem shows_reference (r : Reference String) : r.plan.Shows [r] where
  requests := rfl
  symbols _ := rfl
  spelled := rfl
  total piece hm := by
    obtain rfl := List.mem_singleton.mp hm
    trivial
  quiet piece hm := by
    obtain rfl := List.mem_singleton.mp hm
    trivial

theorem Shows.text_left (hp : p.Shows rs) {s : String} (h : opensDeclaration s = false) :
    (ofText s ++ p).Shows rs :=
  (shows_ofText h).append hp

theorem Shows.text_right (hp : p.Shows rs) {s : String} (h : opensDeclaration s = false) :
    (p ++ ofText s).Shows rs := by
  have ha := hp.append (shows_ofText h)
  rwa [List.append_nil] at ha

/-- Reading shown symbols once more changes nothing. -/
theorem findSome?_append_of_subset {α β : Type} {ss ss' : List α} (h : ss' ⊆ ss)
    (f : α → Option β) : (ss ++ ss').findSome? f = ss.findSome? f := by
  rw [List.findSome?_append]
  cases hs : ss.findSome? f with
  | some b => rfl
  | none =>
    rw [List.findSome?_eq_none_iff] at hs
    exact List.findSome?_eq_none_iff.mpr fun s hm => hs s (h hm)

theorem Shows.requireTexts (hp : p.Shows rs) {ss : List (Symbol String)}
    (h : ss ⊆ rs.map Reference.symbol) : (p ++ requireTexts ss).Shows rs where
  requests := by
    rw [requests_append, hp.requests]
    exact List.append_nil _
  symbols f := by
    have hs : (Plan.requireTexts ss).symbols = ss := List.append_nil ss
    rw [symbols_append, List.findSome?_append, hp.symbols, ← List.findSome?_append, hs]
    exact findSome?_append_of_subset h f
  spelled := by
    rw [spelled_append, hp.spelled]
    exact List.append_nil _
  total := hp.total.append (total_requireTexts ss)
  quiet piece hm := by
    rcases List.mem_append.mp hm with hm | hm
    · exact hp.quiet piece hm
    · obtain rfl := List.mem_singleton.mp hm
      trivial

theorem Shows.intercalate_cons {separator : String} (hsep : opensDeclaration separator = false)
    {ps : List (Plan String)} (hp : p.Shows rs) (hps : (intercalate separator ps).Shows rs') :
    (intercalate separator (p :: ps)).Shows (rs ++ rs') := by
  cases ps with
  | nil =>
    have hnil : rs' = [] := List.map_eq_nil_iff.mp hps.requests.symm
    rw [hnil, List.append_nil]
    exact hp
  | cons q rest => exact (hp.text_right hsep).append hps

theorem Shows.braced {ps : List (Plan String)} (h : (intercalate "\n" ps).Shows rs) :
    (braced ps).Shows rs := by
  cases ps with
  | nil =>
    have hnil : rs = [] := List.map_eq_nil_iff.mp h.requests.symm
    rw [hnil]
    exact shows_ofText (by decide)
  | cons p rest => exact (h.text_left (by decide)).text_right (by decide)

theorem shows_doc (description : Option String) (deprecated : Bool) (indent : Nat) :
    (doc description deprecated indent).Shows [] := by
  have h : ∃ s, Text.DocBlock.ofLabel description deprecated indent =
      .ok (Text.DocBlock.block s deprecated indent) := by
    rw [Text.DocBlock.ofLabel]
    cases Label.present? description with
    | none => exact ⟨"", rfl⟩
    | some s => exact ⟨s, rfl⟩
  obtain ⟨s, hs⟩ := h
  rw [doc, hs]
  exact shows_ofText (opensDeclaration_block ..)

theorem shows_parents (parents : List (Reference String)) {body : Plan String}
    (hb : body.Shows rs) :
    (intercalate " & " (parents.map Reference.plan ++ [body])).Shows (parents ++ rs) := by
  induction parents with
  | nil => exact hb
  | cons r rest ih => exact (shows_reference r).intercalate_cons (by decide) ih

end Plan

open Plan

theorem symbol?_mem_references {t : TypeExpr String} {symbol : Symbol String}
    (h : t.symbol? = some symbol) : symbol ∈ t.references.map Reference.symbol := by
  cases t with
  | reference target =>
    obtain rfl := Option.some.inj h
    rw [TypeExpr.references]
    exact List.mem_singleton.mpr rfl
  | _ => cases h

theorem symbols_subset_allReferences (ts : List (TypeExpr String)) :
    ts.filterMap TypeExpr.symbol? ⊆ (TypeExpr.allReferences ts).map Reference.symbol := by
  induction ts with
  | nil => exact List.nil_subset _
  | cons t rest ih =>
    intro symbol hm
    rw [TypeExpr.allReferences, List.map_append, List.mem_append]
    obtain ⟨t', ht, hs⟩ := List.mem_filterMap.mp hm
    rcases List.mem_cons.mp ht with rfl | hr
    · exact .inl (symbol?_mem_references hs)
    · exact .inr (ih (List.mem_filterMap.mpr ⟨t', hr, hs⟩))

/-- An object whose parents are written elsewhere. -/
theorem plan_object_declaration (properties : List (Property String))
    (parents : List (Reference String)) :
    TypeExpr.plan true (.object properties parents) =
      TypeExpr.plan false (.object properties []) := by
  rw [TypeExpr.plan, TypeExpr.plan]
  rfl

mutual

theorem TypeExpr.plan_yields (t : TypeExpr String) :
    Yields (nested? t.holdsResource) (fun p => p.Shows t.references) (t.plan false) := by
  cases t with
  | string choices =>
    rw [TypeExpr.plan]
    exact yields_ok (shows_ofText (opensDeclaration_choices choices))
  | integer | float | boolean | unknown =>
    rw [TypeExpr.plan]
    exact yields_ok (shows_ofText (by decide))
  | array items =>
    rw [TypeExpr.plan]
    refine (TypeExpr.plan_yields items).map fun p hp => ?_
    exact (hp.text_left (by decide)).text_right (by decide)
  | map values =>
    rw [TypeExpr.plan]
    refine (TypeExpr.plan_yields values).map fun p hp => ?_
    exact (hp.text_left (by decide)).text_right (by decide)
  | optional value =>
    rw [TypeExpr.plan]
    exact (TypeExpr.plan_yields value).map fun p hp => hp.text_right (by decide)
  | union variants =>
    rw [TypeExpr.plan]
    exact (TypeExpr.plans_yields variants " | " (by decide)).map fun ps hps =>
      hps.requireTexts (symbols_subset_allReferences variants)
  | reference target =>
    rw [TypeExpr.plan]
    exact yields_ok (shows_reference target)
  | object properties parents =>
    rw [TypeExpr.plan]
    refine (Property.plans_yields properties).map fun ps hps => ?_
    refine (shows_parents parents hps.braced).requireTexts ?_
    rw [List.map_append]
    exact List.subset_append_left ..
  | resource properties scope =>
    rw [TypeExpr.plan]
    rfl

theorem TypeExpr.plans_yields (ts : List (TypeExpr String)) (separator : String)
    (hsep : opensDeclaration separator = false) :
    Yields (nested? (TypeExpr.anyHoldsResource ts))
      (fun ps => (intercalate separator ps).Shows (TypeExpr.allReferences ts))
      (TypeExpr.plans ts) := by
  cases ts with
  | nil =>
    rw [TypeExpr.plans]
    exact yields_ok shows_empty
  | cons t rest =>
    rw [TypeExpr.plans, TypeExpr.anyHoldsResource, ← nested?_or]
    exact (TypeExpr.plan_yields t).bind fun p hp =>
      (TypeExpr.plans_yields rest separator hsep).map fun ps hps => hp.intercalate_cons hsep hps

theorem Property.plan_yields (p : Property String) :
    Yields (nested? p.holdsResource) (fun plan => plan.Shows p.references) p.plan := by
  cases p with
  | mk name value required description deprecated =>
    rw [Property.plan]
    have hkey : Text.PropertyKey.ofLabel name = .ok (Text.PropertyKey.key name) := rfl
    rw [hkey, ok_bind]
    refine (TypeExpr.plan_yields value).map fun body hb => ?_
    have hbody : (if required || value.isOptional then body else body ++ .ofText " | null").Shows
        value.references := by
      split
      next => exact hb
      next => exact hb.text_right (by decide)
    have hhead := (shows_doc description deprecated 1).text_right
      (opensDeclaration_key ("  " ++ Text.PropertyKey.key name) required)
    exact (hhead.append hbody).text_right (by decide)

theorem Property.plans_yields (ps : List (Property String)) :
    Yields (nested? (Property.anyHoldsResource ps))
      (fun plans => (intercalate "\n" plans).Shows (Property.allReferences ps))
      (Property.plans ps) := by
  cases ps with
  | nil =>
    rw [Property.plans]
    exact yields_ok shows_empty
  | cons p rest =>
    rw [Property.plans, Property.anyHoldsResource, ← nested?_or]
    exact (Property.plan_yields p).bind fun plan hp =>
      (Property.plans_yields rest).map fun plans hps => hp.intercalate_cons (by decide) hps

end

end ApiTypes
