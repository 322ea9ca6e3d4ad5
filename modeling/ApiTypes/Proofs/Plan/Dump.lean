import ApiTypes.Plan.Definition
import ApiTypes.Proofs.Traversal
import ApiTypes.Schema.Dump

/-! Plans are made from what a dump shows. Entries with equal dumps may differ in the group
of a scope, in a description that is empty or missing, and in choices that are empty or
missing; their plans are the same nevertheless. By induction on types and properties this
holds for every type, and so for every definition. -/

namespace ApiTypes

open SExpr (symbol tagged)

/-! ### What equal images share -/

section

variable {α β γ : Type} {f : α → β}

theorem map_eq_of_map_eq {g : α → γ} (hg : ∀ x y, f x = f y → g x = g y) {xs ys : List α}
    (h : xs.map f = ys.map f) : xs.map g = ys.map g := by
  induction xs generalizing ys with
  | nil =>
    obtain rfl := List.map_eq_nil_iff.mp h.symm
    rfl
  | cons x xs ih =>
    obtain ⟨y, ys, rfl, hy, hys⟩ := List.map_eq_cons_iff.mp h.symm
    rw [List.map_cons, List.map_cons, hg x y hy.symm, ih hys.symm]

theorem map_filter_eq_of_map_eq {p : α → Bool} (hp : ∀ x y, f x = f y → p x = p y)
    {xs ys : List α} (h : xs.map f = ys.map f) : (xs.filter p).map f = (ys.filter p).map f := by
  induction xs generalizing ys with
  | nil =>
    obtain rfl := List.map_eq_nil_iff.mp h.symm
    rfl
  | cons x xs ih =>
    obtain ⟨y, ys, rfl, hy, hys⟩ := List.map_eq_cons_iff.mp h.symm
    rw [List.filter_cons, List.filter_cons, hp x y hy.symm]
    split
    next => rw [List.map_cons, List.map_cons, hy, ih hys.symm]
    next => exact ih hys.symm

theorem map_find?_eq_of_map_eq {p : α → Bool} (hp : ∀ x y, f x = f y → p x = p y)
    {xs ys : List α} (h : xs.map f = ys.map f) : (xs.find? p).map f = (ys.find? p).map f := by
  rw [← List.head?_filter, ← List.head?_filter, ← List.head?_map, ← List.head?_map,
    map_filter_eq_of_map_eq hp h]

end

/-! ### Forms -/

namespace SExpr

@[simp] theorem tagged_inj {tag tag' : String} {es es' : List SExpr} :
    tagged tag es = tagged tag' es' ↔ tag = tag' ∧ es = es' := by
  simp [tagged]

@[simp] theorem dump_text (s : String) : Label.dump s = text s := by
  show ofDocument (.text s) = text s
  rw [ofDocument]

/-- The marks of an entry are told from what stands behind them. -/
theorem marks_append_inj {description description' : Option String} {deprecated deprecated' : Bool}
    {items items' : List SExpr}
    (h : marks description deprecated ++ [form items] = marks description' deprecated' ++ [form items']) :
    Label.present? description = Label.present? description' ∧ deprecated = deprecated' ∧
      items = items' := by
  rw [marks, marks] at h
  cases deprecated <;> cases deprecated' <;> cases hd : Label.present? description <;>
    cases hd' : Label.present? description' <;> simp_all

theorem marks_append_ne_required {description : Option String} {deprecated : Bool}
    {items es : List SExpr} :
    marks description deprecated ++ [form items] ≠ symbol ":required" :: es := by
  rw [marks]
  cases deprecated <;> cases Label.present? description <;> simp

theorem required_append_inj {required required' : Bool} {description description' : Option String}
    {deprecated deprecated' : Bool} {items items' : List SExpr}
    (h : (if required then [symbol ":required"] else []) ++
        (marks description deprecated ++ [form items]) =
      (if required' then [symbol ":required"] else []) ++
        (marks description' deprecated' ++ [form items'])) :
    required = required' ∧ marks description deprecated ++ [form items] =
      marks description' deprecated' ++ [form items'] := by
  cases required <;> cases required'
  · exact ⟨rfl, h⟩
  · exact absurd h marks_append_ne_required
  · exact absurd h.symm marks_append_ne_required
  · exact ⟨rfl, List.append_cancel_left h⟩

end SExpr

open SExpr

/-! ### References and types -/

theorem Reference.symbol_eq_of_dump {r r' : Reference String} (h : r.dump = r'.dump) :
    r.symbol = r'.symbol := by
  obtain ⟨name, scope⟩ := r
  obtain ⟨name', scope'⟩ := r'
  simp only [Reference.dump, dump_text, tagged_inj, List.cons.injEq, SExpr.text.injEq] at h
  obtain ⟨-, rfl, h⟩ := h
  rcases scope with _ | scope <;> rcases scope' with _ | scope'
  · rfl
  · cases h
  · cases h
  · simp only [List.cons.injEq, SExpr.text.injEq, true_and] at h
    obtain ⟨hpath, hpackage⟩ := h
    have hsource : scope.source = scope'.source := by
      rw [Scope.source, Scope.source, hpath]
      cases hp : Label.present? scope.package <;> cases hp' : Label.present? scope'.package <;>
        simp_all
    simp only [Reference.symbol, hsource]

theorem Reference.request_eq_of_symbol {r r' : Reference String} (h : r.symbol = r'.symbol) :
    r.request = r'.request := by
  rw [Reference.symbol, Reference.symbol] at h
  rw [Reference.request, Reference.request]
  split at h <;> split at h <;> simp_all

theorem Reference.plan_eq_of_dump {r r' : Reference String} (h : r.dump = r'.dump) :
    r.plan = r'.plan := by
  have hsymbol := Reference.symbol_eq_of_dump h
  rw [Reference.plan, Reference.plan, hsymbol, Reference.request_eq_of_symbol hsymbol]

theorem Kind.tag_injective {k k' : Kind} (h : k.tag = k'.tag) : k = k' := by
  have hk := Kind.ofTag?_tag k
  rw [h, Kind.ofTag?_tag] at hk
  exact (Option.some.inj hk).symm

theorem choicesText_eq_of_dump {cs cs' : Option (List String)}
    (h : (TypeExpr.string cs).dump = (TypeExpr.string cs').dump) :
    choicesText cs = choicesText cs' := by
  have hlabel : ∀ x y : String, Label.dump x = Label.dump y → Label.literal x = Label.literal y := by
    intro x y hxy
    rw [dump_text, dump_text, SExpr.text.injEq] at hxy
    rw [hxy]
  rcases cs with _ | _ | ⟨c, cs⟩ <;> rcases cs' with _ | _ | ⟨c', cs'⟩ <;>
    first | rfl | (simp [TypeExpr.dump] at h; done) | skip
  -- both offer a choice
  rw [TypeExpr.dump, TypeExpr.dump, tagged_inj, List.cons.injEq] at h
  exact congrArg (String.intercalate " | ") (map_eq_of_map_eq hlabel h.2.2)

namespace TypeExpr

/-- A dump begins with the tag of the kind of its type. -/
theorem exists_dump_eq (t : TypeExpr String) : ∃ arguments, t.dump = tagged t.kind.tag arguments := by
  cases t with
  | string choices => rcases choices with _ | _ | ⟨c, cs⟩ <;> exact ⟨_, by rw [dump]; rfl⟩
  | _ => exact ⟨_, by rw [dump]; rfl⟩

theorem exists_dump_eq_form (t : TypeExpr String) : ∃ items, t.dump = form items := by
  obtain ⟨arguments, h⟩ := t.exists_dump_eq
  exact ⟨_, h⟩

theorem kind_eq_of_dump {t t' : TypeExpr String} (h : t.dump = t'.dump) : t.kind = t'.kind := by
  obtain ⟨arguments, ht⟩ := t.exists_dump_eq
  obtain ⟨arguments', ht'⟩ := t'.exists_dump_eq
  rw [ht, ht', tagged_inj] at h
  exact Kind.tag_injective h.1

theorem isOptional_eq (t : TypeExpr String) : t.isOptional = decide (t.kind = .optional) := by
  cases t <;> rfl

theorem isResource_eq (t : TypeExpr String) : t.isResource = decide (t.kind = .resource) := by
  cases t <;> rfl

theorem dumps_eq_map (ts : List (TypeExpr String)) : dumps ts = ts.map dump := by
  induction ts with
  | nil => rw [dumps, List.map_nil]
  | cons t ts ih => rw [dumps, List.map_cons, ih]

theorem symbol?_eq_of_dump {t t' : TypeExpr String} (h : t.dump = t'.dump) :
    t.symbol? = t'.symbol? := by
  have hk := kind_eq_of_dump h
  cases t <;> cases t' <;> first | rfl | (cases hk; done) | skip
  rw [dump, dump] at h
  exact congrArg some (Reference.symbol_eq_of_dump h)

theorem symbols_eq_of_dumps {ts ts' : List (TypeExpr String)} (h : dumps ts = dumps ts') :
    ts.filterMap symbol? = ts'.filterMap symbol? := by
  have hid (ts : List (TypeExpr String)) : ts.filterMap symbol? = (ts.map symbol?).filterMap id := by
    rw [List.filterMap_map]
    rfl
  rw [dumps_eq_map, dumps_eq_map] at h
  rw [hid, hid, map_eq_of_map_eq (fun _ _ => symbol?_eq_of_dump) h]

end TypeExpr

namespace Property

theorem dumps_eq_map (ps : List (Property String)) : dumps ps = ps.map dump := by
  induction ps with
  | nil => rw [dumps, List.map_nil]
  | cons p ps ih => rw [dumps, List.map_cons, ih]

/-- A dump shows the name and the dump of the value, and what documentation is made from. -/
theorem dump_inj {p p' : Property String} (h : p.dump = p'.dump) :
    p.name = p'.name ∧ p.required = p'.required ∧
      Label.present? p.description = Label.present? p'.description ∧
      p.deprecated = p'.deprecated ∧ p.value.dump = p'.value.dump := by
  obtain ⟨name, value, required, description, deprecated⟩ := p
  obtain ⟨name', value', required', description', deprecated'⟩ := p'
  obtain ⟨items, hv⟩ := value.exists_dump_eq_form
  obtain ⟨items', hv'⟩ := value'.exists_dump_eq_form
  rw [dump, dump, hv, hv', tagged_inj] at h
  simp only [dump_text, List.cons_append, List.append_assoc, List.cons.injEq, SExpr.text.injEq] at h
  obtain ⟨-, hname, h⟩ := h
  obtain ⟨hrequired, hmarks⟩ := required_append_inj h
  obtain ⟨hdescription, hdeprecated, hitems⟩ := marks_append_inj hmarks
  refine ⟨hname, hrequired, hdescription, hdeprecated, ?_⟩
  show value.dump = value'.dump
  rw [hv, hv', hitems]

theorem isMetadata_eq_of_dump {p p' : Property String} (h : p.dump = p'.dump) :
    Definition.isMetadata p = Definition.isMetadata p' := by
  rw [Definition.isMetadata, Definition.isMetadata, (dump_inj h).1]

end Property

theorem Text.DocBlock.ofLabel_eq_of_present {description description' : Option String}
    (h : Label.present? description = Label.present? description') (deprecated : Bool)
    (indent : Nat) :
    Text.DocBlock.ofLabel description deprecated indent =
      Text.DocBlock.ofLabel description' deprecated indent := by
  rw [Text.DocBlock.ofLabel, Text.DocBlock.ofLabel, h]

theorem Plan.doc_eq_of_present {description description' : Option String}
    (h : Label.present? description = Label.present? description') (deprecated : Bool)
    (indent : Nat) : Plan.doc description deprecated indent = Plan.doc description' deprecated indent := by
  rw [Plan.doc, Plan.doc, Text.DocBlock.ofLabel_eq_of_present h]

/-- The dump of an object shows its parents and its properties. -/
theorem TypeExpr.object_dump_inj {properties properties' : List (Property String)}
    {parents parents' : List (Reference String)}
    (h : (object properties parents).dump = (object properties' parents').dump) :
    Property.dumps properties = Property.dumps properties' ∧
      parents.map Reference.dump = parents'.map Reference.dump := by
  have hne : ∀ {ps : List (Property String)} {arguments es : List SExpr},
      Property.dumps ps ≠ tagged "inherit" arguments :: es := by
    intro ps arguments es he
    rcases ps with _ | ⟨⟨name, value, required, description, deprecated⟩, ps⟩
    · rw [Property.dumps] at he
      cases he
    · rw [Property.dumps, Property.dump, List.cons.injEq, tagged_inj] at he
      exact absurd he.1.1 (by decide)
  rw [dump, dump, tagged_inj] at h
  obtain ⟨-, h⟩ := h
  rcases parents with _ | ⟨r, parents⟩ <;> rcases parents' with _ | ⟨r', parents'⟩
  · exact ⟨h, rfl⟩
  · exact absurd h hne
  · exact absurd h.symm hne
  · simp only [List.isEmpty_cons, Bool.false_eq_true, if_false, List.cons_append, List.nil_append,
      List.cons.injEq, tagged_inj, true_and] at h
    exact ⟨h.2, h.1⟩

mutual

-- by induction on the first type: the second has its kind, and the dumps of their parts agree
theorem TypeExpr.plan_eq_of_dump (t t' : TypeExpr String) (h : t.dump = t'.dump)
    (declaration : Bool) : t.plan declaration = t'.plan declaration := by
  have hk := TypeExpr.kind_eq_of_dump h
  cases t with
  | string choices =>
    cases t' with
    | string choices' => rw [TypeExpr.plan, TypeExpr.plan, choicesText_eq_of_dump h]
    | _ => cases hk
  | integer | float | boolean | unknown =>
    cases t' <;> first | rfl | cases hk
  | array items =>
    cases t' with
    | array items' =>
      simp only [TypeExpr.dump, tagged_inj, List.cons.injEq, and_true, true_and] at h
      rw [TypeExpr.plan, TypeExpr.plan, TypeExpr.plan_eq_of_dump items items' h]
    | _ => cases hk
  | map values =>
    cases t' with
    | map values' =>
      simp only [TypeExpr.dump, tagged_inj, List.cons.injEq, and_true, true_and] at h
      rw [TypeExpr.plan, TypeExpr.plan, TypeExpr.plan_eq_of_dump values values' h]
    | _ => cases hk
  | optional value =>
    cases t' with
    | optional value' =>
      simp only [TypeExpr.dump, tagged_inj, List.cons.injEq, and_true, true_and] at h
      rw [TypeExpr.plan, TypeExpr.plan, TypeExpr.plan_eq_of_dump value value' h]
    | _ => cases hk
  | union variants =>
    cases t' with
    | union variants' =>
      simp only [TypeExpr.dump, tagged_inj, true_and] at h
      rw [TypeExpr.plan, TypeExpr.plan, TypeExpr.plans_eq_of_dumps variants variants' h,
        TypeExpr.symbols_eq_of_dumps h]
    | _ => cases hk
  | reference target =>
    cases t' with
    | reference target' =>
      rw [TypeExpr.dump, TypeExpr.dump] at h
      rw [TypeExpr.plan, TypeExpr.plan, Reference.plan_eq_of_dump h]
    | _ => cases hk
  | object properties parents =>
    cases t' with
    | object properties' parents' =>
      obtain ⟨hproperties, hparents⟩ := TypeExpr.object_dump_inj h
      have hplans := map_eq_of_map_eq (fun _ _ => Reference.plan_eq_of_dump) hparents
      have hsymbols := map_eq_of_map_eq (fun _ _ => Reference.symbol_eq_of_dump) hparents
      rw [TypeExpr.plan, TypeExpr.plan, Property.plans_eq_of_dumps properties properties' hproperties]
      cases declaration
      · simp only [Bool.false_eq_true, if_false, hplans, hsymbols]
      · rfl
    | _ => cases hk
  | resource properties scope =>
    cases t' with
    | resource properties' scope' => rw [TypeExpr.plan, TypeExpr.plan]
    | _ => cases hk

theorem TypeExpr.plans_eq_of_dumps (ts ts' : List (TypeExpr String))
    (h : TypeExpr.dumps ts = TypeExpr.dumps ts') : TypeExpr.plans ts = TypeExpr.plans ts' := by
  cases ts with
  | nil =>
    cases ts' with
    | nil => rfl
    | cons t' rest' => simp [TypeExpr.dumps] at h
  | cons t rest =>
    cases ts' with
    | nil => simp [TypeExpr.dumps] at h
    | cons t' rest' =>
      rw [TypeExpr.dumps, TypeExpr.dumps, List.cons.injEq] at h
      rw [TypeExpr.plans, TypeExpr.plans, TypeExpr.plan_eq_of_dump t t' h.1,
        TypeExpr.plans_eq_of_dumps rest rest' h.2]

theorem Property.plan_eq_of_dump (p p' : Property String) (h : p.dump = p'.dump) :
    p.plan = p'.plan := by
  obtain ⟨hname, hrequired, hdescription, hdeprecated, hvalue⟩ := Property.dump_inj h
  cases p with
  | mk name value required description deprecated =>
    cases p' with
    | mk name' value' required' description' deprecated' =>
      simp only [Property.name, Property.required, Property.description, Property.deprecated,
        Property.value] at hname hrequired hdescription hdeprecated hvalue
      subst hname hrequired hdeprecated
      rw [Property.plan, Property.plan, TypeExpr.plan_eq_of_dump value value' hvalue,
        TypeExpr.isOptional_eq, TypeExpr.isOptional_eq, TypeExpr.kind_eq_of_dump hvalue,
        Plan.doc_eq_of_present hdescription]

theorem Property.plans_eq_of_dumps (ps ps' : List (Property String))
    (h : Property.dumps ps = Property.dumps ps') : Property.plans ps = Property.plans ps' := by
  cases ps with
  | nil =>
    cases ps' with
    | nil => rfl
    | cons p' rest' => simp [Property.dumps] at h
  | cons p rest =>
    cases ps' with
    | nil => simp [Property.dumps] at h
    | cons p' rest' =>
      rw [Property.dumps, Property.dumps, List.cons.injEq] at h
      rw [Property.plans, Property.plans, Property.plan_eq_of_dump p p' h.1,
        Property.plans_eq_of_dumps rest rest' h.2]

end

/-! ### Declarations -/

namespace Definition

variable {d d' : Definition String}

theorem dump_inj (h : d.dump = d'.dump) :
    d.name = d'.name ∧ d.doc = d'.doc ∧ d.value.dump = d'.value.dump := by
  obtain ⟨items, hv⟩ := d.value.exists_dump_eq_form
  obtain ⟨items', hv'⟩ := d'.value.exists_dump_eq_form
  rw [dump, dump, hv, hv', tagged_inj] at h
  simp only [dump_text, List.cons_append, List.cons.injEq, SExpr.text.injEq] at h
  obtain ⟨-, hname, h⟩ := h
  obtain ⟨hdescription, hdeprecated, hitems⟩ := marks_append_inj h
  refine ⟨hname, ?_, ?_⟩
  · rw [doc, doc, hdeprecated, Plan.doc_eq_of_present hdescription]
  · rw [hv, hv', hitems]

/-- What a definition tells of its metadata: the symbol of its type, or what is wrong. -/
theorem map_metadata (d : Definition String) :
    d.metadata.map (fun found => found.2.symbol) = (do
      let properties ← d.requireProperties
      let place := (Location.ofDefinition (.text d.name)).withProperty (.text metadataName)
      match properties.filter isMetadata with
      | [p] =>
        match p.value.symbol? with
        | some symbol => .ok symbol
        | none => .error (.ofCause (.metadataKind (.text d.name) p.value.kind) (some place))
      | found => .error (.ofCause (.metadataCount (.text d.name) found.length) (some place))) := by
  rw [metadata]
  cases d.requireProperties with
  | error e => rfl
  | ok properties =>
    rw [Traversal.ok_bind, Traversal.ok_bind]
    rcases properties.filter isMetadata with _ | ⟨p, _ | ⟨q, rest⟩⟩
    · rfl
    · simp only
      cases p.value <;> rfl
    · rfl

theorem map_properties?_eq_of_dump {t t' : TypeExpr String} (h : t.dump = t'.dump) :
    t.properties?.map (List.map Property.dump) = t'.properties?.map (List.map Property.dump) := by
  have hk := TypeExpr.kind_eq_of_dump h
  cases t with
  | object properties parents =>
    cases t' with
    | object properties' parents' =>
      have hproperties := (TypeExpr.object_dump_inj h).1
      rw [Property.dumps_eq_map, Property.dumps_eq_map] at hproperties
      exact congrArg some hproperties
    | _ => cases hk
  | resource properties scope =>
    cases t' with
    | resource properties' scope' =>
      rw [TypeExpr.dump, TypeExpr.dump, Property.dumps_eq_map, Property.dumps_eq_map] at h
      simp only [tagged_inj, List.cons.injEq, true_and] at h
      exact congrArg some h.2
    | _ => cases hk
  | _ => cases t' <;> first | rfl | cases hk

theorem map_metadata_eq_of_dump (h : d.dump = d'.dump) :
    d.metadata.map (fun found => found.2.symbol) =
      d'.metadata.map (fun found => found.2.symbol) := by
  obtain ⟨hname, -, hvalue⟩ := dump_inj h
  rw [map_metadata, map_metadata, requireProperties, requireProperties, hname]
  have hproperties := map_properties?_eq_of_dump hvalue
  cases hp : d.value.properties? <;> cases hp' : d'.value.properties? <;>
    simp only [hp, hp', Option.map_none, Option.map_some, reduceCtorEq, Option.some.injEq]
      at hproperties
  · rfl
  next properties properties' =>
    have hfound := map_filter_eq_of_map_eq (fun _ _ => Property.isMetadata_eq_of_dump) hproperties
    rw [Traversal.ok_bind, Traversal.ok_bind]
    rcases hl : properties.filter isMetadata with _ | ⟨p, _ | ⟨q, rest⟩⟩ <;>
      rcases hl' : properties'.filter isMetadata with _ | ⟨p', _ | ⟨q', rest'⟩⟩ <;>
      simp only [hl, hl', List.map_cons, List.map_nil, List.cons.injEq, reduceCtorEq, and_true,
        and_false] at hfound
    · rfl
    · have hpvalue := (Property.dump_inj hfound).2.2.2.2
      simp only [TypeExpr.symbol?_eq_of_dump hpvalue, TypeExpr.kind_eq_of_dump hpvalue]
    · have hlength := congrArg List.length hfound.2.2
      rw [List.length_map, List.length_map] at hlength
      simp only [List.length_cons, hlength]

theorem resourcePlan_eq_of_dump (h : d.dump = d'.dump) {properties properties' : List (Property String)}
    {scope scope' : String} (hv : d.value = .resource properties scope)
    (hv' : d'.value = .resource properties' scope') :
    d.resourcePlan properties scope = d'.resourcePlan properties' scope' := by
  obtain ⟨hname, hdoc, hvalue⟩ := dump_inj h
  rw [hv, hv', TypeExpr.dump, TypeExpr.dump, dump_text, dump_text] at hvalue
  simp only [tagged_inj, List.cons.injEq, SExpr.text.injEq, true_and, Property.dumps_eq_map] at hvalue
  obtain ⟨rfl, hproperties⟩ := hvalue
  have hbody : TypeExpr.plan false (.object (properties.filter fun p => !isMetadata p) []) =
      TypeExpr.plan false (.object (properties'.filter fun p => !isMetadata p) []) := by
    refine TypeExpr.plan_eq_of_dump _ _ ?_ false
    rw [TypeExpr.dump, TypeExpr.dump, Property.dumps_eq_map, Property.dumps_eq_map,
      map_filter_eq_of_map_eq (fun _ _ hp => congrArg not (Property.isMetadata_eq_of_dump hp))
        hproperties]
  have hsymbol : d.symbol = d'.symbol := congrArg Symbol.declared hname
  have hlist : d.listName = d'.listName := by rw [listName, listName, hname]
  rw [resourcePlan, resourcePlan, hbody, hdoc, hsymbol, hlist, hname]
  -- only the failure of the metadata is kept
  exact Traversal.bind_eq_of_map_eq (fun _ _ _ => rfl) (map_metadata_eq_of_dump h)

theorem interfacePlan_eq_of_dump (h : d.dump = d'.dump) {parents parents' : List (Reference String)}
    (hparents : parents.map Reference.dump = parents'.map Reference.dump) :
    d.interfacePlan parents = d'.interfacePlan parents' := by
  obtain ⟨hname, hdoc, hvalue⟩ := dump_inj h
  have hsymbol : d.symbol = d'.symbol := congrArg Symbol.declared hname
  have hsymbols := map_eq_of_map_eq (fun _ _ => Reference.symbol_eq_of_dump) hparents
  have hrequests := map_eq_of_map_eq
    (fun _ _ hr => Reference.request_eq_of_symbol (Reference.symbol_eq_of_dump hr)) hparents
  have hspellings := map_eq_of_map_eq
    (fun _ _ hr => congrArg Plan.spelling (Reference.symbol_eq_of_dump hr)) hparents
  have hempty : parents.isEmpty = parents'.isEmpty := by
    rw [← List.isEmpty_map (f := Reference.symbol), hsymbols, List.isEmpty_map]
  simp only [interfacePlan, TypeExpr.plan_eq_of_dump _ _ hvalue, hname, hdoc, hsymbol, hsymbols,
    hrequests, hspellings, hempty]

/-- The plan of a definition is made from what its dump shows. -/
theorem plan_eq_of_dump (h : d.dump = d'.dump) : d.plan = d'.plan := by
  obtain ⟨hname, hdoc, hvalue⟩ := dump_inj h
  have hk := TypeExpr.kind_eq_of_dump hvalue
  have hsymbol : d.symbol = d'.symbol := congrArg Symbol.declared hname
  have halias : d.aliasPlan = d'.aliasPlan := by
    rw [aliasPlan, aliasPlan, TypeExpr.plan_eq_of_dump _ _ hvalue, hname, hdoc, hsymbol]
  rw [plan, plan]
  cases hv : d.value with
  | resource properties scope =>
    cases hv' : d'.value with
    | resource properties' scope' => exact resourcePlan_eq_of_dump h hv hv'
    | _ => rw [hv, hv'] at hk; cases hk
  | object properties parents =>
    cases hv' : d'.value with
    | object properties' parents' =>
      have hobjects := hvalue
      rw [hv, hv'] at hobjects
      exact interfacePlan_eq_of_dump h (TypeExpr.object_dump_inj hobjects).2
    | _ => rw [hv, hv'] at hk; cases hk
  | reference target =>
    cases hv' : d'.value with
    | reference target' =>
      rw [hv, hv', TypeExpr.dump, TypeExpr.dump] at hvalue
      have htarget := Reference.symbol_eq_of_dump hvalue
      simp only [reexportPlan, hname, hdoc, hsymbol, htarget, Reference.request_eq_of_symbol htarget]
    | _ => rw [hv, hv'] at hk; cases hk
  | _ =>
    cases hv' : d'.value with
    | resource | object | reference => rw [hv, hv'] at hk; cases hk
    | _ => exact halias

end Definition

end ApiTypes
