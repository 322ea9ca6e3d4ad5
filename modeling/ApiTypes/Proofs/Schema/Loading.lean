import ApiTypes.Proofs.Import.Queue
import ApiTypes.Proofs.Schema.DocumentForm

/-! Loading gives back what was written. The document of a type is loaded as the type, at
every location, and the document of a schema as the schema, exactly if no name of a group, of
its directory or of a package is an empty text, and no package is listed twice. -/

namespace ApiTypes

open Document (require_eq exists_elementsOf_eq)
open Traversal

/-! ### Distinct packages -/

/-- The texts that a list holds more than once, each one time. -/
def repeats (ps : List String) : List String :=
  (ps.filter fun p => 1 < ps.count p).eraseDups

theorem repeats_eq_nil_iff (ps : List String) : repeats ps = [] ↔ ps.Nodup := by
  rw [List.nodup_iff_count_le_one, List.eq_nil_iff_forall_not_mem]
  refine forall_congr' fun p => ?_
  rw [repeats, List.mem_eraseDups, List.mem_filter, decide_eq_true_iff]
  constructor
  · intro h
    by_contra hlt
    exact h ⟨List.count_pos_iff.mp (by omega), by omega⟩
  · rintro h ⟨-, hlt⟩
    omega

theorem Document.same_text (s t : String) : (text s).same (text t) = (s == t) := by
  rw [same]
  rfl

theorem Document.less_text (s t : String) : (text s).less (text t) = decide (s < t) := by
  rw [less]

theorem eraseDupsBy_text (ps : List String) :
    (ps.map Document.text).eraseDupsBy Document.same = ps.eraseDups.map .text := by
  -- the rest is filtered before the recursion goes on, so it is on the length
  cases ps with
  | nil => rfl
  | cons p rest =>
    have hrest : (rest.map Document.text).filter (fun d => decide (d.same (.text p) = false)) =
        (rest.filter fun q => !q == p).map .text := by
      rw [List.filter_map]
      refine congrArg _ (List.filter_congr fun q _ => ?_)
      simp [Document.same_text]
    rw [List.map_cons, List.eraseDupsBy_cons, hrest,
      eraseDupsBy_text (rest.filter fun q => !q == p), List.eraseDups_cons, List.map_cons]
termination_by ps.length
decreasing_by
  have hle := List.length_filter_le (fun q => !q == p) rest
  rw [List.length_cons]
  omega

theorem repeated_text (ps : List String) :
    repeated (ps.map .text) = (repeats ps).map .text := by
  have hcount (p : String) :
      (ps.map Document.text).countP (fun d => d.same (.text p)) = ps.count p := by
    rw [List.countP_map, List.count]
    exact List.countP_congr fun q _ => by simp [Document.same_text]
  rw [repeated, List.filter_map, repeats, ← eraseDupsBy_text]
  refine congrArg _ (congrArg _ (List.filter_congr fun p _ => ?_))
  exact congrArg (fun n => decide (1 < n)) (hcount p)

theorem sortBy_text (ps : List String) :
    Label.sortBy id (ps.map Document.text) =
      .ok ((ps.mergeSort fun p q => !decide (q < p)).map .text) := by
  have hu :
      Label.unordered? ((ps.map Document.text).map fun d => Label.document (id d)) = none := by
    rw [List.map_map]
    exact Label.unordered?_text ps
  have hn : ((ps.map Document.text).any fun d => Label.isNan (id d)) = false := by
    rw [List.any_map]
    exact List.any_eq_false.mpr fun p _ => Bool.false_ne_true
  rw [Label.sortBy, hu, hn]
  refine congrArg Except.ok (Eq.symm (List.map_mergeSort fun p _ q _ => ?_))
  exact congrArg _ (Document.less_text q p).symm

/-- Packages that are listed more than once are refused together, in order. -/
theorem requireDistinct_text (ds : List (Dependency String)) :
    requireDistinct (ds.map (Dependency.relabel .text)) =
      if (ds.map (·.package)).Nodup then .ok ()
      else .error (.ofCause (.repeatedDependency
        ((repeats (ds.map (·.package))).mergeSort fun p q => !decide (q < p))) (some {})) := by
  have hpackages : (ds.map (Dependency.relabel .text)).map (·.package) =
      (ds.map (·.package)).map Document.text := by
    rw [List.map_map, List.map_map]
    rfl
  have hkeys (ps : List String) : (ps.map Document.text).forM Label.requireKey = .ok () := by
    induction ps with
    | nil => rfl
    | cons p rest ih => exact ih
  have htexts (ps : List String) : (ps.map Document.text).mapM Label.requireText = .ok ps := by
    rw [List.mapM_map]
    exact (mapM_eq_ok (g := id) fun p _ => rfl).trans (by rw [List.map_id])
  have hempty :
      ((repeats (ds.map (·.package))).mergeSort fun p q => !decide (q < p)).isEmpty = true ↔
        (ds.map (·.package)).Nodup := by
    rw [List.isEmpty_iff, ← repeats_eq_nil_iff, ← List.length_eq_zero_iff, List.length_mergeSort,
      List.length_eq_zero_iff]
  simp only [requireDistinct, hpackages, repeated_text, hkeys, sortBy_text, htexts, ok_bind,
    List.isEmpty_map]
  exact if_congr hempty rfl rfl

/-! ### The texts of what is loaded -/

theorem Label.optionalText?_text (label : Option String) :
    optionalText? (label.map .text) = some label := by
  cases label <;> rfl

theorem mapM_map_eq_some {α β γ : Type} {f : β → Option γ} {k : α → β} {g : α → γ}
    (h : ∀ x, f (k x) = some (g x)) (l : List α) : (l.map k).mapM f = some (l.map g) := by
  have hfk : f ∘ k = fun x => some (g x) := funext h
  rw [List.mapM_map, hfk]
  exact List.mapM_pure

theorem Group.texts?_relabel (g : Group String) : (g.relabel .text).texts? = some g := by
  rw [texts?, relabel]
  simp only [Label.optionalText?_text]
  rfl

theorem Scope.texts?_relabel (s : Scope String) : (s.relabel .text).texts? = some s := by
  rw [texts?, relabel]
  simp only [Label.optionalText?_text, Group.texts?_relabel]
  rfl

theorem Reference.texts?_loaded (r : Reference String) : r.loaded.texts? = some r.stated := by
  obtain ⟨name, scope⟩ := r
  cases scope with
  | none => rfl
  | some scope =>
    simp only [loaded, relabel, stated, texts?, Option.map_some, Scope.texts?_relabel]
    rfl

theorem Dependency.texts?_relabel (d : Dependency String) : (d.relabel .text).texts? = some d := rfl

theorem Document.requireTexts?_text (ss : List String) :
    requireTexts? (ss.map .text) = some ss := by
  have htext (s : String) : (text s).text? = some (id s) := rfl
  rw [requireTexts?, mapM_map_eq_some htext, List.map_id]

mutual

/-- A type that was written and loaded is a type over texts again. -/
theorem TypeExpr.texts?_relabel (t : TypeExpr String) :
    (t.relabel .text Reference.loaded).texts? = some (t.relabel id Reference.stated) := by
  cases t with
  | string choices =>
    cases choices with
    | none => rw [TypeExpr.relabel, TypeExpr.relabel]; rfl
    | some cs =>
      rw [TypeExpr.relabel, TypeExpr.relabel, Option.map_some, Option.map_some, TypeExpr.texts?,
        Document.requireTexts?_text, List.map_id]
      rfl
  | integer | float | boolean | unknown =>
    rw [TypeExpr.relabel, TypeExpr.relabel, TypeExpr.texts?]
  | array items | map items | optional items =>
    rw [TypeExpr.relabel, TypeExpr.relabel, TypeExpr.texts?, TypeExpr.texts?_relabel items]
    rfl
  | union variants =>
    rw [TypeExpr.relabel, TypeExpr.relabel, TypeExpr.texts?, TypeExpr.allTexts?_relabel variants]
    rfl
  | reference target =>
    rw [TypeExpr.relabel, TypeExpr.relabel, TypeExpr.texts?, target.texts?_loaded]
    rfl
  | object properties parents =>
    rw [TypeExpr.relabel, TypeExpr.relabel, TypeExpr.texts?, Property.allTexts?_relabel properties,
      mapM_map_eq_some Reference.texts?_loaded]
    rfl
  | resource properties scope =>
    rw [TypeExpr.relabel, TypeExpr.relabel, TypeExpr.texts?, Property.allTexts?_relabel properties]
    rfl

theorem TypeExpr.allTexts?_relabel (ts : List (TypeExpr String)) :
    TypeExpr.allTexts? (TypeExpr.relabelAll .text Reference.loaded ts) =
      some (TypeExpr.relabelAll id Reference.stated ts) := by
  cases ts with
  | nil => rfl
  | cons t rest =>
    rw [TypeExpr.relabelAll, TypeExpr.relabelAll, TypeExpr.allTexts?, TypeExpr.texts?_relabel t,
      TypeExpr.allTexts?_relabel rest]
    rfl

theorem Property.texts?_relabel (p : Property String) :
    (p.relabel .text Reference.loaded).texts? = some (p.relabel id Reference.stated) := by
  cases p with
  | mk name value required description deprecated =>
    rw [Property.relabel, Property.relabel, Property.texts?, TypeExpr.texts?_relabel value,
      Label.optionalText?_text, Option.map_id]
    rfl

theorem Property.allTexts?_relabel (ps : List (Property String)) :
    Property.allTexts? (Property.relabelAll .text Reference.loaded ps) =
      some (Property.relabelAll id Reference.stated ps) := by
  cases ps with
  | nil => rfl
  | cons p rest =>
    rw [Property.relabelAll, Property.relabelAll, Property.allTexts?, Property.texts?_relabel p,
      Property.allTexts?_relabel rest]
    rfl

end

theorem Definition.texts?_relabel (d : Definition String) :
    (d.relabel .text Reference.loaded).texts? = some (d.relabel id Reference.stated) := by
  rw [texts?, relabel, relabel, Label.optionalText?_text, TypeExpr.texts?_relabel, Option.map_id]
  rfl

/-! ### What is written and loaded unchanged -/

/-- A group whose name and directory are absent or not empty. -/
def Group.Stated (g : Group String) : Prop :=
  g.name ≠ some "" ∧ g.directory ≠ some ""

def Scope.Stated (s : Scope String) : Prop :=
  s.group.Stated ∧ s.package ≠ some ""

def Reference.Stated (r : Reference String) : Prop :=
  ∀ s ∈ r.scope, s.Stated

theorem Label.present?_eq_self_iff (label : Option String) :
    present? label = label ↔ label ≠ some "" := by
  cases label with
  | none => simp [present?]
  | some s => by_cases hs : s = "" <;> simp [present?, Option.filter_some, hs]

theorem Group.stated_eq_self_iff (g : Group String) : g.stated = g ↔ g.Stated := by
  obtain ⟨name, directory⟩ := g
  rw [stated, Stated, Group.mk.injEq, Label.present?_eq_self_iff, Label.present?_eq_self_iff]

theorem Scope.stated_eq_self_iff (s : Scope String) : s.stated = s ↔ s.Stated := by
  obtain ⟨group, version, package⟩ := s
  rw [stated, Stated, Scope.mk.injEq, Group.stated_eq_self_iff, Label.present?_eq_self_iff]
  simp

theorem Reference.stated_eq_self_iff (r : Reference String) : r.stated = r ↔ r.Stated := by
  obtain ⟨name, scope⟩ := r
  cases scope with
  | none => simp [stated, Stated]
  | some scope => simp [stated, Stated, Scope.stated_eq_self_iff]

theorem map_eq_self_iff {α : Type} {f : α → α} {l : List α} : l.map f = l ↔ ∀ x ∈ l, f x = x := by
  have h := List.map_inj_left (l := l) (f := f) (g := id)
  rwa [List.map_id] at h

mutual

/-- Leaving out empty names changes nothing exactly if no reference has one. -/
theorem TypeExpr.relabel_eq_self_iff (t : TypeExpr String) :
    t.relabel id Reference.stated = t ↔ ∀ r ∈ t.references, r.Stated := by
  cases t with
  | string choices =>
    simp [TypeExpr.relabel, TypeExpr.references]
  | integer | float | boolean | unknown =>
    simp [TypeExpr.relabel, TypeExpr.references]
  | array items | map items | optional items =>
    simp [TypeExpr.relabel, TypeExpr.references, TypeExpr.relabel_eq_self_iff items]
  | union variants =>
    simp [TypeExpr.relabel, TypeExpr.references, TypeExpr.relabelAll_eq_self_iff variants]
  | reference target =>
    simp [TypeExpr.relabel, TypeExpr.references, target.stated_eq_self_iff]
  | object properties parents =>
    rw [TypeExpr.relabel, TypeExpr.references, TypeExpr.object.injEq, map_eq_self_iff,
      Property.relabelAll_eq_self_iff properties, List.forall_mem_append, and_comm]
    simp only [Reference.stated_eq_self_iff]
  | resource properties scope =>
    simp [TypeExpr.relabel, TypeExpr.references, Property.relabelAll_eq_self_iff properties]

theorem TypeExpr.relabelAll_eq_self_iff (ts : List (TypeExpr String)) :
    TypeExpr.relabelAll id Reference.stated ts = ts ↔
      ∀ r ∈ TypeExpr.allReferences ts, r.Stated := by
  cases ts with
  | nil => simp [TypeExpr.relabelAll, TypeExpr.allReferences]
  | cons t rest =>
    rw [TypeExpr.relabelAll, TypeExpr.allReferences, List.cons.injEq,
      TypeExpr.relabel_eq_self_iff t, TypeExpr.relabelAll_eq_self_iff rest, List.forall_mem_append]

theorem Property.relabel_eq_self_iff (p : Property String) :
    p.relabel id Reference.stated = p ↔ ∀ r ∈ p.references, r.Stated := by
  cases p with
  | mk name value required description deprecated =>
    simp [Property.relabel, Property.references, TypeExpr.relabel_eq_self_iff value]

theorem Property.relabelAll_eq_self_iff (ps : List (Property String)) :
    Property.relabelAll id Reference.stated ps = ps ↔
      ∀ r ∈ Property.allReferences ps, r.Stated := by
  cases ps with
  | nil => simp [Property.relabelAll, Property.allReferences]
  | cons p rest =>
    rw [Property.relabelAll, Property.allReferences, List.cons.injEq,
      Property.relabel_eq_self_iff p, Property.relabelAll_eq_self_iff rest, List.forall_mem_append]

end

theorem Definition.relabel_eq_self_iff (d : Definition String) :
    d.relabel id Reference.stated = d ↔ ∀ r ∈ d.value.references, r.Stated := by
  obtain ⟨name, value, description, deprecated⟩ := d
  simp [relabel, TypeExpr.relabel_eq_self_iff]

/-! ### Loading what was written -/

theorem TypeExpr.map_texts?_document (place : Location) (t : TypeExpr String) :
    (TypeExpr.ofDocument? place t.document).map TypeExpr.texts? =
      .ok (some (t.relabel id Reference.stated)) := by
  rw [TypeExpr.ofDocument?_document, Except.map, TypeExpr.texts?_relabel]

theorem Definition.map_texts?_document (d : Definition String) :
    (Definition.ofDocument? d.document).map Definition.texts? =
      .ok (some (d.relabel id Reference.stated)) := by
  rw [Definition.ofDocument?_document, Except.map, Definition.texts?_relabel]

/-- A schema without names that are empty. -/
def Schema.stated (s : Schema String) : Schema String :=
  { s with
    group := s.group.stated
    definitions := s.definitions.map (Definition.relabel id Reference.stated) }

/-- A schema as it is loaded. -/
def Schema.reloaded (s : Schema String) : Schema Document where
  group := s.group.stated.relabel .text
  version := .text s.version
  dependencies := s.dependencies.map (Dependency.relabel .text)
  definitions := s.definitions.map (Definition.relabel .text Reference.loaded)

theorem Schema.ofDocument?_document (s : Schema String) :
    Schema.ofDocument? s.document =
      (requireDistinct (s.dependencies.map (Dependency.relabel .text))).map
        fun _ => s.reloaded := by
  have hgroup : s.document.field? "group" = some s.group.document := rfl
  have hversion : s.document.field? "version" = some (.text s.version) := rfl
  have hdependencies : s.document.field? "dependencies" =
    some (.list (s.dependencies.map Dependency.document)) := rfl
  have hdefinitions : s.document.field? "definitions" =
    some (.list (s.definitions.map Definition.document)) := rfl
  obtain ⟨_, hdependencies⟩ := exists_elementsOf_eq hdependencies
  obtain ⟨_, hdefinitions⟩ := exists_elementsOf_eq hdefinitions
  have hdependency : (s.dependencies.map Dependency.document).mapM Dependency.ofDocument? =
      .ok (s.dependencies.map (Dependency.relabel .text)) := by
    rw [List.mapM_map]
    exact mapM_eq_ok fun d _ => d.ofDocument?_document
  have hdefinition : (s.definitions.map Definition.document).mapM Definition.ofDocument? =
      .ok (s.definitions.map (Definition.relabel .text Reference.loaded)) := by
    rw [List.mapM_map]
    exact mapM_eq_ok fun d _ => d.ofDocument?_document
  simp only [Schema.ofDocument?, require_eq hgroup, require_eq hversion, hdependencies,
    hdefinitions, hdependency, hdefinition, Group.ofDocument?_document, ok_bind, pure_eq_ok]
  cases requireDistinct (s.dependencies.map (Dependency.relabel .text)) <;> rfl

theorem Schema.texts?_reloaded (s : Schema String) : s.reloaded.texts? = some s.stated := by
  have hdependencies := mapM_map_eq_some (g := id) Dependency.texts?_relabel s.dependencies
  have hdefinitions := mapM_map_eq_some Definition.texts?_relabel s.definitions
  rw [List.map_id] at hdependencies
  simp only [reloaded, Schema.texts?, Group.texts?_relabel, hdependencies, hdefinitions]
  rfl

theorem Schema.stated_eq_self_iff (s : Schema String) :
    s.stated = s ↔ s.group.Stated ∧ ∀ d ∈ s.definitions, ∀ r ∈ d.value.references, r.Stated := by
  obtain ⟨group, version, dependencies, definitions⟩ := s
  rw [stated, Schema.mk.injEq, Group.stated_eq_self_iff, map_eq_self_iff]
  simp only [Definition.relabel_eq_self_iff, true_and]

theorem Schema.map_texts?_document (s : Schema String) :
    (Schema.ofDocument? s.document).map Schema.texts? =
      (requireDistinct (s.dependencies.map (Dependency.relabel .text))).map
        fun _ => some s.stated := by
  rw [Schema.ofDocument?_document]
  cases requireDistinct (s.dependencies.map (Dependency.relabel .text)) with
  | error e => rfl
  | ok u => rw [Except.map, Except.map, Schema.texts?_reloaded]; rfl

/-- Loading inverts the document form, as far as names that are not empty go: a schema comes back
exactly if its own group and all its references are stated so and its packages are distinct,
and a definition or a type exactly if its references are, at every location. -/
theorem document_loads_back_iff :
    (∀ s : Schema String, Schema.isSchema s.document = true ∧
      ((Schema.ofDocument? s.document).map Schema.texts? = .ok (some s) ↔
        (s.dependencies.map (·.package)).Nodup ∧ s.group.Stated ∧
          ∀ d ∈ s.definitions, ∀ r ∈ d.value.references, r.Stated)) ∧
    (∀ d : Definition String,
      (Definition.ofDocument? d.document).map Definition.texts? = .ok (some d) ↔
        ∀ r ∈ d.value.references, r.Stated) ∧
    ∀ (t : TypeExpr String) (place : Location),
      (TypeExpr.ofDocument? place t.document).map TypeExpr.texts? = .ok (some t) ↔
        ∀ r ∈ t.references, r.Stated := by
  refine ⟨fun s => ⟨s.isSchema_document, ?_⟩, fun d => ?_, fun t place => ?_⟩
  · rw [Schema.map_texts?_document, requireDistinct_text, ← Schema.stated_eq_self_iff]
    split
    next hdistinct => simp [Except.map, hdistinct]
    next hrepeated => simp [Except.map, hrepeated]
  · rw [Definition.map_texts?_document, Except.ok.injEq, Option.some.injEq,
      Definition.relabel_eq_self_iff]
  · rw [TypeExpr.map_texts?_document, Except.ok.injEq, Option.some.injEq,
      TypeExpr.relabel_eq_self_iff]

end ApiTypes
