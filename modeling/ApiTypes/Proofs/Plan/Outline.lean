import ApiTypes.Plan.Definition
import ApiTypes.Proofs.Plan.References

/-! The plans of declarations in outline. An outline says which identifiers a plan
registers, which names its statements introduce, which identifiers of its module it looks
up besides, which members of the support library it imports, and which references it
shows. The header, the base type and every kind of definition have one. A re-export
registers its name without introducing it. -/

namespace ApiTypes

open Traversal

structure Outline where
  declares : List String := []
  introduces : List String := []
  lookups : List String := []
  library : List String := []
  references : List (Reference String) := []

/-- The use of a member of the support library; only the factory is a value. -/
def libraryUse (member : String) : Use :=
  ⟨supportLibrary, member, none, member ≠ "factory"⟩

/-- The use of a reference to another module. -/
def Reference.use? (r : Reference String) : Option Use :=
  r.request.use?

namespace Outline

/-- The symbols that a plan reads beside its references. -/
def own (o : Outline) : List (Symbol String) :=
  (o.declares ++ o.lookups).map .declared ++ o.library.map supportSymbol

/-- The symbols that a plan may spell out. -/
def spellable (o : Outline) : List (Symbol String) :=
  (o.introduces ++ o.lookups).map .declared ++ o.library.map supportSymbol ++
    o.references.map Reference.symbol

end Outline

/-- A plan that does what an outline says. -/
structure Plan.Realizes (p : Plan String) (o : Outline) : Prop where
  plain : ∀ r ∈ p.requests, r.IsPlain
  declared : declaredBy p.requests = o.declares
  uses : ∀ u, u ∈ usesBy p.requests ↔
    u ∈ o.library.map libraryUse ∨ u ∈ o.references.filterMap Reference.use?
  symbols : ∀ f : Symbol String → Option Error, (∀ symbol ∈ o.own, f symbol = none) →
    p.symbols.findSome? f = (o.references.map Reference.symbol).findSome? f
  spelled : p.spelled ⊆ o.spellable
  shown : o.references.map Reference.symbol ⊆ p.spelled
  introduced : p.introduced = o.introduces.map Symbol.declared
  total : p.Total

namespace Outline

def header : Outline :=
  { declares := [versionType, versionValue], introduces := [versionType, versionValue]
    lookups := [versionType] }

def base (metadata : Reference String) : Outline :=
  { declares := [resourceBase], introduces := [resourceBase], lookups := [versionType]
    library := ["Resource", "NameScope"], references := [metadata] }

end Outline

namespace Definition

/-- The identifiers that a definition registers. -/
def declares (d : Definition String) : List String :=
  if d.value.isResource then [d.name, d.listName] else [d.name]

/-- The references of a definition; a resource leaves its metadata to the base type. -/
def references (d : Definition String) : List (Reference String) :=
  match d.value with
  | .resource properties _ => Property.allReferences (properties.filter fun p => !isMetadata p)
  | value => value.references

def isReexport (d : Definition String) : Bool :=
  match d.value with
  | .reference _ => true
  | _ => false

def outline (d : Definition String) : Outline :=
  match d.value with
  | .resource _ _ =>
    { declares := d.declares, introduces := [d.name, d.name, d.listName]
      lookups := [resourceBase, versionValue], library := ["factory", "ResourceList"]
      references := d.references }
  | .reference _ => { declares := d.declares, references := d.references }
  | _ => { declares := d.declares, introduces := d.declares, references := d.references }

end Definition

/-! ### Parts of plans -/

namespace Plan

@[simp] theorem symbols_ofPieces (ps : List (Piece String)) :
    (ofPieces ps).symbols = ps.flatMap Piece.symbols := rfl

@[simp] theorem spelled_ofPieces (ps : List (Piece String)) :
    (ofPieces ps).spelled = ps.filterMap Piece.spelled? := rfl

@[simp] theorem requests_ofPieces (ps : List (Piece String)) : (ofPieces ps).requests = [] := rfl

@[simp] theorem symbols_ofRequests (rs : List (Request String)) : (ofRequests rs).symbols = [] := rfl

@[simp] theorem spelled_ofRequests (rs : List (Request String)) : (ofRequests rs).spelled = [] := rfl

@[simp] theorem requests_ofRequests (rs : List (Request String)) : (ofRequests rs).requests = rs := rfl

@[simp] theorem symbols_declare (x : String) : (declare x).symbols = [] := rfl

@[simp] theorem spelled_declare (x : String) : (declare x).spelled = [] := rfl

@[simp] theorem requests_declare (x : String) : (declare x).requests = [.name x .declaration] := rfl

@[simp] theorem symbols_ofText (s : String) : (ofText s).symbols = [] := rfl

@[simp] theorem spelled_ofText (s : String) : (ofText s).spelled = [] := rfl

@[simp] theorem requests_ofText (s : String) : (ofText s : Plan String).requests = [] := rfl

@[simp] theorem symbols_spelling (s : Symbol String) : (spelling s).symbols = [s] := rfl

@[simp] theorem spelled_spelling (s : Symbol String) : (spelling s).spelled = [s] := rfl

@[simp] theorem requests_spelling (s : Symbol String) : (spelling s).requests = [] := rfl

@[simp] theorem symbols_check (ss : List (Symbol String)) : (check ss).symbols = ss :=
  List.append_nil ss

@[simp] theorem spelled_check (ss : List (Symbol String)) : (check ss).spelled = [] := rfl

@[simp] theorem requests_check (ss : List (Symbol String)) : (check ss).requests = [] := rfl

@[simp] theorem symbols_requireTexts (ss : List (Symbol String)) : (requireTexts ss).symbols = ss :=
  List.append_nil ss

@[simp] theorem spelled_requireTexts (ss : List (Symbol String)) : (requireTexts ss).spelled = [] :=
  rfl

@[simp] theorem requests_requireTexts (ss : List (Symbol String)) :
    (requireTexts ss).requests = [] := rfl

section

variable (separator : String) (ps : List (Plan String))

theorem requests_intercalate :
    (intercalate separator ps).requests = ps.flatMap (·.requests) := by
  fun_induction intercalate separator ps with
  | case1 => rfl
  | case2 p => simp
  | case3 p rest _ ih => simp [ih]

theorem symbols_intercalate :
    (intercalate separator ps).symbols = ps.flatMap symbols := by
  fun_induction intercalate separator ps with
  | case1 => rfl
  | case2 p => simp
  | case3 p rest _ ih => simp [ih]

theorem spelled_intercalate :
    (intercalate separator ps).spelled = ps.flatMap spelled := by
  fun_induction intercalate separator ps with
  | case1 => rfl
  | case2 p => simp
  | case3 p rest _ ih => simp [ih]

theorem forall_pieces_intercalate {P : Piece String → Prop} (hsep : P (.text separator))
    (h : ∀ p ∈ ps, ∀ piece ∈ p.pieces, P piece) :
    ∀ piece ∈ (intercalate separator ps).pieces, P piece := by
  fun_induction intercalate separator ps with
  | case1 => exact List.forall_mem_nil _
  | case2 p => exact h p List.mem_cons_self
  | case3 p rest _ ih =>
    have hrest := ih fun q hq => h q (List.mem_cons_of_mem _ hq)
    simp only [pieces_append, ofText, List.forall_mem_append, List.forall_mem_singleton]
    exact ⟨⟨h p List.mem_cons_self, hsep⟩, hrest⟩

end

theorem total_ofPieces {ps : List (Piece String)} (h : ∀ p ∈ ps, p.Total) : (ofPieces ps).Total := h

theorem total_ofRequests (rs : List (Request String)) : (ofRequests rs).Total :=
  List.forall_mem_nil _

theorem total_declare (x : String) : (declare x).Total :=
  List.forall_mem_nil _

theorem Shows.symbols_eq_nil {p : Plan String} (h : p.Shows []) : p.symbols = [] := by
  have hs := h.symbols fun _ => some (.ofCause .nestedResource)
  cases hp : p.symbols with
  | nil => rfl
  | cons s rest => rw [hp] at hs; cases hs

variable (rs : List (Reference String))

theorem plain_references : ∀ r ∈ rs.map Reference.request, r.IsPlain := by
  intro request hm
  obtain ⟨r, -, rfl⟩ := List.mem_map.mp hm
  rw [Reference.request]
  split <;> trivial

theorem declaredBy_references : declaredBy (rs.map Reference.request) = [] := by
  rw [declaredBy, List.filterMap_map, List.filterMap_eq_nil_iff]
  intro r _
  rw [Function.comp_apply, Reference.request]
  split <;> rfl

theorem usesBy_references : usesBy (rs.map Reference.request) = rs.filterMap Reference.use? := by
  rw [usesBy, List.filterMap_map]
  rfl

end Plan

namespace Plan

theorem header_realizes : (header : Plan String).Realizes .header where
  plain := by simp [header, Request.IsPlain]
  declared := rfl
  uses := by simp [header, usesBy, Request.use?, Outline.header]
  symbols f hown := by
    simp only [Outline.own, Outline.header, List.map_nil, List.append_nil, List.forall_mem_map,
      List.forall_mem_append, List.forall_mem_cons] at hown
    simp [header, Plan.symbols, Piece.symbols, Piece.versionLiteral, ownSymbol, Label.ofText, hown,
      Outline.header]
  spelled := by
    show [ownSymbol versionType, ownSymbol versionValue, ownSymbol versionType] ⊆ _
    simp [Outline.header, Outline.spellable, ownSymbol, Label.ofText]
  shown := List.nil_subset _
  introduced := rfl
  total := by simp [header, Plan.Total, Piece.Total, Piece.versionLiteral]

theorem base_realizes (metadata : Reference String) :
    (base metadata).Realizes (.base metadata) where
  plain := by
    have hm := plain_references [metadata]
    rw [List.map_singleton, List.forall_mem_singleton] at hm
    simp only [base, List.forall_mem_cons]
    exact ⟨trivial, rfl, trivial, trivial, hm, List.forall_mem_nil _⟩
  declared := by
    have hm := declaredBy_references [metadata]
    show resourceBase :: declaredBy ([metadata].map Reference.request) = [resourceBase]
    rw [hm]
  uses u := by
    have hm := usesBy_references [metadata]
    show u ∈ libraryUse "Resource" :: libraryUse "NameScope" ::
      usesBy ([metadata].map Reference.request) ↔ _
    rw [hm]
    simp [Outline.base, or_assoc]
  symbols f hown := by
    simp only [Outline.own, Outline.base, List.forall_mem_map,
      List.forall_mem_append, List.forall_mem_cons] at hown
    simp [base, Plan.symbols, Piece.symbols, Piece.versionText, ownSymbol, Label.ofText, hown,
      Outline.base]
  spelled := by
    show [supportSymbol "Resource", ownSymbol resourceBase, supportSymbol "NameScope",
      supportSymbol "Resource", ownSymbol versionType, metadata.symbol] ⊆ _
    simp [ownSymbol, Label.ofText, Outline.base, Outline.spellable]
  shown := by
    show [metadata.symbol] ⊆ [supportSymbol "Resource", ownSymbol resourceBase,
      supportSymbol "NameScope", supportSymbol "Resource", ownSymbol versionType, metadata.symbol]
    simp
  introduced := rfl
  total := by simp [base, Plan.Total, Piece.Total, Piece.versionText]

end Plan

end ApiTypes
