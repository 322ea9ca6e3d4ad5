import ApiTypes.Proofs.Module.Later
import ApiTypes.Proofs.Plan.Outline
import ApiTypes.Proofs.Plan.Printing

/-! The plan of a type as a member of a module. It is applied when nothing has a spelling yet, and
rendered when everything has one. In the first of these it uses the imports of the references
that the type shows, from left to right, and nothing else; in the second it writes what the
printer writes over the spellings of the module, whatever other members have done to the
imports in between. -/

namespace ApiTypes

open Op ApiTypes.Module

/-- What the plan of a type does to its module for one of its references: one of another module is
imported as a type and under its own name, one of this module is looked up later. -/
def Reference.bind (r : Reference String) : Op (Module String) (Binding String) :=
  match r.scope with
  | none => return .lookup r.name
  | some scope => useImport scope.source r.name none true

/-- The binding of a reference. -/
def Reference.binding (r : Reference String) : Binding String :=
  match r.scope with
  | none => .lookup r.name
  | some scope => .member scope.source.identity r.name

/-! ### Applying -/

section

variable {m : Module String}

theorem exec_request_reference (hm : m.phase = .applying) (r : Reference String) :
    exec (request r.request) m = exec r.bind m := by
  rw [Reference.request, Reference.bind]
  cases r.scope with
  | none => rfl
  | some scope => rw [request, exec_bind_of_ok (exec_expect hm _)]

theorem adds_bind (r : Reference String) : Within Adds r.bind := by
  rw [Reference.bind]
  cases r.scope with
  | none => exact within_pure _
  | some scope => exact adds_useImport scope.source r.name none true

theorem exec_actions_references (hm : m.phase = .applying) (rs : List (Reference String))
    (bindings : List (Binding String)) :
    exec (((rs.map Reference.request).map .request).foldlM applyAction bindings) m =
      exec (do return bindings ++ (← rs.mapM Reference.bind)) m := by
  induction rs generalizing m bindings with
  | nil =>
    rw [List.mapM_nil]
    show (_, m) = (_, m)
    rw [List.append_nil]
  | cons r rest ih =>
    have hphase := (adds_bind r m).phase
    rw [List.map_cons, List.map_cons, List.foldlM_cons, List.mapM_cons, exec_bind, applyAction,
      perform, exec_bind, exec_bind, exec_request_reference hm r, exec_bind, exec_bind]
    rcases hx : exec r.bind m with ⟨e | b, t⟩
    · rfl
    · rw [hx] at hphase
      have hrest := ih (hphase.trans hm) (bindings ++ [b])
      simp only [exec_pure] at hrest ⊢
      rw [hrest, exec_bind, exec_bind]
      rcases exec (rest.mapM Reference.bind) t with ⟨e | bs, u⟩
      · rfl
      · simp only [exec_pure, List.append_assoc, List.cons_append, List.nil_append]

/-- Applying a member that requests references binds them in turn. -/
theorem exec_applyMember_references (hm : m.phase = .applying) {p : Plan String}
    {rs : List (Reference String)} (hp : p.requests = rs.map Reference.request) :
    exec (applyMember p.toMember) m = exec (rs.mapM Reference.bind) m := by
  have hactions := exec_actions_references hm rs []
  rw [← hp] at hactions
  rw [applyMember_eq]
  refine hactions.trans ?_
  rw [exec_bind]
  rcases exec (rs.mapM Reference.bind) m with ⟨_ | _, _⟩ <;> rfl

/-- Bindings are recorded as uses, as long as the import table takes them. -/
theorem exec_mapM_bind (ha : m.imports.applied = false) (rs : List (Reference String)) :
    exec (rs.mapM Reference.bind) m =
      (.ok (rs.map Reference.binding),
        { m with imports := m.imports.recordAll (rs.filterMap Reference.use?) }) := by
  induction rs generalizing m with
  | nil => rfl
  | cons r rest ih =>
    have hbind : exec r.bind m =
        (.ok r.binding, { m with imports := m.imports.recordAll r.use?.toList }) := by
      rw [Reference.bind, Reference.binding, Reference.use?, Reference.request]
      cases r.scope with
      | none => rfl
      | some scope => exact exec_useImport ha ⟨scope.source, r.name, none, true⟩
    have happlied : (m.imports.recordAll r.use?.toList).applied = false := by
      rw [Imports.applied_recordAll, ha]
    rw [List.mapM_cons, exec_bind_of_ok hbind, exec_bind_of_ok (ih happlied), exec_pure]
    cases hu : r.use? with
    | none => rw [List.filterMap_cons_none hu]; rfl
    | some u => rw [List.filterMap_cons_some hu]; rfl

/-- Nothing is registered by a name. -/
theorem names_mapM_bind (m : Module String) (rs : List (Reference String)) :
    (exec (rs.mapM Reference.bind) m).2.names = m.names := by
  have hbind : ∀ (m : Module String) (r : Reference String), (exec r.bind m).2.names = m.names := by
    intro m r
    rw [Reference.bind]
    cases r.scope with
    | none => rfl
    | some scope =>
      cases ha : m.imports.applied with
      | true => rw [exec_useImport_of_applied ha]
      | false => rw [exec_useImport ha ⟨scope.source, r.name, none, true⟩]
  induction rs generalizing m with
  | nil => rfl
  | cons r rest ih =>
    have hfirst := hbind m r
    rw [List.mapM_cons]
    rcases hx : exec r.bind m with ⟨e | b, t⟩
    · rw [hx] at hfirst
      rw [exec_bind, hx]
      exact hfirst
    · rw [hx] at hfirst
      have hrest := (ih t).trans hfirst
      rw [exec_bind_of_ok hx, exec_bind]
      rcases hy : exec (rest.mapM Reference.bind) t with ⟨e | bs, u⟩ <;> rwa [hy] at hrest

/-- What a reference is bound to is imported. -/
theorem isSome_find?_bind {r : Reference String} {b : Binding String} {m' : Module String}
    (h : exec r.bind m = (.ok b, m')) {scope : Scope String} (hs : r.scope = some scope) :
    (m'.imports.find? scope.source.identity r.name).isSome := by
  rw [Reference.bind, hs] at h
  cases ha : m.imports.applied with
  | true =>
    rw [exec_useImport_of_applied ha] at h
    cases h
  | false =>
    rw [exec_useImport ha ⟨scope.source, r.name, none, true⟩] at h
    obtain rfl := (Prod.mk.inj h).2
    rw [Imports.find?_record, if_pos ⟨rfl, rfl⟩]
    rfl

theorem isSome_find?_mapM_bind {rs : List (Reference String)} {bindings : List (Binding String)}
    {m' : Module String} (h : exec (rs.mapM Reference.bind) m = (.ok bindings, m'))
    {r : Reference String} (hr : r ∈ rs) {scope : Scope String} (hs : r.scope = some scope) :
    (m'.imports.find? scope.source.identity r.name).isSome := by
  obtain ⟨before, after, rfl⟩ := List.append_of_mem hr
  obtain ⟨_, b, bs, _, t, -, -, -, hbind, hafter⟩ := exec_mapM_split h
  have hadds := within_mapM adds_bind after t
  rw [hafter] at hadds
  exact hadds.listed _ _ (isSome_find?_bind hbind hs)

end

/-! ### Rendering -/

/-- A plan reads no bindings: it renders over the spellings that its module has by then. -/
theorem exec_renderMember_toMember (ctx : Context String) (kept : List (Binding String))
    (p : Plan String) (m : Module String) :
    exec (renderMember ctx kept p.toMember) m = (p.render ctx m.spell, m) := by
  have hparts : ∀ part ∈ p.toMember.parts, part.IsPlain := by
    intro part hpart
    obtain ⟨piece, -, rfl⟩ := List.mem_map.mp hpart
    trivial
  have htexts : p.toMember.parts.mapM (Part.text ctx m.spell (kept.map m.read)) =
      p.pieces.mapM (Piece.render ctx m.spell) := by
    show (p.pieces.map Part.piece).mapM _ = _
    rw [List.mapM_map]
    rfl
  rw [renderMember_eq, exec_bind, exec_renderParts ctx hparts, htexts, Plan.render]
  cases p.pieces.mapM (Piece.render ctx m.spell) with
  | error e => rfl
  | ok texts =>
    show exec (do return String.join (← liftExcept (texts.mapM Label.requireText))) m = _
    rw [Label.mapM_requireText]
    rfl

/-- A local reference has a spelling in a module that renders exactly if it is declared. -/
theorem exists_spelling_declared_iff {m m' : Module String} (h : Became m m')
    (hp : m'.phase = .rendering) (x : String) :
    (∃ s, m'.spell (.declared x) = .ok s) ↔ x ∈ Names.declaredIn m'.names.entries := by
  have hfind := Names.find?_declaration m'.names.entries x
  change (m'.names.groupOf x).find? _ = _ at hfind
  rw [spell, Module.read, Names.declared, Label.requireKey_string, Traversal.ok_bind, hfind,
    Names.mem_declaredIn, ← Names.length_ofUsage]
  cases hfirst : (Names.ofUsage x .declaration m'.names.entries)[0]? with
  | none =>
    have hnil := List.getElem?_eq_none_iff.mp hfirst
    exact iff_of_false (by rintro ⟨s, hs⟩; cases hs) (by omega)
  | some found =>
    obtain ⟨n, serial⟩ := found
    have hpos := (List.getElem?_eq_some_iff.mp hfirst).1
    obtain ⟨hentry, -, -, -⟩ := (Names.ofUsage_getElem? ..).mp hfirst
    have hlt := (List.getElem?_eq_some_iff.mp hentry).1
    obtain ⟨s, hs⟩ := (h.resolved hp).2 serial hlt
    rw [Names.token, hentry] at hs
    exact iff_of_true ⟨s, hs⟩ hpos

/-! ### The refinement -/

/-- What a printer finds in a module that renders: every import of the type has a final spelling,
so that the text is there as soon as the local names are declared. -/
structure Printable (t : TypeExpr String) (declaration : Bool) (m : Module String) : Prop where
  spelled : ∀ r ∈ t.shown declaration, ∀ scope, r.scope = some scope →
    ∃ i x, m.imports.find? scope.source.identity r.name = some i ∧ i.token m.names = .ok x ∧
      m.spell r.symbol = .ok x
  final : ∀ m', Later m m' → m'.phase = .rendering ∧ m'.spell = m.spell
  total : (∃ text, t.print m.spell declaration = .ok text) ↔
    ∀ r ∈ t.shown declaration, r.scope = none → r.name ∈ Names.declaredIn m.names.entries

/-- A plan that comes to what the printer of a type comes to. -/
structure Refines (p : Plan String) (t : TypeExpr String) (declaration : Bool) : Prop where
  /-- Applied, it binds the references that the type shows from left to right. -/
  applied : ∀ m : Module String, m.phase = .applying →
    exec (applyMember p.toMember) m = exec ((t.shown declaration).mapM Reference.bind) m
  /-- It declares nothing. -/
  undeclaring : ∀ m : Module String, m.phase = .applying →
    (exec (applyMember p.toMember) m).2.names = m.names
  /-- An import table that takes uses records them, and nothing else changes. -/
  recorded : ∀ m : Module String, m.phase = .applying → m.imports.applied = false →
    exec (applyMember p.toMember) m =
      (.ok ((t.shown declaration).map Reference.binding),
        { m with imports :=
            m.imports.recordAll ((t.shown declaration).filterMap Reference.use?) })
  /-- The printer writes the references in this order, with fixed texts around them. -/
  ordered : LaysOut (fun spell => t.print spell declaration) (t.shown declaration)
  /-- Rendered, it writes what the printer writes, and changes nothing. -/
  rendered : ∀ ctx kept (m : Module String),
    exec (renderMember ctx kept p.toMember) m = (t.print m.spell declaration, m)
  /-- Whatever happens after it was applied, the printer is served when the module renders. -/
  served : ∀ (m : Module String) kept m₁ m₂, m.phase = .applying →
    exec (applyMember p.toMember) m = (.ok kept, m₁) → Later m₁ m₂ → m₂.phase = .rendering →
      Printable t declaration m₂
  /-- A run that gives its texts has the text of the printer among them. -/
  run : ∀ ctx (m mₑ : Module String) before after fs,
    m.members = before ++ p.toMember :: after → exec (fragments ctx) m = (.ok fs, mₑ) →
      ∃ text, fs[before.length + 1]? = some text ∧ t.print mₑ.spell declaration = .ok text

/-- A row has a text exactly if all of its references have spellings. -/
theorem Row.exists_text_iff {spell : Symbol String → Except Error String} (row : Row) :
    (∃ text, row.text spell = .ok text) ↔ ∀ r ∈ row.references, ∃ x, spell r.symbol = .ok x := by
  have hmapM : (∃ text, row.text spell = .ok text) ↔
      ∃ texts, row.mapM (Sum.elim .ok fun r => spell r.symbol) = .ok texts := by
    rw [Row.text]
    cases row.mapM (Sum.elim .ok fun r => spell r.symbol) with
    | error e => exact iff_of_false (by rintro ⟨_, h⟩; cases h) (by rintro ⟨_, h⟩; cases h)
    | ok texts => exact iff_of_true ⟨_, rfl⟩ ⟨_, rfl⟩
  rw [hmapM, Traversal.exists_mapM_eq_ok_iff]
  simp only [Row.references, List.mem_filterMap]
  constructor
  · rintro h r ⟨part, hpart, hr⟩
    obtain rfl := Sum.getRight?_eq_some_iff.mp hr
    exact h _ hpart
  · rintro h (s | r) hpart
    · exact ⟨s, rfl⟩
    · exact h r ⟨_, hpart, rfl⟩

/-- Only an object is another one as the body of a declaration. -/
theorem TypeExpr.plan_true_or (t : TypeExpr String) :
    (t.plan true = t.plan false ∧ t.shown true = t.references) ∨
      ∃ properties parents, t = .object properties parents := by
  cases t with
  | object properties parents => exact .inr ⟨properties, parents, rfl⟩
  | string | integer | float | boolean | unknown | array | map | union | optional | reference
  | resource => exact .inl ⟨by rw [TypeExpr.plan, TypeExpr.plan], rfl⟩

/-- The plan of a type shows what its printer is to show. -/
theorem TypeExpr.plan_shows (declaration : Bool) (t : TypeExpr String) :
    Traversal.Yields (nested? t.holdsResource) (fun p => p.Shows (t.shown declaration))
      (t.plan declaration) := by
  cases declaration with
  | false =>
    rw [TypeExpr.shown_false]
    exact TypeExpr.plan_yields t
  | true =>
    rcases t.plan_true_or with ⟨hplan, hshown⟩ | ⟨properties, parents, rfl⟩
    · rw [hplan, hshown]
      exact TypeExpr.plan_yields t
    · rw [plan_object_declaration]
      exact TypeExpr.plan_yields (.object properties [])

/-- What the printer finds in a module that renders, if the references of its type were bound. -/
theorem printable_of_later {t : TypeExpr String} {declaration : Bool}
    (h : t.holdsResource = false) {m m₁ m₂ : Module String} {bindings : List (Binding String)}
    (hm : m.phase = .applying)
    (hbind : exec ((t.shown declaration).mapM Reference.bind) m = (.ok bindings, m₁))
    (hlater : Later m₁ m₂) (hp : m₂.phase = .rendering) : Printable t declaration m₂ := by
  have hm₁ : m₁.phase = .applying := by
    have hadds := within_mapM adds_bind (t.shown declaration) m
    rw [hbind] at hadds
    exact hadds.phase.trans hm
  have hbecame := hlater.became hm₁
  have hspelled : ∀ r ∈ t.shown declaration, ∀ scope, r.scope = some scope →
      ∃ i x, m₂.imports.find? scope.source.identity r.name = some i ∧ i.token m₂.names = .ok x ∧
        m₂.spell r.symbol = .ok x := by
    intro r hr scope hs
    have hlisted := isSome_find?_mapM_bind hbind hr hs
    rw [Reference.symbol, hs]
    exact hbecame.exists_spelling hp hlisted
  refine ⟨hspelled, fun m' h' => ?_, ?_⟩
  · have hstands := hlater.stands hm₁ hp h'
    exact ⟨hstands.phase, spell_eq_of_tables hstands.names hstands.imports⟩
  · obtain ⟨row, hrow, htext⟩ := TypeExpr.laysOut_print declaration t h
    have hprint : t.print m₂.spell declaration = row.text m₂.spell := htext m₂.spell
    rw [hprint, Row.exists_text_iff, hrow]
    refine forall₂_congr fun r hr => ?_
    cases hs : r.scope with
    | none =>
      have hlocal : r.symbol = .declared r.name := by rw [Reference.symbol, hs]
      rw [hlocal, exists_spelling_declared_iff hbecame hp]
      simp
    | some scope =>
      obtain ⟨-, x, -, -, hx⟩ := hspelled r hr scope hs
      exact iff_of_true ⟨x, hx⟩ (by simp)

/-- The plan of a type that holds no resource refines the printer of the type. -/
theorem TypeExpr.plan_refines_print (t : TypeExpr String) (declaration : Bool)
    (h : t.holdsResource = false) :
    ∃ p, t.plan declaration = .ok p ∧ Refines p t declaration := by
  have hshows := TypeExpr.plan_shows declaration t
  rw [h] at hshows
  obtain ⟨p, hplan, hp⟩ := hshows
  have hrender : ∀ ctx spell, p.render ctx spell = t.print spell declaration := by
    intro ctx spell
    have hprints := TypeExpr.plan_prints ctx spell declaration t
    rw [h, hplan] at hprints
    obtain ⟨p', hp', hprint⟩ := hprints
    obtain rfl := Except.ok.inj hp'
    exact hprint
  have happlied : ∀ m : Module String, m.phase = .applying →
      exec (applyMember p.toMember) m = exec ((t.shown declaration).mapM Reference.bind) m :=
    fun m hm => exec_applyMember_references hm hp.requests
  have hrendered : ∀ ctx kept (m : Module String),
      exec (renderMember ctx kept p.toMember) m = (t.print m.spell declaration, m) := by
    intro ctx kept m
    rw [exec_renderMember_toMember, hrender]
  have hserved : ∀ (m : Module String) kept m₁ m₂, m.phase = .applying →
      exec (applyMember p.toMember) m = (.ok kept, m₁) → Later m₁ m₂ → m₂.phase = .rendering →
        Printable t declaration m₂ := by
    intro m kept m₁ m₂ hm happly hlater hphase
    rw [happlied m hm] at happly
    exact printable_of_later h hm happly hlater hphase
  refine ⟨p, hplan, happlied, fun m hm => ?_, fun m hm ha => ?_,
    TypeExpr.laysOut_print declaration t h, hrendered, hserved, ?_⟩
  · rw [happlied m hm, names_mapM_bind]
  · rw [happlied m hm, exec_mapM_bind ha]
  · intro ctx m mₑ before after fs hm hrun
    obtain ⟨m₁, kept, m₂, m₃, text, m₄, hm₁, happly, hlater, hphase, htext, hplace, m₅, hend,
      rfl⟩ := turn_of_fragments hm hrun
    rw [hrendered] at htext
    obtain ⟨hprint, rfl⟩ := Prod.mk.inj htext
    refine ⟨text, hplace, ?_⟩
    have hfinal := ((hserved m₁ kept m₂ m₃ hm₁ happly hlater hphase).final m₅ hend).2
    rw [← hprint, ← hfinal]
    exact congrArg (t.print · declaration) (spell_eq_of_tables rfl rfl)

/-- An object with a parent that another member imports as a value and gives away the name of:
behind the plan the import is renamed, and the text has the new name wherever the parent stands. -/
theorem TypeExpr.plan_refines_print_renamed :
    let ctx : Context String :=
      { apiVersion := "v1", dependencies := [], modulePath := "v1.ts", engine := .deno
        packaging := .hosted }
    let parent : Reference String :=
      { name := "Meta", scope := some { group := {}, version := "v2" } }
    let t : TypeExpr String :=
      .object [.mk "spec" (.array (.reference parent)) false none false,
        .mk "pod" (.reference { name := "Pod" }) true none false] [parent]
    let other : Member String :=
      .script [.request (.name "Meta" .declaration), .request (.name "Pod" .declaration),
        .use (.sibling "v2.ts") "Meta"] []
    t.holdsResource = false ∧ ∃ p, t.plan false = .ok p ∧ Refines p t false ∧
      (exec (fragments ctx) { path := "v1.ts", members := [p.toMember, other] }).1 =
        .ok ["import \x7b Meta as Meta_ \x7d from \"./v2.ts\";",
          "Meta_ & \x7b\n  spec?: Array<Meta_> | null;\n  pod: Pod;\n\x7d", ""] := by
  intro ctx parent t other
  obtain ⟨p, hplan, hrefines⟩ := t.plan_refines_print false rfl
  have hrun : ((t.plan false).toOption.bind fun p =>
      (exec (fragments ctx) { path := "v1.ts", members := [p.toMember, other] }).1.toOption) =
        some ["import \x7b Meta as Meta_ \x7d from \"./v2.ts\";",
          "Meta_ & \x7b\n  spec?: Array<Meta_> | null;\n  pod: Pod;\n\x7d", ""] := by
    decide +kernel
  rw [hplan] at hrun
  exact ⟨rfl, p, hplan, hrefines, Traversal.eq_ok_of_toOption hrun⟩

end ApiTypes
