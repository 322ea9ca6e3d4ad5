import ApiTypes.Generation
import ApiTypes.Proofs.Plan.Dump
import ApiTypes.Proofs.SExpr.Lexemes
import ApiTypes.Proofs.SExpr.LinePrinter

/-! Dumps are complete. A dump of a schema over texts holds forms, texts and keywords only, so
its text reads back as the dump, laid out or on one line, and the dump shows all that the plans,
the context and the path of the module are made from. Schemas with one dump are generated alike,
for every engine and packaging. -/

namespace ApiTypes

open SExpr

/-! ### Dumps can be read -/

namespace SExpr

theorem readable_tagged {tag : String} {es : List SExpr} (ht : IsWord isForeign tag.toList)
    (h : ∀ e ∈ es, e.Readable isForeign) : (tagged tag es).Readable isForeign :=
  .form (List.forall_mem_cons.mpr ⟨.symbol ht, h⟩)

theorem readable_symbol {name : String} (h : IsWord isForeign name.toList) : (symbol name).Readable isForeign :=
  .symbol h

theorem readable_label (s : String) : (Label.dump s).Readable isForeign := by
  rw [dump_text]
  exact .text s

theorem readable_labels (ss : List String) : ∀ e ∈ ss.map Label.dump, e.Readable isForeign :=
  List.forall_mem_map.mpr fun s _ => readable_label s

theorem readable_marks (description : Option String) (deprecated : Bool) :
    ∀ e ∈ marks description deprecated, e.Readable isForeign := by
  rw [marks, List.forall_mem_append]
  constructor
  · split
    next => exact List.forall_mem_singleton.mpr (readable_symbol (by decide))
    next => exact List.forall_mem_nil _
  · split
    next label _ =>
      rw [List.forall_mem_cons, List.forall_mem_singleton]
      exact ⟨readable_symbol (by decide), readable_label label⟩
    next => exact List.forall_mem_nil _

end SExpr

theorem Reference.readable_dump (r : Reference String) : r.dump.Readable isForeign := by
  refine readable_tagged (by decide) (List.forall_mem_cons.mpr ⟨readable_label r.name, ?_⟩)
  split
  next => exact List.forall_mem_nil _
  next scope _ =>
    rw [List.forall_mem_cons, List.forall_mem_cons]
    refine ⟨readable_symbol (by decide), .text _, ?_⟩
    split
    next package _ =>
      rw [List.forall_mem_cons, List.forall_mem_singleton]
      exact ⟨readable_symbol (by decide), readable_label package⟩
    next => exact List.forall_mem_nil _

mutual

theorem TypeExpr.readable_dump (t : TypeExpr String) : t.dump.Readable isForeign := by
  cases t with
  | string choices =>
    rcases choices with _ | _ | ⟨c, cs⟩ <;> rw [TypeExpr.dump]
    · exact readable_tagged (by decide) (List.forall_mem_nil _)
    · exact readable_tagged (by decide) (List.forall_mem_nil _)
    · exact readable_tagged (by decide)
        (List.forall_mem_cons.mpr ⟨readable_symbol (by decide), readable_labels (c :: cs)⟩)
  | integer | float | boolean | unknown =>
    rw [TypeExpr.dump]
    exact readable_tagged (by decide) (List.forall_mem_nil _)
  | array items =>
    rw [TypeExpr.dump]
    exact readable_tagged (by decide) (List.forall_mem_singleton.mpr (TypeExpr.readable_dump items))
  | map values =>
    rw [TypeExpr.dump]
    exact readable_tagged (by decide) (List.forall_mem_singleton.mpr (TypeExpr.readable_dump values))
  | optional value =>
    rw [TypeExpr.dump]
    exact readable_tagged (by decide) (List.forall_mem_singleton.mpr (TypeExpr.readable_dump value))
  | union variants =>
    rw [TypeExpr.dump]
    exact readable_tagged (by decide) (TypeExpr.readable_dumps variants)
  | reference target =>
    rw [TypeExpr.dump]
    exact target.readable_dump
  | object properties parents =>
    rw [TypeExpr.dump]
    refine readable_tagged (by decide) (List.forall_mem_append.mpr
      ⟨?_, Property.readable_dumps properties⟩)
    split
    next => exact List.forall_mem_nil _
    next =>
      exact List.forall_mem_singleton.mpr (readable_tagged (by decide)
        (List.forall_mem_map.mpr fun r _ => r.readable_dump))
  | resource properties scope =>
    rw [TypeExpr.dump]
    exact readable_tagged (by decide) (List.forall_mem_cons.mpr ⟨readable_symbol (by decide),
      List.forall_mem_cons.mpr ⟨readable_label scope, Property.readable_dumps properties⟩⟩)

theorem TypeExpr.readable_dumps (ts : List (TypeExpr String)) :
    ∀ e ∈ TypeExpr.dumps ts, e.Readable isForeign := by
  cases ts with
  | nil =>
    rw [TypeExpr.dumps]
    exact List.forall_mem_nil _
  | cons t rest =>
    rw [TypeExpr.dumps, List.forall_mem_cons]
    exact ⟨TypeExpr.readable_dump t, TypeExpr.readable_dumps rest⟩

theorem Property.readable_dump (p : Property String) : p.dump.Readable isForeign := by
  cases p with
  | mk name value required description deprecated =>
    rw [Property.dump]
    refine readable_tagged (by decide) ?_
    rw [List.forall_mem_append, List.forall_mem_append, List.forall_mem_singleton,
      List.forall_mem_cons]
    refine ⟨⟨⟨readable_label name, ?_⟩, readable_marks description deprecated⟩,
      TypeExpr.readable_dump value⟩
    split
    next => exact List.forall_mem_singleton.mpr (readable_symbol (by decide))
    next => exact List.forall_mem_nil _

theorem Property.readable_dumps (ps : List (Property String)) :
    ∀ e ∈ Property.dumps ps, e.Readable isForeign := by
  cases ps with
  | nil =>
    rw [Property.dumps]
    exact List.forall_mem_nil _
  | cons p rest =>
    rw [Property.dumps, List.forall_mem_cons]
    exact ⟨Property.readable_dump p, Property.readable_dumps rest⟩

end

theorem Definition.readable_dump (d : Definition String) : d.dump.Readable isForeign := by
  refine readable_tagged (by decide) ?_
  rw [List.cons_append, List.forall_mem_cons, List.forall_mem_append, List.forall_mem_singleton]
  exact ⟨readable_label d.name, readable_marks d.description d.deprecated, d.value.readable_dump⟩

theorem Dependency.readable_dump (d : Dependency String) : d.dump.Readable isForeign :=
  readable_tagged (by decide) (readable_labels [d.package, d.version])

namespace Schema

theorem readable_dump (s : Schema String) : s.dump.Readable isForeign := by
  have hdependencies : (tagged "dependencies" (s.dependencies.map Dependency.dump)).Readable isForeign :=
    readable_tagged (by decide) (List.forall_mem_map.mpr fun d _ => d.readable_dump)
  have hdefinitions : (tagged "definitions" (s.definitions.map Definition.dump)).Readable isForeign :=
    readable_tagged (by decide) (List.forall_mem_map.mpr fun d _ => d.readable_dump)
  refine readable_tagged (by decide) ?_
  simp only [List.forall_mem_cons]
  exact ⟨readable_symbol (by decide), readable_label _, readable_symbol (by decide), .text _,
    hdependencies, hdefinitions, List.forall_mem_nil _⟩

/-- The text of a dump reads back as the dump. -/
theorem read?_dumpText (s : Schema String) : SExpr.read? (s.dumpText true) = some s.dump :=
  read?_pretty s.readable_dump 0 standardWidth

/-- Printing loses nothing. A tree of forms, texts and words is read back from its layout at every
indent and width, and its layouts consist of the same lexemes, one for each token, with blanks
between them. It is also read back from one line, whatever printer wrote it, if that escapes
nothing in the words. The dumps of schemas are such trees for every printer, so the two texts of
a dump read back alike. -/
theorem dumps_read_back :
    (∀ (special : Char → Bool) (e : SExpr), e.Readable special →
      List.Forall₂ (fun l t => Token.cut (.word []) l = [t]) e.lexemes e.tokens ∧
      (∀ indent width : Int, read? (e.pretty indent width) = some e ∧
        Spaced e.lexemes (e.pretty indent width).toList) ∧
      ∀ print escape, LinePrinter print escape special → read? (print e) = some e) ∧
    ∀ s : Schema String, s.dump.Readable isForeign ∧ read? (s.dumpText true) = some s.dump ∧
      ∀ print escape special, LinePrinter print escape special →
        read? (s.dumpText false print) = some s.dump := by
  constructor
  · intro special e h
    refine ⟨forall₂_lexemes h, fun indent width => ⟨read?_pretty h indent width, ?_⟩,
      fun print escape hprint => hprint.read?_print h⟩
    rw [pretty, String.toList_ofList]
    exact spaced_layout e indent width
  · intro s
    refine ⟨s.readable_dump, s.read?_dumpText, fun print escape special hprint => ?_⟩
    exact hprint.read?_print (hprint.readable s.readable_dump)

/-- A tree with empty forms and texts full of what printers escape, some of them as heads. -/
def tangled : SExpr :=
  .form [.form [.form [], .text "(a \"b\"\n"], .symbol ":c", .text "", .text "\x01\\)",
    .form [.symbol "d"]]

/-- A schema with such a text. -/
def described : Schema String :=
  { group := {}, version := "v1"
    definitions := [{ name := "A", value := .integer, description := some "(a \"b\"\n\x01\\)" }] }

theorem dumps_read_back_tangled :
    LinePrinter SExpr.compact compactEscape isPunctuation ∧ tangled.Readable isPunctuation ∧
      read? (tangled.pretty 3 (-1)) = some tangled ∧
      read? (tangled.pretty (-2) 20) = some tangled ∧ read? tangled.compact = some tangled ∧
      read? (described.dumpText true) = some described.dump ∧
      read? (described.dumpText false SExpr.compact) = some described.dump := by
  have h : tangled.Readable isPunctuation := by
    have hhead : (SExpr.form [.form [], .text "(a \"b\"\n"]).Readable isPunctuation := by
      refine .form ?_
      rw [List.forall_mem_cons, List.forall_mem_singleton]
      exact ⟨.form (List.forall_mem_nil _), .text _⟩
    refine .form ?_
    simp only [List.forall_mem_cons]
    exact ⟨hhead, .symbol (by decide), .text _, .text _,
      .form (List.forall_mem_singleton.mpr (.symbol (by decide))), List.forall_mem_nil _⟩
  obtain ⟨htrees, hschemas⟩ := dumps_read_back
  obtain ⟨-, hpretty, hline⟩ := htrees isPunctuation tangled h
  obtain ⟨-, hwide, hcompact⟩ := hschemas described
  exact ⟨linePrinter_compact, h, (hpretty 3 (-1)).1, (hpretty (-2) 20).1,
    hline _ _ linePrinter_compact, hwide, hcompact _ _ _ linePrinter_compact⟩

/-! ### Dumps show what generation reads -/

variable {a b : Schema String}

theorem dependency_eq_of_dump {d d' : Dependency String} (h : d.dump = d'.dump) : d = d' := by
  obtain ⟨package, version⟩ := d
  obtain ⟨package', version'⟩ := d'
  simp only [Dependency.dump, dump_text, tagged_inj, List.cons.injEq, SExpr.text.injEq, and_true,
    true_and] at h
  rw [h.1, h.2]

theorem dump_inj (h : a.dump = b.dump) :
    a.apiVersion = b.apiVersion ∧ a.modulePath = b.modulePath ∧ a.dependencies = b.dependencies ∧
      a.definitions.map Definition.dump = b.definitions.map Definition.dump := by
  simp only [dump, dump_text, tagged_inj, List.cons.injEq, SExpr.text.injEq, and_true,
    true_and] at h
  obtain ⟨hversion, hpath, hdependencies, hdefinitions⟩ := h
  refine ⟨hversion, hpath, ?_, hdefinitions⟩
  have hmap := map_eq_of_map_eq (g := id) (fun _ _ => dependency_eq_of_dump) hdependencies
  rwa [List.map_id, List.map_id] at hmap

theorem base_eq_of_symbol {r r' : Reference String} (h : r.symbol = r'.symbol) :
    Plan.base r = Plan.base r' := by
  rw [Plan.base, Plan.base, Reference.request_eq_of_symbol h, h]

theorem basePlan?_eq_of_dump
    (h : a.definitions.map Definition.dump = b.definitions.map Definition.dump) :
    basePlan? a.definitions = basePlan? b.definitions := by
  have hresource : ∀ d d' : Definition String, d.dump = d'.dump →
      d.value.isResource = d'.value.isResource := by
    intro d d' hd
    rw [TypeExpr.isResource_eq, TypeExpr.isResource_eq,
      TypeExpr.kind_eq_of_dump (Definition.dump_inj hd).2.2]
  have hfirst := map_find?_eq_of_map_eq hresource h
  rw [basePlan?, basePlan?]
  generalize (a.definitions.find? fun d => d.value.isResource) = first at hfirst
  generalize (b.definitions.find? fun d => d.value.isResource) = first' at hfirst
  rcases first with _ | d <;> rcases first' with _ | d'
  · rfl
  · cases hfirst
  · cases hfirst
  · refine Traversal.bind_eq_of_map_eq (fun found found' hs => ?_)
      (Definition.map_metadata_eq_of_dump (Option.some.inj hfirst))
    exact congrArg (fun base => Except.ok (some base)) (base_eq_of_symbol hs)

theorem plans_eq_of_dump
    (h : a.definitions.map Definition.dump = b.definitions.map Definition.dump) :
    a.plans = b.plans := by
  have hplans := map_eq_of_map_eq (fun _ _ => Definition.plan_eq_of_dump) h
  have hmapM : a.definitions.mapM Definition.plan = b.definitions.mapM Definition.plan := by
    have hid (ds : List (Definition String)) :
        ds.mapM Definition.plan = (ds.map Definition.plan).mapM id := by
      rw [List.mapM_map]
      rfl
    rw [hid, hid, hplans]
  rw [plans, plans, basePlan?_eq_of_dump h, hmapM]

theorem generate_eq_of_dump (h : a.dump = b.dump) (engine : Engine)
    (packaging : Option Packaging) : a.generate engine packaging = b.generate engine packaging := by
  obtain ⟨hversion, hpath, hdependencies, hdefinitions⟩ := dump_inj h
  have hlength : a.definitions.length = b.definitions.length := by
    rw [← List.length_map Definition.dump, hdefinitions, List.length_map]
  have hcontext : ∀ path, Context.ofSchema a path engine packaging =
      Context.ofSchema b path engine packaging := by
    intro path
    rw [Context.ofSchema, Context.ofSchema, hversion, hdependencies]
  simp only [generate, plans_eq_of_dump hdefinitions, hversion, hpath, hlength, hcontext]

/-- Schemas whose dumps have one text are generated alike: the same text or the same failure,
with the same events. -/
theorem generate_eq_of_dumpText (h : a.dumpText true = b.dumpText true) (engine : Engine)
    (packaging : Option Packaging) :
    a.generate engine packaging = b.generate engine packaging := by
  have hread := a.read?_dumpText
  rw [h, b.read?_dumpText] at hread
  exact generate_eq_of_dump (Option.some.inj hread).symm engine packaging

/-- A group whose name and directory may end where its version begins. -/
def placed (group version : String) (choices : Option (List String)) : Schema String :=
  { group := { name := some group, directory := some group }, version
    definitions := [{ name := "Color", value := .string choices }] }

theorem generate_eq_of_dumpText_placed :
    (placed "apps" "beta/v1" (some [])).dumpText true = (placed "apps/beta" "v1" none).dumpText true ∧
      (placed "apps" "beta/v1" (some [])).generate .deno none =
        (placed "apps/beta" "v1" none).generate .deno none := by
  have hversion : (placed "apps" "beta/v1" (some [])).apiVersion =
      (placed "apps/beta" "v1" none).apiVersion := by decide
  have hpath : (placed "apps" "beta/v1" (some [])).modulePath =
      (placed "apps/beta" "v1" none).modulePath := by decide
  have hdump : (placed "apps" "beta/v1" (some [])).dump = (placed "apps/beta" "v1" none).dump := by
    rw [dump, dump, hversion, hpath]
    rfl
  have htext : (placed "apps" "beta/v1" (some [])).dumpText true =
      (placed "apps/beta" "v1" none).dumpText true := by
    rw [dumpText, dumpText, hdump]
  exact ⟨htext, generate_eq_of_dumpText htext .deno none⟩

end Schema

end ApiTypes
