import ApiTypes.Proofs.Grammar.Derivation
import ApiTypes.Proofs.Schema.Alphabet

/-! Types on their own. A member that declares some identifiers and is a type otherwise always
renders, as long as the type refers to no identifier that it does not declare. Its text is
that of the type over the spellings of the module, which are names unless a reference is
called like a keyword and keeps its name, so it is read as the type is meant unless a union
has no variant. -/

namespace ApiTypes

open Op Traversal Grammar

/-- A type beside some declarations. -/
def Plan.beside (declared : List String) (p : Plan String) : Plan String :=
  .ofRequests (declared.map fun x => .name x .declaration) ++ p

/-! ### Spellings are identifiers -/

theorem isIdentifier_numbered {x : String} (h : IsIdentifier x) (k : Nat) :
    IsIdentifier (Name.numbered x k) := by
  cases k with
  | zero => exact h
  | succ k =>
    have hx : x.toList ≠ [] := fun hn => h.nonempty (String.toList_eq_nil_iff.mp hn)
    refine ⟨?_, Name.over_numbered Export.ofWords_isNameChar h.chars _, ?_⟩
    · intro hn
      have hlist := congrArg String.toList hn
      rw [Name.toList_numbered_succ] at hlist
      simp at hlist
    · rw [Name.toList_numbered_succ, List.head?_append_of_ne_nil _ hx]
      exact h.start

section

variable {declared : List String} {p : Plan String} {rs : List (Reference String)}

theorem declarationsOf_beside (h : p.requests = rs.map Reference.request) :
    declarationsOf [(p.beside declared).toMember] = declared := by
  have hnames : declaredBy (declared.map fun x => Request.name x .declaration) = declared := by
    rw [declaredBy, List.filterMap_map]
    exact List.filterMap_some
  rw [declarationsOf, requestsOf, List.flatMap_singleton, Plan.requests_toMember, Plan.beside,
    Plan.requests_append, h, declaredBy_append, Plan.declaredBy_references, List.append_nil]
  exact hnames

theorem usesBy_beside (h : p.requests = rs.map Reference.request) :
    usesBy (requestsOf [(p.beside declared).toMember]) = rs.filterMap Reference.use? := by
  have hnames : usesBy (declared.map fun x => Request.name x .declaration) = [] := by
    rw [usesBy, List.filterMap_map]
    exact List.filterMap_eq_nil_iff.mpr fun _ _ => rfl
  rw [requestsOf, List.flatMap_singleton, Plan.requests_toMember, Plan.beside, Plan.requests_append,
    h, usesBy_append, Plan.usesBy_references]
  show usesBy (declared.map _) ++ _ = _
  rw [hnames, List.nil_append]

theorem plain_beside (h : p.requests = rs.map Reference.request) :
    (p.beside declared).toMember.IsPlain := by
  refine Plan.plain_toMember ?_
  rw [Plan.beside, Plan.requests_append, h, List.forall_mem_append]
  refine ⟨?_, Plan.plain_references rs⟩
  show ∀ r ∈ declared.map fun x => Request.name x .declaration, r.IsPlain
  exact List.forall_mem_map.mpr fun _ _ => rfl

/-- The pieces of a type are all that it is rendered to. -/
theorem render_beside (ctx : Context String) (spell : Symbol String → Except Error String) :
    (p.beside declared).render ctx spell = p.render ctx spell := rfl

end

/-! ### The spellings of a type -/

namespace TypeExpr

variable (declared : List String) (t : TypeExpr String)

/-- The imports of a type. -/
def imports : Imports String :=
  .recordAll {} (t.references.filterMap Reference.use?)

/-- The spelling of symbols beside some declarations. -/
def spelling : Symbol String → String :=
  Module.nameIn declared t.imports

variable {declared t}

/-- Every reference is spelled, if the local ones are declared. -/
theorem spellIn_reference (hlocal : ∀ r ∈ t.references, ∀ x ∈ r.localName?, x ∈ declared)
    {r : Reference String} (hr : r ∈ t.references) :
    Module.spellIn declared t.imports r.symbol = .ok (t.spelling declared r.symbol) := by
  have hspelled : ∃ x, Module.spellIn declared t.imports r.symbol = .ok x := by
    cases hl : r.localName? with
    | some x =>
      rw [Reference.symbol_of_localName? hl, Module.spellIn, if_pos (hlocal r hr x hl)]
      exact ⟨x, rfl⟩
    | none =>
      obtain ⟨u, hu, hs⟩ := Reference.exists_use_of_localName? hl
      obtain ⟨i, hi⟩ := Imports.exists_find?_of_mem (List.mem_filterMap.mpr ⟨r, hr, hu⟩)
      rw [hs, Module.spellIn, imports, hi]
      exact ⟨_, rfl⟩
  obtain ⟨x, hx⟩ := hspelled
  rw [hx, spelling, ← Module.eq_nameIn hx]

/-- A reference is spelled by its name, which may have a number behind it. -/
theorem exists_numbered {r : Reference String} :
    ∃ k, t.spelling declared r.symbol = Name.numbered r.name k := by
  have hlocal : ∀ u ∈ t.references.filterMap Reference.use?, u.localName = none := by
    intro u hu
    obtain ⟨r, -, hu⟩ := List.mem_filterMap.mp hu
    rw [Reference.use?, Reference.request] at hu
    split at hu
    next => cases hu
    next => rw [← Option.some.inj hu]
  rw [Reference.symbol]
  split
  next => exact ⟨0, rfl⟩
  next scope _ =>
    rw [spelling, Module.nameIn]
    split
    next i hi =>
      have hmember := Imports.member_of_find? hi
      have hq := ((Imports.keyed_recordAll _).mem_queue scope.source.identity i).mpr
        (by rwa [hmember])
      rw [Imports.spelling, Imports.identifier_of_mem_queue hlocal hq, hmember]
      exact ⟨_, rfl⟩
    next => exact ⟨0, rfl⟩

/-- Only a reference that is called like a keyword is spelled like it. -/
theorem name_of_spelling_eq {r : Reference String} {k : Keyword}
    (h : t.spelling declared r.symbol = k.text) : r.name = k.text := by
  obtain ⟨n, hn⟩ : ∃ n, t.spelling declared r.symbol = Name.numbered r.name n := exists_numbered
  have hk : '_' ∉ k.text.toList := by cases k <;> decide
  exact ((Name.numbered_eq_iff hk n).mp (hn ▸ h)).2

theorem isName_spelling_iff {r : Reference String} (h : IsIdentifier r.name) :
    IsName (t.spelling declared r.symbol) ↔
      ∀ k : Keyword, t.spelling declared r.symbol ≠ k.text := by
  obtain ⟨n, hn⟩ : ∃ n, t.spelling declared r.symbol = Name.numbered r.name n := exists_numbered
  refine ⟨fun hx => hx.other, fun hx => ⟨?_, hx⟩⟩
  rw [hn]
  exact isIdentifier_numbered h n

/-- The symbols beside some declarations are those of the declarations and of the type. -/
theorem spellOf_beside {p : Plan String} (hp : p.Shows t.references) :
    Module.spellOf [(p.beside declared).toMember] = Module.spellIn declared t.imports := by
  rw [Module.spellOf, declarationsOf_beside hp.requests, importsOf, usesBy_beside hp.requests,
    imports]

/-- The plan of a type renders to the text of its segments. -/
theorem render_plan {p : Plan String} {ctx : Context String} (hp : p.Shows t.references)
    (hw : p.Writes ctx (t.spelling declared) (t.segments (t.spelling declared)))
    (hlocal : ∀ r ∈ t.references, ∀ x ∈ r.localName?, x ∈ declared) :
    p.render ctx (Module.spellIn declared t.imports) =
      .ok (Segment.text (t.segments (t.spelling declared))) := by
  have hmissing : p.symbols.findSome? (missing? (Module.spellIn declared t.imports)) = none := by
    rw [hp.symbols, List.findSome?_eq_none_iff]
    intro symbol hsymbol
    obtain ⟨r, hr, rfl⟩ := List.mem_map.mp hsymbol
    rw [missing?, spellIn_reference hlocal hr]
  have hfollows : Follows (Module.spellIn declared t.imports) p.symbols (p.render ctx _) :=
    Plan.follows_render ctx hp.total
  rw [Follows, hmissing] at hfollows
  obtain ⟨text, htext, -⟩ := hfollows
  rw [htext, hw.text_eq (fun symbol x hx => Module.eq_nameIn hx) htext]

/-- A type on its own renders to the text of its segments. -/
theorem exec_beside (ctx : Context String) (path : String) (hd : declared.Nodup)
    (hr : t.holdsResource = false)
    (hlocal : ∀ r ∈ t.references, ∀ x ∈ r.localName?, x ∈ declared) :
    ∃ p block, t.plan false = .ok p ∧
      (exec (Module.fragments ctx) (Module.ofMembers path [(p.beside declared).toMember])).1 =
        .ok [block, Segment.text (t.segments (t.spelling declared))] ∧
      ∀ r ∈ t.references,
        (exec (Module.fragments ctx)
          (Module.ofMembers path [(p.beside declared).toMember])).2.spell r.symbol =
            .ok (t.spelling declared r.symbol) := by
  have hyields := t.plan_yields
  have hwrites := t.plan_writes ctx (t.spelling declared)
  rw [hr] at hyields hwrites
  obtain ⟨p, hplan, hp⟩ := hyields
  obtain ⟨p', hplan', hw⟩ := hwrites
  obtain rfl := Except.ok.inj (hplan.symm.trans hplan')
  have hplain : ∀ member ∈ [(p.beside declared).toMember], member.IsPlain :=
    List.forall_mem_singleton.mpr (plain_beside hp.requests)
  have hrun : (exec (Module.fragments ctx)
      (Module.ofMembers path [(p.beside declared).toMember])).1 =
        .ok [Module.blockOf ctx [(p.beside declared).toMember],
          Segment.text (t.segments (t.spelling declared))] := by
    rw [Module.exec_fragments ctx path hplain, Module.outcome, declarationsOf_beside hp.requests,
      (firstRepeated?_eq_none_iff List.nodup_nil _).mpr hd, spellOf_beside hp, List.mapM_cons,
      List.mapM_nil, Plan.text_toMember, render_beside, render_plan hp hw hlocal]
    rfl
  refine ⟨p, _, hplan, hrun, fun r hr => ?_⟩
  have hspell := (Module.settled_of_exec_fragments ctx path hplain hrun).spell_eq
  rw [hspell, ← Module.spellOf, spellOf_beside hp]
  exact spellIn_reference hlocal hr

/-- A type whose references are identifiers, and declared if they are local, renders on its own.
If no reference is called like a keyword, its text is read by its flattened tree as long as
every union has a variant, and by no other tree. With a union without variants, or a reference
that is spelled like a keyword, the text is not read as the type is meant. -/
theorem derives_iff (ctx : Context String) (path : String) (hd : declared.Nodup)
    (hr : t.holdsResource = false)
    (hlocal : ∀ r ∈ t.references, ∀ x ∈ r.localName?, x ∈ declared)
    (hnames : ∀ r ∈ t.references, IsIdentifier r.name) :
    ∃ p block text, t.plan false = .ok p ∧
      let run := exec (Module.fragments ctx) (Module.ofMembers path [(p.beside declared).toMember])
      let spelled := t.spelling declared
      run.1 = .ok [block, text] ∧
        (∀ r ∈ t.references, run.2.spell r.symbol = .ok (spelled r.symbol)) ∧
        ((∀ r ∈ t.references, ∀ k : Keyword, r.name ≠ k.text) → ∀ tree,
          (Derives tree text ↔ t.holdsGap = false ∧ tree = t.alternatives spelled [])) ∧
        ((∀ tree, Derives tree text ↔ tree = t.alternatives spelled []) ↔
          t.holdsGap = false ∧ ∀ r ∈ t.references, ∀ k : Keyword, spelled r.symbol ≠ k.text) := by
  obtain ⟨p, block, hp, hrun, hspell⟩ := exec_beside ctx path hd hr hlocal
  have hspelled : (∀ r ∈ t.references, IsName (t.spelling declared r.symbol)) ↔
      ∀ r ∈ t.references, ∀ k : Keyword, t.spelling declared r.symbol ≠ k.text :=
    forall₂_congr fun r hr => isName_spelling_iff (hnames r hr)
  refine ⟨p, block, _, hp, hrun, hspell, fun hkeywords tree => ?_, ?_⟩
  · have hother := hspelled.mpr fun r hr k hk => hkeywords r hr k (name_of_spelling_eq hk)
    exact t.derives_iff_of_names hr hother tree
  · rw [t.derives_segments_iff hr, hspelled]

/-- The `Base` of another module. -/
def remoteBase : Reference String :=
  { name := "Base", scope := some { group := { directory := some "core" }, version := "v1" } }

/-- A type with every form in some other one: a list of texts and of the type `Base`, a table
of the `Base` of another module that may be null, and a `Base` with fields of its own. -/
def nested : TypeExpr String :=
  .optional (.union [.array (.union [.string none, .reference { name := "Base" }]),
    .map (.optional (.reference remoteBase)),
    .object [.mk "size" (.optional .integer) false (some "Not */ here.") true,
      .mk "x-kind" (.string (some ["\x22", "|"])) true none false,
      .mk "rest" (.object [] []) false none false] [{ name := "Base" }]])

theorem derives_iff_nested :
    let ctx : Context String :=
      { apiVersion := "v1", dependencies := [], modulePath := "v1.ts", engine := .deno
        packaging := .hosted }
    let tree : Alternatives :=
      [[.array [[.keyword .string], [.name "Base"]]],
        [.record [[.name (nested.spelling ["Base"] remoteBase.symbol)], [.keyword .null]]],
        [.name "Base", .block [
          .mk (docOf (some "Not */ here.") true) (.bare "size") true
            [[.keyword .number], [.keyword .null]],
          .mk none (.quoted "x-kind".toList) false
            [[.literal ['\\', '\x22']], [.literal ['|']]],
          .mk none (.bare "rest") true [[.block []], [.keyword .null]]]],
        [.keyword .null]]
    ∃ p block text, nested.plan false = .ok p ∧
      (exec (Module.fragments ctx)
        (Module.ofMembers "v1.ts" [(p.beside ["Base"]).toMember])).1 = .ok [block, text] ∧
      ∀ t, Derives t text ↔ t = tree := by
  intro ctx tree
  have hidentifier : IsIdentifier "Base" := ⟨by decide, by decide, by simp⟩
  have hnames : ∀ r ∈ nested.references, r.name = "Base" := by decide
  have hkeyword : ∀ k : Keyword, "Base" ≠ k.text := fun k => by cases k <;> decide
  have htree : nested.alternatives (nested.spelling ["Base"]) [] = tree := by rfl
  obtain ⟨p, block, text, hp, hrun, -, hread, -⟩ := derives_iff (t := nested) ctx "v1.ts"
    (List.nodup_singleton "Base") rfl (by decide) (fun r hr => by rwa [hnames r hr])
  refine ⟨p, block, text, hp, hrun, fun t => ?_⟩
  have hother : ∀ r ∈ nested.references, ∀ k : Keyword, r.name ≠ k.text := fun r hr k => by
    rw [hnames r hr]
    exact hkeyword k
  rw [hread hother, htree]
  exact and_iff_right rfl

/-- An optional type of nothing renders to a bar with nothing before it, which no tree of the
grammar reads, while its flattened tree is `null` alone. -/
theorem optional_nothing_not_derives :
    let ctx : Context String :=
      { apiVersion := "v1", dependencies := [], modulePath := "v1.ts", engine := .deno
        packaging := .hosted }
    let t : TypeExpr String := .optional (.union [])
    ∃ p block, t.plan false = .ok p ∧
      (exec (Module.fragments ctx) (Module.ofMembers "v1.ts" [(p.beside []).toMember])).1 =
        .ok [block, " | null"] ∧
      t.alternatives (t.spelling []) [] = [[.keyword .null]] ∧
      ∀ tree, ¬ Derives tree " | null" := by
  intro ctx t
  obtain ⟨p, block, hp, hrun, -⟩ := exec_beside (t := t) ctx "v1.ts" List.nodup_nil rfl (by decide)
  have htext : Segment.text (t.segments (t.spelling [])) = " | null" :=
    Segment.text_code " | null"
  rw [htext] at hrun
  refine ⟨p, block, hp, hrun, rfl, fun tree h => ?_⟩
  rw [← htext, t.derives_iff_of_names rfl (List.forall_mem_nil _)] at h
  exact absurd h.1 (by decide)

end TypeExpr

end ApiTypes
