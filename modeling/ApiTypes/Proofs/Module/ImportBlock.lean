import ApiTypes.Proofs.Import.Statements
import ApiTypes.Proofs.Module.Outcome
import ApiTypes.Proofs.Module.Program

/-! The import block of a module whose members are programs. If the module opens, its import table
is the one that the demands of the programs build, its names are resolved, and so the block is
there: it tells about these demands, and shows each import under the name that every binding of
it has from then on. -/

namespace ApiTypes

open Op Traversal

/-- Members that are applied as programs, and rendered by any code. -/
structure Conduct (κ : Type) where
  apply : Member String → Program κ
  render : Context String → κ → Member String → Op (Module String) String

namespace Conduct

variable {κ : Type}

def behaviour (c : Conduct κ) : Behaviour String κ :=
  { apply := fun member => (c.apply member).run, render := c.render }

/-- What members are granted while their module opens. -/
def demands (c : Conduct κ) (path : String) (members : List (Member String)) : List Demand :=
  Program.demandsAll (members.map c.apply) (Module.applying path members)

/-- Scripts as programs. -/
def scripts : Conduct (List (Binding String)) :=
  { apply := Program.ofMember, render := Module.renderMember }

theorem fragmentsBy_scripts (ctx : Context String) :
    Module.fragmentsBy scripts.behaviour ctx = Module.fragments ctx := by
  have hscripts : scripts.behaviour = Module.scripts := by
    simp only [behaviour, scripts, Program.run_ofMember, Module.scripts]
  rw [hscripts]
  rfl

end Conduct

namespace Module

variable {κ : Type} {c : Conduct κ} {path : String} {members : List (Member String)}

/-- A module that opens has the import table of what its members were granted. -/
theorem registered_of_openBy {turns : List (Member String × κ)} {m : Module String}
    (h : exec (openBy c.behaviour) (applying path members) = (.ok turns, m)) :
    ∃ es, m.Registered es (.recordAll {} ((c.demands path members).map (·.use))) ∧
      m.phase = .rendering := by
  obtain ⟨kept, applied, named, settled, hopens, -, rfl⟩ := opens_of_openBy h
  have hrecords := records_runAll (members.map c.apply) (m := applying path members) rfl
  have happly := hopens.apply
  change exec (members.mapM (Program.run ∘ c.apply)) _ = _ at happly
  rw [List.mapM_map, happly] at hrecords
  have himports : applied.imports = .recordAll {} ((c.demands path members).map (·.use)) :=
    hrecords.imports
  obtain ⟨hunresolved, rfl⟩ := settled_of_resolveNames hopens.resolve
  -- names that were resolved before would have stopped the resolution
  have hopen : applied.names.resolved = false := by
    cases hr : applied.names.resolved with
    | false => rfl
    | true =>
      obtain ⟨-, rfl⟩ := applyImports_of_resolved hr hopens.register
      exact absurd hunresolved (by simp [hr])
  have hregister := hopens.register
  rw [exec_applyImports hopen] at hregister
  obtain rfl := (Prod.mk.inj hregister).2
  rw [himports]
  exact ⟨applied.names.entries, ⟨Imports.keyed_recordAll _, rfl, rfl⟩, rfl⟩

/-- How a rendering ends: done with its texts, or failed. -/
def ended : Except Error (List String) × Module String → Except Error (List String) × Module String
  | (.ok texts, m) => (.ok texts, { m with phase := .done })
  | (.error e, m) => (.error e, { m with phase := .failed })

/-- A rendering opens its module and writes. -/
theorem exec_fragmentsBy_ofMembers (b : Behaviour String κ) (ctx : Context String) (path : String)
    (members : List (Member String)) :
    exec (fragmentsBy b ctx) (ofMembers path members) =
      ended (exec (openBy b >>= writeBy b ctx) (applying path members)) := by
  have hcreated : (ofMembers path members).phase = .created := rfl
  have hrun : exec (runPhasesBy b ctx) (ofMembers path members) =
      exec (workBy b ctx) (applying path members) := exec_bind_of_ok rfl _
  rw [exec_fragmentsBy, if_pos hcreated, hrun, workBy_eq]
  rcases exec (openBy b >>= writeBy b ctx) (applying path members) with ⟨_ | _, m⟩ <;> rfl

/-- What two groups of statements say in a module, if its members were granted some imports. -/
structure Faithful (ctx : Context String) (ds : List Demand) (m : Module String)
    (remotes siblings : List Statement) : Prop
    extends Imports.Tells ctx (ds.map (·.use)) remotes siblings where
  /-- Every binding that was handed out for the member of a clause reads as the local name in it,
  whatever happens to the module. -/
  bound : ∀ s ∈ remotes ++ siblings, ∀ clause ∈ s.clauses,
    ∀ d ∈ ds, d.use.pair = (s.urn, clause.member) →
      ∀ m', Later m m' → m'.read d.binding = .ok clause.localName

/-- The statements of a module that has opened say what its members were granted. -/
theorem faithful_of_registered {ctx : Context String} {ds : List Demand} {es : List (Name String)}
    {m : Module String} (hm : m.Registered es (.recordAll {} (ds.map (·.use))))
    (hphase : m.phase = .rendering)
    (hanswers : ∀ d ∈ ds, d.binding = .member d.use.source.identity d.use.member) :
    let t := Imports.recordAll {} (ds.map (·.use))
    let ss := t.statementsWith ctx (t.spellingBehind es)
    Faithful ctx ds m (Statement.remotes ss) (Statement.siblings ss) := by
  intro t ss
  refine { toTells := Imports.tells_statementsWith ctx _ _, bound := ?_ }
  intro s hs clause hclause d hd hpair m' hlater
  have happlied : m.imports.applied = true := by rw [hm.imports]
  have hresolved : m.names.resolved = true := by
    rw [hm.names]
    rfl
  have hstands := stands_of_later hphase happlied hresolved hlater
  have hmem : s ∈ ss := (Statement.groups_perm ss).mem_iff.mp hs
  obtain ⟨i, hi, hname⟩ := Imports.exists_find?_of_clause hm.keyed hmem hclause
  obtain ⟨hurn, hmember⟩ := Prod.mk.inj hpair
  rw [hanswers d hd, hurn, hmember, read_eq_of_tables hstands.names hstands.imports,
    hm.read_member, hi, hname]

/-- The import block says exactly what was demanded. A module of members that are any programs
either does not come to its rendering phase and has no text, or it writes a block that says what
the members were granted, and then renders them. -/
theorem importBlock_faithful (c : Conduct κ) (ctx : Context String) (path : String)
    (members : List (Member String)) :
    match exec (openBy c.behaviour) (applying path members) with
    | (.error e, m) =>
      m.phase ≠ .rendering ∧
        exec (fragmentsBy c.behaviour ctx) (ofMembers path members) = ended (.error e, m)
    | (.ok turns, m) =>
      m.phase = .rendering ∧ ∃ remotes siblings log,
        Faithful ctx (c.demands path members) m remotes siblings ∧
          exec (importBlock ctx) m =
            (.ok (Statement.paragraphs remotes siblings), { m with log }) ∧
          exec (fragmentsBy c.behaviour ctx) (ofMembers path members) =
            ended (exec (do
              let texts ← turns.mapM fun turn => c.render ctx turn.2 turn.1
              return Statement.paragraphs remotes siblings :: texts) { m with log }) := by
  have hfragments := exec_fragmentsBy_ofMembers c.behaviour ctx path members
  rw [exec_bind] at hfragments
  rcases hopen : exec (openBy c.behaviour) (applying path members) with ⟨e | turns, m⟩
  · rw [hopen] at hfragments
    have hkeeps : ∀ member, Keeps (· ≠ .created) (c.behaviour.apply member) :=
      fun member => keeps_run (c.apply member)
    refine ⟨?_, hfragments⟩
    rcases phase_of_openBy hkeeps rfl hopen with h | h <;> simp [h]
  · rw [hopen] at hfragments
    obtain ⟨es, hregistered, hphase⟩ := registered_of_openBy hopen
    have hanswers := (records_runAll (members.map c.apply) (m := applying path members) rfl).answers
    obtain ⟨log, hblock⟩ := hregistered.exec_importBlock ctx
    rw [Statement.block_eq_paragraphs] at hblock
    refine ⟨hphase, _, _, log, faithful_of_registered hregistered hphase hanswers, hblock, ?_⟩
    rw [hfragments]
    exact congrArg ended (exec_bind_of_ok hblock _)

/-- Two scripts that import a type from a module beside theirs, and from a library a value, which
the second one demands as a type, and a type under the name of the first one. -/
def traders : List (Member String) :=
  [.script
    [.request (.useMember (.sibling "a.ts") "Pod" none true),
      .request (.name "Pod" .declaration),
      .request (.useMember (.library "b" none) "make" none false)] [.binding 0],
  .script
    [.request (.useMember (.library "b" none) "make" none true),
      .request (.useMember (.library "b" none) "List" (some "Pod") true)] [.binding (-1)]]

/-- The module of which the scripts import a type. -/
def tradedSibling : ImportedModule String :=
  { urn := "/a.ts", source := .sibling "a.ts", imports := [{ member := "Pod", typeOnly := true }] }

/-- The library of which the scripts import a value and a type. -/
def tradedLibrary : ImportedModule String :=
  { urn := "kure:lib:b", source := .library "b" none
    imports :=
      [{ member := "make" }, { member := "List", localName := some "Pod", typeOnly := true }] }

theorem plain_traders : ∀ member ∈ traders, member.IsPlain := by
  intro member h
  rw [traders, List.mem_cons, List.mem_singleton] at h
  have hactions : ∃ rs : List (Request String), member.actions = rs.map .request ∧
      ∀ r ∈ rs, r.IsPlain := by
    rcases h with rfl | rfl
    · exact ⟨[_, _, _], rfl, by simp [Request.IsPlain]⟩
    · exact ⟨[_, _], rfl, by simp [Request.IsPlain]⟩
  refine ⟨hactions, ?_⟩
  rcases h with rfl | rfl <;> simp [Member.parts, Part.IsPlain]

theorem outcome_traders :
    outcome { apiVersion := "v1", dependencies := [], modulePath := "v1.ts", engine := .deno,
              packaging := .bare } traders =
      .ok ["import \x7b type List as Pod_2, make \x7d from \"@kure-lib/b\";\n\n" ++
        "import type \x7b Pod as Pod_ \x7d from \"./a.ts\";", "Pod_", "Pod_2"] := by
  have htable : importsOf traders = { modules := [tradedSibling, tradedLibrary] } := rfl
  have hbefore : tradedSibling.urn ≤ tradedLibrary.urn := by decide
  have hordered : (importsOf traders).ordered = [tradedSibling, tradedLibrary] :=
    List.mergeSort_of_pairwise (by simp [htable, hbefore])
  have hsibling : tradedSibling.ranked = tradedSibling.imports := List.mergeSort_singleton _
  -- the type comes first, although it was demanded behind the value
  have hless : (Label.document "List").less (Label.document "make") = true := by decide
  have hlibrary : tradedLibrary.ranked = tradedLibrary.imports.reverse := by
    simp [tradedLibrary, ImportedModule.ranked, List.mergeSort,
      List.MergeSort.Internal.splitInTwo, Label.less, hless]
  have hqueue : (importsOf traders).queue =
      (tradedSibling.imports.map fun i => (tradedSibling.urn, i)) ++
        tradedLibrary.imports.reverse.map fun i => (tradedLibrary.urn, i) := by
    simp only [Imports.queue, hordered, List.flatMap_cons, hsibling, hlibrary, List.flatMap_nil,
      List.append_nil]
  rw [htable] at hqueue
  refine eq_ok_of_toOption ?_
  unfold outcome blockOf spellOf Imports.statementsIn spellIn
  simp only [htable, List.map_cons, List.map_nil, ImportedModule.statementOf, hsibling, hlibrary,
    Imports.spelling, Imports.rank, Imports.place, hqueue]
  decide +kernel

theorem importBlock_faithful_traders :
    let ctx : Context String :=
      { apiVersion := "v1", dependencies := [], modulePath := "v1.ts", engine := .deno
        packaging := .bare }
    ∃ m remotes siblings,
      Faithful ctx (Conduct.scripts.demands "v1.ts" traders) m remotes siblings ∧
        Statement.paragraphs remotes siblings =
          "import \x7b type List as Pod_2, make \x7d from \"@kure-lib/b\";\n\n" ++
          "import type \x7b Pod as Pod_ \x7d from \"./a.ts\";" := by
  intro ctx
  have hfaithful := importBlock_faithful Conduct.scripts ctx "v1.ts" traders
  have hrun : (exec (fragments ctx) (ofMembers "v1.ts" traders)).1 =
      .ok ["import \x7b type List as Pod_2, make \x7d from \"@kure-lib/b\";\n\n" ++
        "import type \x7b Pod as Pod_ \x7d from \"./a.ts\";", "Pod_", "Pod_2"] :=
    (exec_fragments ctx "v1.ts" plain_traders).trans outcome_traders
  rw [Conduct.fragmentsBy_scripts] at hfaithful
  split at hfaithful
  next e m _ =>
    rw [hfaithful.2] at hrun
    cases hrun
  next turns m _ =>
    obtain ⟨-, remotes, siblings, log, hfaithful, -, hfragments⟩ := hfaithful
    refine ⟨m, remotes, siblings, hfaithful, ?_⟩
    rw [hfragments, exec_bind] at hrun
    rcases hturns : exec (turns.mapM fun turn => Conduct.scripts.render ctx turn.2 turn.1)
      { m with log } with ⟨e | texts, t⟩
    · rw [hturns] at hrun
      cases hrun
    · rw [hturns] at hrun
      exact (List.cons.inj (Except.ok.inj hrun)).1

end Module

end ApiTypes
