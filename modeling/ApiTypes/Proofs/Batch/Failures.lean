import ApiTypes.Proofs.Batch.Collisions

/-! How a file fails. A diagnostic comes from reading, loading or generating the file, and keeps
what it is about; only the file is put into its location. A file that gives no module leaves the
tree as it was, but for the dump of its schema and the directory of dumps, which are made before
the generation can fail; its target is none of them, so it is neither made nor changed. -/

namespace ApiTypes.Batch

open Files

variable {settings : Settings} {path : Path} {t : Tree} {q : List String}

/-! ### Diagnostics -/

/-- A diagnostic of a file: its definition and property stay, if it has any. -/
def blamed (path : Path) (d : Diagnostic) : Diagnostic :=
  let place : Location :=
    { file := some (.text path.text)
      definition := d.location.bind (·.definition)
      property := d.location.bind (·.property) }
  { d with location := some place }

theorem inFile_eq_blamed (path : Path) (d : Diagnostic) : d.inFile path.text = blamed path d := by
  obtain ⟨cause, location, code⟩ := d
  cases location <;> rfl

/-- A schema that is loaded from a file. -/
def Loads (t : Tree) (path : Path) (s : Schema Document) : Prop :=
  ∃ doc, documentIn t path = .ok doc ∧ Schema.isSchema doc = true ∧
    Schema.ofDocument? doc = .ok s

/-- The diagnostics that a file ends with. -/
inductive Raises (settings : Settings) (t : Tree) (path : Path) : Diagnostic → Prop where
  /-- A file that is no document; this is about no definition. -/
  | reading {content : ByteArray} {text : String} {e : Document.Reader.Error}
      (hread : t.read? path = some content) (htext : String.fromUTF8? content = some text)
      (he : Document.Reader.document (String.ofList (normalizeLines text.toList)) = .error e)
      (hmalformed : e.cause.isSyntax = true) :
      Raises settings t path
        { cause := .invalidJson e, location := some { file := some (.text path.text) } }
  | loading {doc : Document} {d : Diagnostic} (hdoc : documentIn t path = .ok doc)
      (hschema : Schema.isSchema doc = true)
      (hd : Schema.ofDocument? doc = .error (.diagnostic d)) :
      Raises settings t path (blamed path d)
  /-- A schema is dumped, where that is wanted, before it is generated. -/
  | generating {s : Schema Document} {d : Diagnostic} (hs : Loads t path s)
      (hdump : (perform (dumpActs settings s) t).1 = .ok ())
      (hd : (s.generateLoaded settings.engine settings.packaging).result =
        .error (.diagnostic d)) :
      Raises settings t path (blamed path d)

theorem inFile_eq_diagnostic_iff {f : Failure} {d : Diagnostic} :
    f.inFile path = .error (.diagnostic d) ↔
      ∃ d₀, f = .error (.diagnostic d₀) ∧ d = blamed path d₀ := by
  cases f with
  | error e =>
    cases e with
    | diagnostic d₀ =>
      simp only [Failure.inFile, inFile_eq_blamed, Failure.error.injEq, Error.diagnostic.injEq,
        exists_eq_left', eq_comm]
    | defect | misfit => simp [Failure.inFile]
  | file | undecodable | beyondLimit | unnameable | noEngine => simp [Failure.inFile]

/-- The only diagnostic of reading is that of a text that is no JSON. -/
theorem documentIn_eq_diagnostic_iff {d : Diagnostic} :
    documentIn t path = .error (.error (.diagnostic d)) ↔
      ∃ content text e, t.read? path = some content ∧ String.fromUTF8? content = some text ∧
        Document.Reader.document (String.ofList (normalizeLines text.toList)) = .error e ∧
        e.cause.isSyntax = true ∧ d = { cause := .invalidJson e, location := some {} } := by
  rw [documentIn]
  cases hread : t.read? path with
  | none => simp [documentOf]
  | some content =>
    rw [documentOf]
    cases htext : String.fromUTF8? content with
    | none => simp [htext]
    | some text =>
      simp only [Option.some.injEq, ↓existsAndEq, htext, true_and]
      cases hdoc : Document.Reader.document (String.ofList (normalizeLines text.toList)) with
      | ok doc => simp
      | error e =>
        by_cases hs : e.cause.isSyntax = true
        · dsimp only
          rw [if_pos hs]
          constructor
          · intro h
            cases h
            exact ⟨e, rfl, hs, rfl⟩
          · rintro ⟨e', he, -, rfl⟩
            rw [← Except.error.inj he]
            rfl
        · simp [hs]

/-! ### The files -/

theorem perform_say (text : String) (rest : List Act) (t : Tree) :
    (perform (.say text :: rest) t).1 = (perform rest t).1 ∧
      (perform (.say text :: rest) t).2.1 = (perform rest t).2.1 :=
  ⟨rfl, rfl⟩

/-- Of the acts of a generation only those of the dump can fail or change the tree. -/
theorem perform_generationActs (settings : Settings) (s : Schema Document) (t : Tree) :
    (perform (generationActs settings s) t).1 = (perform (dumpActs settings s) t).1 ∧
      (perform (generationActs settings s) t).2.1 = (perform (dumpActs settings s) t).2.1 := by
  rw [generationActs, (perform_say ..).1, (perform_say ..).2]
  cases h : (perform (dumpActs settings s) t).1 with
  | error f => rw [perform_append_of_error h]; exact ⟨h, rfl⟩
  | ok _ => rw [perform_append_of_ok h]; exact ⟨rfl, rfl⟩

/-- What a dump changes: it makes the directory of dumps where nothing was, and writes a file in
it where no directory was. -/
theorem find?_perform_dumpActs {s : Schema Document}
    (h : (perform (dumpActs settings s) t).2.1.find? q ≠ t.find? q) :
    settings.dump = true ∧
      (q = dumpRoot t.home ∧ t.find? q = none ∧
          (perform (dumpActs settings s) t).2.1.find? q = some .directory ∨
        q = (dumpPath s).placeFrom t.home ∧ t.find? q ≠ some .directory ∧
          (perform (dumpActs settings s) t).2.1.find? q =
            some (.file (s.dumpText true ++ "\n").toUTF8)) := by
  rw [dumpActs] at h ⊢
  by_cases hdump : settings.dump = true
  swap
  · rw [if_neg hdump] at h
    exact absurd rfl h
  rw [if_pos hdump] at h ⊢
  refine ⟨hdump, ?_⟩
  rw [perform] at h ⊢
  cases hmake : (Act.makeDirectory dumpDirectory).change? t with
  | error f =>
    rw [hmake] at h
    exact absurd rfl h
  | ok made =>
    have hmade := mapError_eq_ok_iff.mp hmake
    have hroot := placeFrom_dumpDirectory t.home
    rw [hmake] at h
    dsimp only at h ⊢
    rw [perform] at h ⊢
    cases hwrite : (Act.write (dumpPath s) (s.dumpText true)).change? made with
    | error f =>
      rw [hwrite] at h
      exact .inl (hroot ▸ Tree.of_find?_makeDirectory_ne hmade h)
    | ok written =>
      rw [hwrite] at h
      have hput : made.write (dumpPath s) (s.dumpText true ++ "\n") = .ok written := by
        rw [Act.change?] at hwrite
        split at hwrite
        next => cases hwrite
        next => exact mapError_eq_ok_iff.mp hwrite
      change written.find? q ≠ t.find? q at h
      change _ ∧ _ ∧ written.find? q = _ ∨ _ ∧ _ ∧ written.find? q = _
      by_cases hq : written.find? q = made.find? q
      · rw [hq] at h ⊢
        exact .inl (hroot ▸ Tree.of_find?_makeDirectory_ne hmade h)
      · obtain ⟨hplace, hfree, hfile⟩ := Tree.of_find?_write_ne hput hq
        rw [Tree.home_makeDirectory hmade] at hplace
        refine .inr ⟨hplace, fun hthere => hfree ?_, hfile⟩
        by_cases hkept : made.find? q = t.find? q
        · rw [hkept, hthere]
        · exact (Tree.of_find?_makeDirectory_ne hmade hkept).2.2

/-- A dump leaves the directories that are there. -/
theorem directory_perform_dumpActs (settings : Settings) (s : Schema Document) {t : Tree}
    {place : List String} (h : t.find? place = some .directory) :
    (perform (dumpActs settings s) t).2.1.find? place = some .directory := by
  by_contra hne
  obtain ⟨-, ⟨-, hnone, -⟩ | ⟨-, hfree, -⟩⟩ := find?_perform_dumpActs (by rw [h]; exact hne)
  · simp [h] at hnone
  · exact hfree h

/-- A path that leads beside a file that is there leads to one place in all trees with the same
directories and more. -/
theorem locate_targetOf_mono {t' : Tree} {place : List String} {content : ByteArray}
    (hhome : t'.home = t.home)
    (hdir : ∀ place, t.find? place = some .directory → t'.find? place = some .directory)
    (hplace : t.locate path = .ok place) (hfile : t.find? place = some (.file content)) :
    t'.locate (targetOf path) = t.locate (targetOf path) := by
  obtain ⟨above, name, hparts, hname⟩ := Tree.exists_name_of_locate hplace (by simp [hfile])
  have hwalk := (Tree.locate_eq_ok_iff.mp hplace).2
  rw [hparts] at hwalk
  obtain ⟨mid, habove, hlast⟩ := Tree.enter_of_foldlM hwalk
  obtain ⟨hmid, -, -⟩ := Tree.enter_eq_ok_iff.mp hlast
  have htarget : (targetOf path).parts =
      above ++ [String.ofList (Path.stem name.toList) ++ moduleExtension] := by
    simp [targetOf, Path.withExtension, hparts]
  have hroot : (targetOf path).root = path.root := by
    simp [targetOf, Path.withExtension, hparts]
  -- Both trees walk to the directory of the file, and the last step only looks at its length.
  have hfound : above.foldlM (t.enter (targetOf path)) (if path.root = "" then t.home else []) =
      .ok mid := Tree.foldlM_enter_mono (fun _ h => h) habove
  have hfound' : above.foldlM (t'.enter (targetOf path)) (if path.root = "" then t.home else []) =
      .ok mid := Tree.foldlM_enter_mono hdir habove
  have hstep : ∀ part, t'.enter (targetOf path) mid part = t.enter (targetOf path) mid part :=
    fun part => by rw [Tree.enter, Tree.enter, hmid, hdir mid hmid]
  rw [Tree.locate, Tree.locate, htarget, hroot, hhome, List.foldlM_append, List.foldlM_append,
    hfound, hfound']
  simp only [bind, Except.bind, List.foldlM_cons, List.foldlM_nil, hstep]

/-! ### Failures -/

/-- What may have happened to the files when a file gives no module. -/
structure Spares (settings : Settings) (path : Path) (t t' : Tree) : Prop where
  /-- The target is neither made nor changed. -/
  target : t'.entryAt? (targetOf path) = t.entryAt? (targetOf path)
  /-- All else that changes is the dump of a schema that was loaded, and the directory of dumps if
  it was not there. -/
  others : ∀ q, t'.find? q ≠ t.find? q → settings.dump = true ∧ ∃ s, Loads t path s ∧
    (q = dumpRoot t.home ∧ t.find? q = none ∧ t'.find? q = some .directory ∨
      q = (dumpPath s).placeFrom t.home ∧
        t'.find? q = some (.file (s.dumpText true ++ "\n").toUTF8))

theorem Spares.refl (settings : Settings) (path : Path) (t : Tree) : Spares settings path t t :=
  ⟨rfl, fun _ h => absurd rfl h⟩

theorem spares_dump {s : Schema Document} (h : Loads t path s) :
    Spares settings path t (perform (dumpActs settings s) t).2.1 where
  target := by
    obtain ⟨doc, hdoc, -⟩ := h
    obtain ⟨place, content, hplace, hfile⟩ := file_of_document hdoc
    have hhome := home_perform (dumpActs settings s) t
    have hlocate := locate_targetOf_mono hhome
      (fun _ => directory_perform_dumpActs settings s) hplace hfile
    rw [Tree.entryAt?, Tree.entryAt?, hlocate]
    cases htarget : t.locate (targetOf path) with
    | error e => rfl
    | ok place' =>
      have hplaced : place' = targetAt (path.placeFrom t.home) :=
        (Tree.locate_eq htarget).trans (placeFrom_targetOf hplace (by simp [hfile]))
      show Tree.find? _ place' = t.find? place'
      by_contra hne
      obtain ⟨-, ⟨hq, -⟩ | ⟨hq, -⟩⟩ := find?_perform_dumpActs hne
      · exact targetAt_ne_dumpRoot _ _ (hplaced.symm.trans hq)
      · exact targetAt_ne_dumpPath _ _ s (hplaced.symm.trans hq)
  others q hq := by
    obtain ⟨hdump, hroot | ⟨hplace, -, hfile⟩⟩ := find?_perform_dumpActs hq
    · exact ⟨hdump, s, h, .inl hroot⟩
    · exact ⟨hdump, s, h, .inr ⟨hplace, hfile⟩⟩

/-- The job of a schema that ends without a module has dumped the schema at most. -/
theorem tree_schemaJob {s : Schema Document}
    (h : ∀ text, ((perform (schemaJob settings path s).acts t).1 >>= fun _ =>
      (schemaJob settings path s).result) ≠ .ok (some text)) :
    (perform (schemaJob settings path s).acts t).2.1 = (perform (dumpActs settings s) t).2.1 := by
  obtain ⟨hresult, htree⟩ := perform_generationActs settings s t
  rw [← htree]
  cases hr : (s.generateLoaded settings.engine settings.packaging).result with
  | error e => rw [schemaJob_of_error hr]
  | ok text =>
    rw [schemaJob_of_ok hr] at h ⊢
    dsimp only at h ⊢
    cases hp : (perform (generationActs settings s) t).1 with
    | error f => rw [perform_append_of_error hp]
    | ok _ =>
      rw [perform_append_of_ok hp] at h ⊢
      dsimp only at h ⊢
      cases ht : (perform (targetActs settings path text)
          (perform (generationActs settings s) t).2.1).1 with
      | error f => rw [perform_targetActs_of_error ht]
      | ok _ =>
        rw [ht] at h
        exact absurd rfl (h text)

/-- A schema that gives no module has been dumped at most. -/
theorem tree_generateFile {s : Schema Document} {w : World} (hs : Loads w.tree path s)
    (h : ∀ text, (exec (generateFile settings path) w).1 ≠ .ok (some text)) :
    (exec (generateFile settings path) w).2.tree = (perform (dumpActs settings s) w.tree).2.1 := by
  obtain ⟨doc, hdoc, hschema, hload⟩ := hs
  rw [exec_generateFile, hdoc] at h ⊢
  dsimp only at h ⊢
  rw [exec_run, jobOf, if_pos hschema, hload] at h ⊢
  exact tree_schemaJob h

/-- A file that gives no module is spared. -/
theorem spares_of_noText {w : World}
    (h : ∀ text, (exec (generateFile settings path) w).1 ≠ .ok (some text)) :
    Spares settings path w.tree (exec (generateFile settings path) w).2.tree := by
  by_cases hs : ∃ s, Loads w.tree path s
  · obtain ⟨s, hs⟩ := hs
    rw [tree_generateFile hs h]
    exact spares_dump hs
  -- a file that is no schema, or one that cannot be loaded, has no acts that touch the tree
  suffices htree : (exec (generateFile settings path) w).2.tree = w.tree by
    rw [htree]
    exact .refl settings path w.tree
  rw [exec_generateFile]
  cases hdoc : documentIn w.tree path with
  | error f => rfl
  | ok doc =>
    dsimp only
    rw [exec_run, jobOf]
    by_cases hschema : Schema.isSchema doc = true
    · rw [if_pos hschema]
      cases hload : Schema.ofDocument? doc with
      | error e => rfl
      | ok s => exact absurd ⟨s, doc, hdoc, hschema, hload⟩ hs
    · rw [if_neg hschema]
      rfl

theorem not_diagnostic_of_isOfFiles {f : Failure} (h : isOfFiles f = true) (d : Diagnostic) :
    f ≠ .error (.diagnostic d) := by
  rintro rfl
  cases h

/-- The job of a schema ends with a diagnostic if the generation does, and the dump does not keep
it from that. -/
theorem schemaJob_eq_diagnostic_iff {s : Schema Document} {d : Diagnostic} :
    ((perform (schemaJob settings path s).acts t).1 >>= fun _ =>
        (schemaJob settings path s).result) = .error (.error (.diagnostic d)) ↔
      (perform (dumpActs settings s) t).1 = .ok () ∧
        ∃ d₀, (s.generateLoaded settings.engine settings.packaging).result =
          .error (.diagnostic d₀) ∧ d = blamed path d₀ := by
  obtain ⟨hresult, -⟩ := perform_generationActs settings s t
  rw [← hresult]
  cases hr : (s.generateLoaded settings.engine settings.packaging).result with
  | error e =>
    rw [schemaJob_of_error hr]
    dsimp only
    cases hp : (perform (generationActs settings s) t).1 with
    | error f =>
      have hf := not_diagnostic_of_isOfFiles (isOfFiles_of_perform hp) d
      simp [bind, Except.bind, hf]
    | ok _ =>
      simp only [bind, Except.bind, Except.error.injEq, true_and]
      rw [inFile_eq_diagnostic_iff]
      simp only [Failure.error.injEq]
  | ok text =>
    rw [schemaJob_of_ok hr]
    dsimp only
    cases hp : (perform (generationActs settings s ++ targetActs settings path text) t).1 with
    | error f =>
      have hf := not_diagnostic_of_isOfFiles (isOfFiles_of_perform hp) d
      simp [bind, Except.bind, hf]
    | ok _ => simp [bind, Except.bind]

/-- A file ends with a diagnostic exactly if one is raised. -/
theorem raises_iff {w : World} {d : Diagnostic} :
    (exec (generateFile settings path) w).1 = .error (.error (.diagnostic d)) ↔
      Raises settings w.tree path d := by
  rw [exec_generateFile]
  constructor
  · intro h
    cases hdoc : documentIn w.tree path with
    | error f =>
      rw [hdoc] at h
      obtain ⟨d₀, rfl, rfl⟩ := inFile_eq_diagnostic_iff.mp (Except.error.inj h)
      obtain ⟨content, text, e, hread, htext, he, hmalformed, rfl⟩ :=
        documentIn_eq_diagnostic_iff.mp hdoc
      exact .reading hread htext he hmalformed
    | ok doc =>
      rw [hdoc] at h
      dsimp only at h
      rw [exec_run, jobOf] at h
      by_cases hschema : Schema.isSchema doc = true
      · rw [if_pos hschema] at h
        cases hs : Schema.ofDocument? doc with
        | error e =>
          rw [hs] at h
          obtain ⟨d₀, he, rfl⟩ := inFile_eq_diagnostic_iff.mp (Except.error.inj h)
          rw [Failure.error.inj he] at hs
          exact .loading hdoc hschema hs
        | ok s =>
          rw [hs] at h
          obtain ⟨hdump, d₀, hd, rfl⟩ := schemaJob_eq_diagnostic_iff.mp h
          exact .generating ⟨doc, hdoc, hschema, hs⟩ hdump hd
      · rw [if_neg hschema] at h
        cases h
  · rintro (⟨hread, htext, he, hmalformed⟩ | ⟨hdoc, hschema, hd⟩ |
      ⟨⟨doc, hdoc, hschema, hs⟩, hdump, hd⟩)
    · rw [documentIn_eq_diagnostic_iff.mpr ⟨_, _, _, hread, htext, he, hmalformed, rfl⟩]
      rfl
    · rw [hdoc]
      dsimp only
      rw [exec_run, jobOf, if_pos hschema, hd]
      exact congrArg Except.error (inFile_eq_diagnostic_iff.mpr ⟨_, rfl, rfl⟩)
    · rw [hdoc]
      dsimp only
      rw [exec_run, jobOf, if_pos hschema, hs]
      exact schemaJob_eq_diagnostic_iff.mpr ⟨hdump, _, hd, rfl⟩

/-- A file fails cleanly: its diagnostic is one that was raised about it, and names the file;
and a file that gives no module is spared, whatever kept it from that. -/
theorem generateFile_fails_cleanly (settings : Settings) (path : Path) (w : World) :
    (∀ d, (exec (generateFile settings path) w).1 = .error (.error (.diagnostic d)) ↔
      Raises settings w.tree path d) ∧
    ((∀ text, (exec (generateFile settings path) w).1 ≠ .ok (some text)) →
      Spares settings path w.tree (exec (generateFile settings path) w).2.tree) :=
  ⟨fun _ => raises_iff, spares_of_noText⟩

/-! ### A schema that fails -/

/-- A schema with a resource that has no metadata. -/
def baseless : Schema Document :=
  { group := {}, version := .text "v"
    definitions := [{ name := .text "A", value := .resource [] (.text defaultScope) }] }

/-- The file of that schema. -/
def baselessText : String :=
  "\x7b\"apiVersion\":\"spec.kure.sh/v1alpha1\",\"kind\":\"APIGroupVersion\"," ++
    "\"group\":\x7b\x7d,\"version\":\"v\",\"definitions\":[\x7b\"name\":\"A\"," ++
    "\"value\":\x7b\"type\":\"resource\"\x7d\x7d]\x7d"

def baselessTree : Tree :=
  { entries := [(["s.json"], .file baselessText.toUTF8)] }

theorem loads_baseless : Loads baselessTree (Path.ofString "s.json") baseless := by
  have hread : baselessTree.read? (Path.ofString "s.json") = some baselessText.toUTF8 := by
    rw [baselessTree]
    generalize baselessText.toUTF8 = content
    rfl
  exact ⟨.object [("apiVersion", .text "spec.kure.sh/v1alpha1"),
      ("kind", .text "APIGroupVersion"), ("group", .object []), ("version", .text "v"),
      ("definitions", .list [.object [("name", .text "A"),
        ("value", .object [("type", .text "resource")])]])],
    documentIn_of_text hread (by cbv), by decide, by with_unfolding_all rfl⟩

/-- What keeps the schema from its module. -/
def uncounted : Diagnostic :=
  { cause := .metadataCount (.text "A") 0
    location := some { definition := some (.text "A"), property := some (.text "metadata") } }

theorem result_baseless :
    (baseless.generateLoaded .deno none).result = .error (.diagnostic uncounted) := by
  rfl

theorem perform_dumpActs_baseless :
    perform (dumpActs writing baseless) baselessTree =
      (.ok (), { entries := baselessTree.entries ++ [(["schema_dump"], .directory),
        (["schema_dump", "v.ts.sexpr"], .file (baseless.dumpText true ++ "\n").toUTF8)] }, "") := by
  have hpath : dumpPath baseless = { parts := ["schema_dump", "v.ts.sexpr"] } := by decide +kernel
  have hdirectory : dumpDirectory = { parts := ["schema_dump"] } := by decide
  have hlog : logOf writing [.dumped (dumpPath baseless).text] = "" :=
    logOf_eq_empty rfl (by simp [Event.level])
  have hacts : dumpActs writing baseless =
      [.makeDirectory { parts := ["schema_dump"] },
        .write { parts := ["schema_dump", "v.ts.sexpr"] } (baseless.dumpText true), .say ""] := by
    rw [dumpActs, hlog, hpath, hdirectory]
    rfl
  rw [hacts, baselessTree]
  generalize baselessText.toUTF8 = content
  generalize baseless.dumpText true = dump
  rfl

theorem blamed_baseless :
    blamed (Path.ofString "s.json") uncounted =
      { uncounted with
        location := some
          { file := some (.text "s.json"), definition := some (.text "A"),
            property := some (.text "metadata") } } := by
  rfl

/-- The resource without metadata is blamed, in its file. The schema was dumped before, and no
module is written. -/
theorem generateFile_fails_cleanly_baseless :
    let path := Path.ofString "s.json"
    let d : Diagnostic :=
      { cause := .metadataCount (.text "A") 0
        location := some
          { file := some (.text "s.json"), definition := some (.text "A"),
            property := some (.text "metadata") } }
    let w := (exec (generateFile writing path) { tree := baselessTree }).2
    (exec (generateFile writing path) { tree := baselessTree }).1 =
        .error (.error (.diagnostic d)) ∧
      Spares writing path baselessTree w.tree ∧
      w.tree.find? ["s.ts"] = none ∧ w.tree.find? ["schema_dump"] = some .directory := by
  intro path d
  obtain ⟨hdiagnostic, hspares⟩ :=
    generateFile_fails_cleanly writing path { tree := baselessTree }
  have hraises : Raises writing baselessTree path d := by
    have h := Raises.generating loads_baseless (congrArg Prod.fst perform_dumpActs_baseless)
      result_baseless
    rwa [blamed_baseless] at h
  have hresult := (hdiagnostic d).mpr hraises
  have hno : ∀ text, (exec (generateFile writing path) { tree := baselessTree }).1 ≠
      .ok (some text) := by
    intro text
    rw [hresult]
    exact nofun
  have htree := tree_generateFile (w := { tree := baselessTree }) loads_baseless hno
  rw [perform_dumpActs_baseless] at htree
  refine ⟨hresult, hspares hno, ?_, ?_⟩
  all_goals
    rw [htree, baselessTree]
    rfl

end ApiTypes.Batch
