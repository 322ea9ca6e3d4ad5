import ApiTypes.Proofs.Batch.Outputs

/-! Which outputs of a run stay. Up to what the two name maps of targets and dumps take together,
no output is lost: what a file has written is there at the end of the run unless a file behind it
has written to the same place. -/

namespace ApiTypes.Batch

open Files

variable {settings : Settings} {path : Path} {t t' : Tree} {q : List String}

/-! ### What a run leaves -/

/-- Visits one after the other, each of which finds what the one before it has left. -/
def Linked (settings : Settings) : Tree → List Visit → Tree → Prop
  | t, [], t' => t' = t
  | t, v :: rest, t' => v = visitIn settings t v.path ∧ Linked settings v.left rest t'

theorem linked_append {vs vs' : List Visit} {t t' : Tree} :
    Linked settings t (vs ++ vs') t' ↔
      ∃ mid, Linked settings t vs mid ∧ Linked settings mid vs' t' := by
  induction vs generalizing t with
  | nil => simp [Linked]
  | cons v rest ih => simp [Linked, ih, and_assoc]

theorem linked_through {α : Type} {course : α → Tree → Course}
    (h : ∀ a t, Linked settings t (course a t).visits (course a t).tree) (l : List α) (t : Tree) :
    Linked settings t (Course.through course l t).visits (Course.through course l t).tree := by
  induction l generalizing t with
  | nil => rfl
  | cons a rest ih =>
    rw [Course.through]
    cases hh : (course a t).halt? with
    | some halt =>
      rw [Course.andThen_of_some hh]
      exact h a t
    | none =>
      rw [Course.andThen_of_none hh]
      exact linked_append.mpr ⟨_, h a t, ih _⟩

theorem linked_ofFile (path : Path) (t : Tree) :
    Linked settings t (Course.ofFile settings path t).visits
      (Course.ofFile settings path t).tree :=
  ⟨rfl, rfl⟩

theorem linked_ofSource (source : Path) (t : Tree) :
    Linked settings t (Course.ofSource settings source t).visits
      (Course.ofSource settings source t).tree := by
  rw [Course.ofSource]
  split
  next => rfl
  next => rfl
  next => exact linked_through linked_ofFile _ _

/-- The visits of a run lead from the files that it finds to those that it leaves. -/
theorem linked_courseOf (options : CommandLine.Options) (tree : Tree) :
    Linked settings tree (courseOf settings options tree).visits
      (courseOf settings options tree).tree :=
  linked_through linked_ofSource _ tree

theorem home_of_linked {vs : List Visit} {t t' : Tree} (h : Linked settings t vs t') :
    t'.home = t.home := by
  induction vs generalizing t with
  | nil => exact congrArg Tree.home h
  | cons v rest ih =>
    obtain ⟨hv, hrest⟩ := h
    rw [ih hrest, hv, home_left]

/-- A run of visits leaves what is neither one of their outputs nor the directory of dumps. -/
theorem find?_of_linked {vs : List Visit} {t t' : Tree} (h : Linked settings t vs t')
    (hroot : q ≠ dumpRoot t.home) (hq : ∀ v ∈ vs, ∀ o ∈ v.outputs settings, q ≠ o.1) :
    t'.find? q = t.find? q := by
  induction vs generalizing t with
  | nil => rw [show t' = t from h]
  | cons v rest ih =>
    obtain ⟨hv, hrest⟩ := h
    have hhome : v.left.home = t.home := by rw [hv, home_left]
    rw [ih hrest (hhome ▸ hroot) fun v' hv' => hq v' (List.mem_cons_of_mem v hv'), hv]
    exact find?_left hroot (hv ▸ hq v List.mem_cons_self)

/-- Every visit of a run is that of its file in some tree with the same working directory. -/
theorem exists_visitIn {vs : List Visit} {t t' : Tree} (h : Linked settings t vs t') {v : Visit}
    (hv : v ∈ vs) : ∃ mid, v = visitIn settings mid v.path ∧ mid.home = t.home := by
  obtain ⟨before, after, rfl⟩ := List.append_of_mem hv
  obtain ⟨mid, hbefore, hvisit, -⟩ := linked_append.mp h
  exact ⟨mid, hvisit, home_of_linked hbefore⟩

/-! ### Two files with one target -/

theorem documentIn_of_text {text : String} {doc : Document}
    (hread : t.read? path = some text.toUTF8)
    (hdoc : Document.Reader.document (String.ofList (normalizeLines text.toList)) = .ok doc) :
    documentIn t path = .ok doc := by
  have htext : String.fromUTF8? text.toUTF8 = some text := dif_pos text.isValidUTF8
  rw [documentIn, hread, documentOf, htext]
  dsimp only
  rw [hdoc]

/-- A schema of a group without a name, a directory or definitions. -/
def bareSchema (version : String) : Schema Document :=
  { group := {}, version := .text version }

/-- The file of such a schema. -/
def bareText (version : String) : String :=
  "\x7b\"apiVersion\":\"spec.kure.sh/v1alpha1\",\"kind\":\"APIGroupVersion\"," ++
    "\"group\":\x7b\x7d,\"version\":\"" ++ version ++ "\"\x7d"

theorem quiet_bareSchema {version : String} (h : version = "a/b" ∨ version = "a_b") :
    ∀ e ∈ ((bareSchema version).generateLoaded .deno none).events, e.level ≠ .warning := by
  rcases h with rfl | rfl <;> decide +kernel

theorem dumpPath_bareSchema {version : String} (h : version = "a/b" ∨ version = "a_b") :
    dumpPath (bareSchema version) = { parts := ["schema_dump", "a_b.ts.sexpr"] } := by
  rcases h with rfl | rfl <;> decide +kernel

/-- Two schema files in one directory, whose names have one stem, and outputs behind them. -/
def twins (outputs : List (List String × Entry)) : Tree :=
  { entries := (["a.json"], .file (bareText "a/b").toUTF8) ::
      (["a.txt"], .file (bareText "a_b").toUTF8) :: outputs }

/-- The outputs of either file. -/
def twinOutputs (dump text : String) : List (List String × Entry) :=
  [(["schema_dump"], .directory), (["schema_dump", "a_b.ts.sexpr"], .file (dump ++ "\n").toUTF8),
    (["a.ts"], .file (text ++ "\n").toUTF8)]

/-- What a run does about either file. -/
def twinActs (dump text : String) : List Act :=
  [.say "", .makeDirectory { parts := ["schema_dump"] },
    .write { parts := ["schema_dump", "a_b.ts.sexpr"] } dump, .say "", .say "",
    .write { parts := ["a.ts"] } text, .say ""]

/-- The settings of a run that writes its modules and dumps its schemas. -/
def writing : Settings := { engine := .deno, write := true, dump := true }

def twinOptions : CommandLine.Options := { sources := ["a.json", "a.txt"], write := true }

theorem accepted_twins :
    Accepted ["--write", "a.json", "a.txt"] { dump := some "1" } twinOptions writing :=
  ⟨rfl, rfl⟩

section Twins

variable {version name : String}
  (h : version = "a/b" ∧ name = "a.json" ∨ version = "a_b" ∧ name = "a.txt")

include h

set_option maxRecDepth 4000 in
theorem read_twin :
    ∃ doc, Document.Reader.document (String.ofList (normalizeLines (bareText version).toList)) =
      .ok doc ∧ Schema.isSchema doc = true ∧ Schema.ofDocument? doc = .ok (bareSchema version) := by
  refine ⟨.object [("apiVersion", .text "spec.kure.sh/v1alpha1"),
    ("kind", .text "APIGroupVersion"), ("group", .object []), ("version", .text version)], ?_⟩
  rcases h with ⟨rfl, -⟩ | ⟨rfl, -⟩
  · exact ⟨rfl, by decide, by with_unfolding_all rfl⟩
  · exact ⟨rfl, by decide, by with_unfolding_all rfl⟩

theorem acts_of_twin (text : String) :
    generationActs writing (bareSchema version) ++
      targetActs writing (Path.ofString name) text =
        twinActs ((bareSchema version).dumpText true) text := by
  have hdump := dumpPath_bareSchema (h.imp And.left And.left)
  have htarget : targetOf (Path.ofString name) = { parts := ["a.ts"] } := by
    rcases h with ⟨-, rfl⟩ | ⟨-, rfl⟩ <;> decide
  have hdirectory : dumpDirectory = { parts := ["schema_dump"] } := by decide
  have hloaded : logOf writing [(bareSchema version).loaded] = "" := logOf_eq_empty rfl (by simp [Schema.loaded, Event.level])
  have hevents : logOf writing
      ((bareSchema version).generateLoaded writing.engine writing.packaging).events = "" :=
    logOf_eq_empty rfl (quiet_bareSchema (h.imp And.left And.left))
  rw [generationActs, dumpActs, targetActs, hloaded, hevents, hdump, htarget, hdirectory]
  rfl

theorem twin_there (outputs : List (List String × Entry)) :
    (twins outputs).exists? (Path.ofString name) = .ok true ∧
      (twins outputs).isDirectory (Path.ofString name) = false ∧
      (twins outputs).read? (Path.ofString name) = some (bareText version).toUTF8 := by
  rw [twins]
  rcases h with ⟨rfl, rfl⟩ | ⟨rfl, rfl⟩
  all_goals
    generalize (bareText "a/b").toUTF8 = content
    generalize (bareText "a_b").toUTF8 = content'
    exact ⟨rfl, rfl, rfl⟩

omit h in
theorem perform_twinActs {outputs : List (List String × Entry)}
    (ho : outputs = [] ∨ ∃ dump text, outputs = twinOutputs dump text) (dump text : String) :
    perform (twinActs dump text) (twins outputs) =
      (.ok (), twins (twinOutputs dump text), "") := by
  rw [twins, twins]
  generalize (bareText "a/b").toUTF8 = content
  generalize (bareText "a_b").toUTF8 = content'
  rcases ho with rfl | ⟨dump', text', rfl⟩
  · rfl
  · rfl

/-- Either file gives its module, and its outputs take the place of earlier ones. -/
theorem course_twin {text : String} {outputs : List (List String × Entry)}
    (ho : outputs = [] ∨ ∃ dump text, outputs = twinOutputs dump text)
    (hresult : ((bareSchema version).generateLoaded .deno none).result = .ok text) :
    ∃ v, Course.ofSource writing (Path.ofString name) (twins outputs) =
        { visits := [v], tree := twins (twinOutputs ((bareSchema version).dumpText true) text) } ∧
      v.path = Path.ofString name ∧ v.schema? = some (bareSchema version) ∧
      v.text? = some text ∧ v.diagnostic? = none := by
  obtain ⟨hthere, hfile, hread⟩ := twin_there h outputs
  obtain ⟨doc, hdoc, hschema, hload⟩ := read_twin h
  have hdocument := documentIn_of_text hread hdoc
  have hresult' : ((bareSchema version).generateLoaded writing.engine writing.packaging).result =
      .ok text := hresult
  have hjob : jobOf writing (Path.ofString name) doc =
      { acts := twinActs ((bareSchema version).dumpText true) text
        result := .ok (some text) } := by
    rw [jobOf, if_pos hschema, hload]
    dsimp only
    rw [schemaJob, hresult']
    dsimp only
    rw [acts_of_twin h]
  have hvisit : visitIn writing (twins outputs) (Path.ofString name) =
      { path := Path.ofString name, result := .ok (some text), log := "", found := twins outputs
        left := twins (twinOutputs ((bareSchema version).dumpText true) text) } := by
    rw [visitIn_of_ok hdocument, hjob, perform_twinActs ho]
    rfl
  have hfiles : filesOf (twins outputs) (Path.ofString name) = [Path.ofString name] := by
    rw [filesOf, hfile, if_neg Bool.false_ne_true]
  refine ⟨visitIn writing (twins outputs) (Path.ofString name), ?_, rfl, ?_, ?_, ?_⟩
  · rw [Course.ofSource, hthere]
    dsimp only
    rw [hfiles, Course.through, Course.ofFile, hvisit]
    rfl
  · rw [schema?_of_ok hdocument, if_pos hschema, hload]
    rfl
  · rw [hvisit]
    rfl
  · rw [hvisit]
    rfl

end Twins

/-- The module of a bare schema. -/
def bareModule (version : String) : String :=
  "export type APIVersion = \"" ++ version ++ "\";\nexport const apiVersion: APIVersion = \"" ++
    version ++ "\";"

theorem generateLoaded_bareSchema :
    ((bareSchema "a/b").generateLoaded .deno none).result = .ok (bareModule "a/b") ∧
      ((bareSchema "a_b").generateLoaded .deno none).result = .ok (bareModule "a_b") := by
  have h : bareModule "a/b" =
      "export type APIVersion = \"a/b\";\nexport const apiVersion: APIVersion = \"a/b\";" := by
    decide
  have h' : bareModule "a_b" =
      "export type APIVersion = \"a_b\";\nexport const apiVersion: APIVersion = \"a_b\";" := by
    decide
  rw [h, h']
  exact ⟨by with_unfolding_all rfl, by with_unfolding_all rfl⟩

/-- A run visits both files, and the outputs of the second one are those that it leaves. -/
theorem course_twins :
    ∃ v v', courseOf writing twinOptions (twins []) =
        { visits := [v, v']
          tree := twins (twinOutputs ((bareSchema "a_b").dumpText true) (bareModule "a_b")) } ∧
      (v.path = Path.ofString "a.json" ∧ v.schema? = some (bareSchema "a/b") ∧
        v.text? = some (bareModule "a/b") ∧ v.diagnostic? = none) ∧
      v'.path = Path.ofString "a.txt" ∧ v'.schema? = some (bareSchema "a_b") ∧
        v'.text? = some (bareModule "a_b") ∧ v'.diagnostic? = none := by
  obtain ⟨v, hv, hfacts⟩ := course_twin (.inl ⟨rfl, rfl⟩) (.inl rfl) generateLoaded_bareSchema.1
  obtain ⟨v', hv', hfacts'⟩ :=
    course_twin (.inr ⟨rfl, rfl⟩) (.inr ⟨_, _, rfl⟩) generateLoaded_bareSchema.2
  refine ⟨v, v', ?_, hfacts, hfacts'⟩
  have hsources : twinOptions.sources.map Path.ofString =
      [Path.ofString "a.json", Path.ofString "a.txt"] := rfl
  rw [courseOf, hsources, Course.ofSources, Course.through, hv, Course.andThen_of_none rfl,
    Course.through, hv']
  rfl

/-! ### The outputs that are left -/

/-- After every run each output of a file whose generation has succeeded is in its place, unless
a file visited later has an output there. Two targets are the same place exactly if the files lie
in one directory and their names have one stem; of the names of schemas in a directory these are
`.json` and `.json.json` alone. Two dumps are the same exactly if the module paths agree up to
what stands for a slash, and no target is a dump. -/
theorem outputs_stay {arguments : List String} {env : Environment} {options : CommandLine.Options}
    {settings : Settings} (h : Accepted arguments env options settings) (tree : Tree) :
    let c := courseOf settings options tree
    let place := fun v : Visit => v.path.placeFrom tree.home
    let target := fun v : Visit => (targetOf v.path).placeFrom tree.home
    let dump := fun s : Schema Document => (dumpPath s).placeFrom tree.home
    (∀ v ∈ c.visits, ∀ v' ∈ c.visits, v.text?.isSome = true → v'.text?.isSome = true →
      (target v = target v' ↔
        (place v).dropLast = (place v').dropLast ∧ stemAt (place v) = stemAt (place v')) ∧
      ((nameAt (place v)).endsWith schemaExtension = true →
        (nameAt (place v')).endsWith schemaExtension = true →
        (stemAt (place v) = stemAt (place v') ↔
          nameAt (place v) = nameAt (place v') ∨
          nameAt (place v) = ".json" ∧ nameAt (place v') = ".json.json" ∨
          nameAt (place v) = ".json.json" ∧ nameAt (place v') = ".json"))) ∧
    (∀ s s', dump s = dump s' ↔
      (s.modulePath.map fun c => if c = '/' then '_' else c) =
        s'.modulePath.map fun c => if c = '/' then '_' else c) ∧
    (∀ v ∈ c.visits, v.text?.isSome = true → ∀ s, target v ≠ dump s) ∧
    ∀ before v after, c.visits = before ++ v :: after → v.text?.isSome = true →
      ∀ o ∈ v.outputs settings, (∀ v' ∈ after, ∀ o' ∈ v'.outputs settings, o'.1 ≠ o.1) →
        (run arguments env tree).2.tree.find? o.1 = some (.file (o.2 ++ "\n").toUTF8) := by
  intro c place target dump
  have hlinked : Linked settings tree c.visits c.tree := linked_courseOf options tree
  have htarget : ∀ v ∈ c.visits, v.text?.isSome = true → target v = targetAt (place v) := by
    intro v hv htext
    obtain ⟨mid, hvisit, hhome⟩ := exists_visitIn hlinked hv
    obtain ⟨text, htext⟩ := Option.isSome_iff_exists.mp htext
    rw [hvisit] at htext
    simpa only [hhome] using placeFrom_targetOf_visit htext
  refine ⟨fun v hv v' hv' htext htext' => ⟨?_, stem_eq_iff⟩, fun s s' => ?_,
    fun v hv htext s => ?_, fun before v after hvisits htext o ho hlater => ?_⟩
  · rw [htarget v hv htext, htarget v' hv' htext']
    exact targetAt_eq_iff _ _
  · exact placeFrom_dumpPath_eq_iff s s' tree.home
  · rw [htarget v hv htext]
    exact targetAt_ne_dumpPath _ _ s
  · rw [hvisits] at hlinked
    obtain ⟨mid, hbefore, hvisit, hafter⟩ := linked_append.mp hlinked
    obtain ⟨text, htext⟩ := Option.isSome_iff_exists.mp htext
    have hhome : v.left.home = mid.home := by rw [hvisit, home_left]
    rw [hvisit] at htext ho
    have hroot : o.1 ≠ dumpRoot v.left.home := hhome ▸ ne_dumpRoot_of_mem_outputs ho
    rw [tree_run h, find?_of_linked hafter hroot fun v' hv' o' ho' => (hlater v' hv' o' ho').symm,
      hvisit]
    exact find?_left_of_mem htext ho

/-- The second of two files with one stem: both of its outputs are there at the end. -/
theorem outputs_stay_twins :
    Accepted ["--write", "a.json", "a.txt"] { dump := some "1" } twinOptions writing ∧
      ∃ v v', (courseOf writing twinOptions (twins [])).visits = [v, v'] ∧
        (targetOf v.path).placeFrom [] = (targetOf v'.path).placeFrom [] ∧
        (v'.outputs writing).length = 2 ∧
        ∀ o ∈ v'.outputs writing,
          (run ["--write", "a.json", "a.txt"] { dump := some "1" } (twins [])).2.tree.find? o.1 =
            some (.file (o.2 ++ "\n").toUTF8) := by
  obtain ⟨v, v', hcourse, ⟨hpath, -, htext, -⟩, hpath', hs', htext', -⟩ := course_twins
  have hvisits : (courseOf writing twinOptions (twins [])).visits = [v, v'] := by rw [hcourse]
  have hsome : v.text?.isSome = true := by rw [htext]; rfl
  have hsome' : v'.text?.isSome = true := by rw [htext']; rfl
  obtain ⟨htargets, -, -, hstay⟩ := outputs_stay accepted_twins (twins [])
  refine ⟨accepted_twins, v, v', hvisits, ?_, ?_, fun o ho => ?_⟩
  · refine (htargets v ?_ v' ?_ hsome hsome').1.mpr ?_
    · simp [hvisits]
    · simp [hvisits]
    · dsimp only
      rw [hpath, hpath']
      exact ⟨by decide, by decide⟩
  · rw [Visit.outputs, hs', htext']
    rfl
  · exact hstay [v] v' [] hvisits hsome' o ho fun _ hv => absurd hv List.not_mem_nil

/-- Two schema files with different module paths: one target and one dump serve both, and what
the first one has written there is gone at the end. -/
theorem one_target_for_two :
    let arguments := ["--write", "a.json", "a.txt"]
    let env : Environment := { dump := some "1" }
    let left := (run arguments env (twins [])).2.tree
    ∃ options settings, Accepted arguments env options settings ∧
      (run arguments env (twins [])).1 = .exit 0 ∧
      ∃ v v' s s' text text', (courseOf settings options (twins [])).visits = [v, v'] ∧
        v.path ≠ v'.path ∧ v.schema? = some s ∧ v'.schema? = some s' ∧
        s.modulePath ≠ s'.modulePath ∧ v.text? = some text ∧ v'.text? = some text' ∧
        targetOf v.path = targetOf v'.path ∧ dumpPath s = dumpPath s' ∧
        left.find? ((targetOf v.path).placeFrom []) ≠ some (.file (text ++ "\n").toUTF8) ∧
        left.find? ((dumpPath s).placeFrom []) ≠
          some (.file (s.dumpText true ++ "\n").toUTF8) := by
  intro arguments env left
  obtain ⟨v, v', hcourse, ⟨hpath, hs, htext, hd⟩, hpath', hs', htext', hd'⟩ := course_twins
  have hleft : left =
      twins (twinOutputs ((bareSchema "a_b").dumpText true) (bareModule "a_b")) := by
    have haccepted : Accepted arguments env twinOptions writing := accepted_twins
    have htree : left = (courseOf writing twinOptions (twins [])).tree :=
      tree_run haccepted (twins [])
    rw [htree, hcourse]
  have hlost : ∀ (text text' : String), text ≠ text' →
      some (Entry.file (text' ++ "\n").toUTF8) ≠ some (.file (text ++ "\n").toUTF8) := by
    intro text text' hne heq
    have := String.toByteArray_inj.mp (Entry.file.inj (Option.some.inj heq))
    exact hne ((String.append_left_inj _).mp this.symm)
  refine ⟨_, _, accepted_twins, ?_, v, v', _, _, _, _, by rw [hcourse], ?_, hs, hs', ?_, htext,
    htext', ?_, ?_, ?_, ?_⟩
  · rw [ending_run accepted_twins, hcourse]
    simp [Course.ending, Course.raised, hd, hd']
  · rw [hpath, hpath']
    decide
  · decide
  · rw [hpath, hpath']
    decide
  · rw [dumpPath_bareSchema (.inl rfl), dumpPath_bareSchema (.inr rfl)]
  · rw [hleft, hpath]
    exact hlost _ _ (by decide)
  · have hplace : (dumpPath (bareSchema "a/b")).placeFrom [] = ["schema_dump", "a_b.ts.sexpr"] := by
      rw [dumpPath_bareSchema (.inl rfl)]
      rfl
    rw [hleft, hplace]
    refine hlost ((bareSchema "a/b").dumpText true) ((bareSchema "a_b").dumpText true) ?_
    decide

end ApiTypes.Batch
