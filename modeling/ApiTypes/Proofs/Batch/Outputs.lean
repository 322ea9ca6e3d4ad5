import ApiTypes.Proofs.Batch.Course
import ApiTypes.Proofs.Files.Change

/-! The outputs of the files of a run: the module of every file that is generated, beside the
file, and the dump of every schema, in a directory of its own. Both go to places that a name map
chooses, and neither map keeps all names apart: a target drops the extension of its file, and a
dump takes one sign for two. A file changes nothing but its outputs and the directory of dumps,
and leaves all of them where its generation succeeds. -/

namespace ApiTypes.Batch

open Files

/-! ### What acts put where -/

/-- The place and the entry that an act puts there. -/
def Act.put? (home : List String) : Act → Option (List String × Entry)
  | say _ => none
  | makeDirectory path => some (path.placeFrom home, .directory)
  | write path text => some (path.placeFrom home, .file (text ++ "\n").toUTF8)

variable {t t' : Tree} {a : Act} {q : List String}

theorem mapError_eq_ok_iff {ε ε' α : Type} {f : ε → ε'} {r : Except ε α} {x : α} :
    r.mapError f = .ok x ↔ r = .ok x := by
  cases r <;> simp [Except.mapError]

theorem home_of_change? (h : a.change? t = .ok t') : t'.home = t.home := by
  cases a with
  | say text => exact congrArg Tree.home (Except.ok.inj h).symm
  | makeDirectory path => exact Tree.home_makeDirectory (mapError_eq_ok_iff.mp h)
  | write path text =>
    rw [Act.change?] at h
    split at h
    next => cases h
    next => exact Tree.home_write (mapError_eq_ok_iff.mp h)

/-- The entry at a place after an act that succeeds. -/
def Act.entryAt (home q : List String) (entry : Option Entry) (a : Act) : Option Entry :=
  match a.put? home with
  | some (place, new) => if q = place then some new else entry
  | none => entry

theorem find?_of_change? (h : a.change? t = .ok t') (q : List String) :
    t'.find? q = a.entryAt t.home q (t.find? q) := by
  cases a with
  | say text => rw [← Except.ok.inj h]; rfl
  | makeDirectory path => exact Tree.find?_makeDirectory (mapError_eq_ok_iff.mp h) q
  | write path text =>
    rw [Act.change?] at h
    split at h
    next => cases h
    next => exact Tree.find?_write (mapError_eq_ok_iff.mp h) q

theorem home_perform (acts : List Act) (t : Tree) : (perform acts t).2.1.home = t.home := by
  induction acts generalizing t with
  | nil => rfl
  | cons a rest ih =>
    rw [perform]
    cases h : a.change? t with
    | error f => rfl
    | ok t' => exact (ih t').trans (home_of_change? h)

/-- What no act puts anything at stays as it was, whether the acts succeed or not. -/
theorem find?_perform {acts : List Act} (h : ∀ a ∈ acts, ∀ e, a.put? t.home ≠ some (q, e)) :
    (perform acts t).2.1.find? q = t.find? q := by
  induction acts generalizing t with
  | nil => rfl
  | cons a rest ih =>
    rw [perform]
    cases ha : a.change? t with
    | error f => rfl
    | ok t' =>
      dsimp only
      rw [ih fun b hb e => by
        rw [home_of_change? ha]
        exact h b (List.mem_cons_of_mem a hb) e]
      rw [find?_of_change? ha, Act.entryAt]
      cases hput : a.put? t.home with
      | none => rfl
      | some put =>
        have hne : q ≠ put.1 := fun hq => h a List.mem_cons_self put.2 (by rw [hput, hq])
        exact if_neg hne

theorem perform_append_of_error {acts : List Act} {f : Failure}
    (h : (perform acts t).1 = .error f) (more : List Act) :
    perform (acts ++ more) t = perform acts t := by
  induction acts generalizing t with
  | nil => cases h
  | cons a rest ih =>
    rw [List.cons_append, perform, perform]
    rw [perform] at h
    cases ha : a.change? t with
    | error f' => rfl
    | ok t' =>
      rw [ha] at h
      dsimp only
      rw [ih h]

theorem perform_append_of_ok {acts : List Act} (h : (perform acts t).1 = .ok ())
    (more : List Act) :
    perform (acts ++ more) t =
      ((perform more (perform acts t).2.1).1, (perform more (perform acts t).2.1).2.1,
        (perform acts t).2.2 ++ (perform more (perform acts t).2.1).2.2) := by
  induction acts generalizing t with
  | nil => simp [perform]
  | cons a rest ih =>
    rw [List.cons_append, perform, perform]
    rw [perform] at h
    cases ha : a.change? t with
    | error f' => rw [ha] at h; cases h
    | ok t' =>
      rw [ha] at h
      dsimp only
      rw [ih h, String.append_assoc]

/-- The acts of a list that succeeds succeed one by one. -/
theorem perform_append_eq_ok_iff {acts more : List Act} :
    (perform (acts ++ more) t).1 = .ok () ↔
      (perform acts t).1 = .ok () ∧ (perform more (perform acts t).2.1).1 = .ok () := by
  cases h : (perform acts t).1 with
  | error f => rw [perform_append_of_error h, h]; simp
  | ok _ => rw [perform_append_of_ok h]; simp

/-- Where all acts succeed, the entry at a place is that of the last act that puts one there. -/
theorem find?_perform_of_ok {acts : List Act} (h : (perform acts t).1 = .ok ()) (q : List String) :
    (perform acts t).2.1.find? q = acts.foldl (Act.entryAt t.home q) (t.find? q) := by
  induction acts generalizing t with
  | nil => rfl
  | cons a rest ih =>
    rw [perform] at h ⊢
    cases ha : a.change? t with
    | error f => rw [ha] at h; cases h
    | ok t' =>
      rw [ha] at h
      dsimp only
      rw [ih h, home_of_change? ha, find?_of_change? ha, List.foldl_cons]

/-! ### Where the outputs go -/

/-- The name of a file at a place. -/
def nameAt (place : List String) : String :=
  place.getLast?.getD ""

/-- The stem of that name. -/
def stemAt (place : List String) : List Char :=
  Path.stem (nameAt place).toList

/-- The place of the target of a file at a place. -/
def targetAt (place : List String) : List String :=
  place.dropLast ++ [String.ofList (stemAt place) ++ moduleExtension]

/-- The place of the directory of dumps. -/
def dumpRoot (home : List String) : List String :=
  home ++ ["schema_dump"]

/-- The name of the dump of a schema, without its extension. -/
def dumpName {τ : Type} [Label τ] (s : Schema τ) : String :=
  s.modulePath.map fun c => if c = '/' then '_' else c

theorem getLast?_name {name extension : String} (hne : extension ≠ "") :
    (name ++ extension).toList.getLast? = extension.toList.getLast? := by
  rw [String.toList_append, List.getLast?_append, Option.or_of_isSome]
  exact List.getLast?_isSome.mpr (by simpa using hne)

/-- A name with one of the extensions is no step back. -/
theorem name_ne_dots {name extension : String}
    (h : extension = moduleExtension ∨ extension = ".sexpr") : name ++ extension ≠ ".." := by
  intro heq
  have hlast := congrArg (fun s : String => s.toList.getLast?) heq
  rcases h with rfl | rfl
  · rw [getLast?_name (by decide)] at hlast
    exact absurd hlast (by decide)
  · rw [getLast?_name (by decide)] at hlast
    exact absurd hlast (by decide)

theorem placeFrom_dumpDirectory (home : List String) :
    dumpDirectory.placeFrom home = dumpRoot home := by
  have h : dumpDirectory = { root := "", parts := [] ++ ["schema_dump"] } := by decide
  rw [h, Path.placeFrom_concat home rfl (by decide)]
  rfl

theorem placeFrom_dumpPath {τ : Type} [Label τ] (s : Schema τ) (home : List String) :
    (dumpPath s).placeFrom home = dumpRoot home ++ [dumpName s ++ ".sexpr"] := by
  rw [Path.placeFrom_concat home rfl (name_ne_dots (.inr rfl)), ← placeFrom_dumpDirectory]
  rfl

/-- The target of a file lies beside it. -/
theorem placeFrom_targetOf {path : Path} {place : List String} (h : t.locate path = .ok place)
    (hne : t.find? place ≠ some .directory) :
    (targetOf path).placeFrom t.home = targetAt (path.placeFrom t.home) := by
  obtain ⟨above, name, hparts, hname⟩ := Tree.exists_name_of_locate h hne
  have htarget : (targetOf path).parts =
      above ++ [String.ofList (Path.stem name.toList) ++ moduleExtension] := by
    simp [targetOf, Path.withExtension, hparts]
  have habove : ({ targetOf path with parts := above } : Path) = { path with parts := above } := by
    simp [targetOf, Path.withExtension, hparts]
  rw [Path.placeFrom_concat t.home htarget (name_ne_dots (.inl rfl)),
    Path.placeFrom_concat t.home hparts hname, targetAt, stemAt, nameAt, habove]
  simp only [List.dropLast_concat, List.getLast?_concat, Option.getD_some]

/-- Two places have one target exactly if their names lie together and have one stem. -/
theorem targetAt_eq_iff (place place' : List String) :
    targetAt place = targetAt place' ↔
      place.dropLast = place'.dropLast ∧ stemAt place = stemAt place' := by
  rw [targetAt, targetAt, List.append_singleton_inj, String.append_left_inj, String.ofList_inj]

theorem stem_append_extension (x : List Char) :
    Path.stem (x ++ schemaExtension.toList) = if x = [] then schemaExtension.toList else x := by
  have h : schemaExtension.toList = ['.', 'j', 's', 'o', 'n'] := by decide
  rw [h]
  by_cases hx : x = [] <;> simp [Path.stem, hx]

/-- Of the names with the extension of schemas, just two have the same stem. -/
theorem stem_eq_iff {name name' : String} (h : name.endsWith schemaExtension = true)
    (h' : name'.endsWith schemaExtension = true) :
    Path.stem name.toList = Path.stem name'.toList ↔
      name = name' ∨ name = ".json" ∧ name' = ".json.json" ∨
        name = ".json.json" ∧ name' = ".json" := by
  have hends : ∀ {name : String}, name.endsWith schemaExtension = true →
      ∃ x : String, name = x ++ schemaExtension := by
    intro name hn
    rw [String.endsWith_eq_endsWith_toSlice, String.Slice.endsWith_string_iff] at hn
    obtain ⟨x, hx⟩ := hn
    refine ⟨String.ofList x, String.toList_injective ?_⟩
    rw [String.toList_append, String.toList_ofList]
    simpa using hx.symm
  obtain ⟨x, rfl⟩ := hends h
  obtain ⟨y, rfl⟩ := hends h'
  have hbare : ∀ z : String, z ++ schemaExtension = ".json" ↔ z = "" := fun z => by
    rw [show (".json" : String) = "" ++ schemaExtension by decide, String.append_left_inj]
  have hdouble : ∀ z : String, z ++ schemaExtension = ".json.json" ↔ z = schemaExtension :=
    fun z => by
      rw [show (".json.json" : String) = schemaExtension ++ schemaExtension by decide,
        String.append_left_inj]
  rw [String.toList_append, String.toList_append, stem_append_extension, stem_append_extension,
    hbare, hbare, hdouble, hdouble, String.append_left_inj]
  simp only [String.toList_eq_nil_iff]
  split <;> split <;> rw [String.toList_inj] <;> grind

/-- Two dumps go to one place exactly if the schemas have one dump name. -/
theorem placeFrom_dumpPath_eq_iff {τ : Type} [Label τ] (s s' : Schema τ) (home : List String) :
    (dumpPath s).placeFrom home = (dumpPath s').placeFrom home ↔ dumpName s = dumpName s' := by
  rw [placeFrom_dumpPath, placeFrom_dumpPath, List.append_singleton_inj, String.append_left_inj]
  simp

theorem targetAt_ne_dumpRoot (place home : List String) : targetAt place ≠ dumpRoot home := by
  intro h
  have hname := (List.append_singleton_inj.mp h).2
  have hlast := congrArg (fun s : String => s.toList.getLast?) hname
  rw [getLast?_name (by decide)] at hlast
  exact absurd hlast (by decide)

theorem targetAt_ne_dumpPath {τ : Type} [Label τ] (place home : List String) (s : Schema τ) :
    targetAt place ≠ (dumpPath s).placeFrom home := by
  rw [placeFrom_dumpPath]
  intro h
  have hname := (List.append_singleton_inj.mp h).2
  have hlast := congrArg (fun s : String => s.toList.getLast?) hname
  rw [getLast?_name (by decide), getLast?_name (by decide)] at hlast
  exact absurd hlast (by decide)

/-! ### What a visit leaves -/

/-- The schema in the file of a visit. -/
def Visit.schema? (v : Visit) : Option (Schema Document) :=
  match documentIn v.found v.path with
  | .ok doc => if Schema.isSchema doc then (Schema.ofDocument? doc).toOption else none
  | .error _ => none

/-- The places of the outputs of a visit, with the texts that go there. -/
def Visit.outputs (settings : Settings) (v : Visit) : List (List String × String) :=
  (if settings.dump then
    v.schema?.toList.map fun s => ((dumpPath s).placeFrom v.found.home, s.dumpText true)
  else []) ++
  (if settings.write then
    v.text?.toList.map fun text => ((targetOf v.path).placeFrom v.found.home, text)
  else [])

variable {settings : Settings} {path : Path}

theorem read?_eq {place : List String} (h : t.locate path = .ok place) :
    t.read? path =
      match t.find? place with
      | some (.file content) => some content
      | _ => none := by
  rw [Tree.read?, Tree.entryAt?, h]
  rfl

/-- What can be read is a file that is there. -/
theorem file_of_read? (h : t.read? path ≠ none) :
    ∃ place content, t.locate path = .ok place ∧ t.find? place = some (.file content) := by
  cases hl : t.locate path with
  | error e => simp [Tree.read?, Tree.entryAt?, hl, Except.toOption] at h
  | ok place =>
    rw [read?_eq hl] at h
    split at h
    next content hf => exact ⟨place, content, rfl, hf⟩
    next => exact absurd rfl h

/-- A document comes from a file that is there. -/
theorem file_of_document {doc : Document} (h : documentIn t path = .ok doc) :
    ∃ place content, t.locate path = .ok place ∧ t.find? place = some (.file content) := by
  refine file_of_read? fun hnone => ?_
  rw [documentIn, hnone] at h
  cases h

theorem visitIn_of_error {f : Failure} (h : documentIn t path = .error f) :
    visitIn settings t path =
      { path, result := .error (f.inFile path), log := "", found := t, left := t } := by
  rw [visitIn, exec_generateFile, h]

theorem visitIn_of_ok {doc : Document} (h : documentIn t path = .ok doc) :
    visitIn settings t path =
      { path
        result := do (perform (jobOf settings path doc).acts t).1; (jobOf settings path doc).result
        log := (perform (jobOf settings path doc).acts t).2.2
        found := t
        left := (perform (jobOf settings path doc).acts t).2.1 } := by
  rw [visitIn, exec_generateFile, h]
  dsimp only
  rw [exec_run]
  simp

@[simp] theorem path_visitIn : (visitIn settings t path).path = path := rfl

@[simp] theorem found_visitIn : (visitIn settings t path).found = t := rfl

theorem home_left : (visitIn settings t path).left.home = t.home := by
  cases h : documentIn t path with
  | error f => rw [visitIn_of_error h]
  | ok doc =>
    rw [visitIn_of_ok h]
    exact home_perform _ _

theorem put?_of_mem_generationActs {s : Schema Document} {home : List String} {e : Entry}
    (ha : a ∈ generationActs settings s) (h : a.put? home = some (q, e)) :
    q = dumpRoot home ∨ settings.dump = true ∧ q = (dumpPath s).placeFrom home := by
  rw [generationActs, dumpActs] at ha
  by_cases hd : settings.dump = true
  · simp only [hd, if_true, List.mem_cons, List.mem_append, List.not_mem_nil, or_false] at ha
    rcases ha with rfl | (rfl | rfl | rfl) | rfl
    all_goals simp only [Act.put?, Option.some.injEq, Prod.mk.injEq, reduceCtorEq] at h
    · exact .inl (h.1.symm.trans (placeFrom_dumpDirectory home))
    · exact .inr ⟨hd, h.1.symm⟩
  · simp only [hd, List.mem_cons, List.mem_append, List.not_mem_nil] at ha
    rcases ha with rfl | ha | rfl | ha
    all_goals simp_all [Act.put?]

theorem put?_of_mem_targetActs {text : String} {home : List String} {e : Entry}
    (ha : a ∈ targetActs settings path text) (h : a.put? home = some (q, e)) :
    settings.write = true ∧ q = (targetOf path).placeFrom home := by
  rw [targetActs] at ha
  by_cases hw : settings.write = true
  · simp only [hw, if_true, List.mem_cons, List.not_mem_nil, or_false] at ha
    rcases ha with rfl | rfl
    all_goals simp only [Act.put?, Option.some.injEq, Prod.mk.injEq, reduceCtorEq] at h
    exact ⟨hw, h.1.symm⟩
  · simp [hw] at ha

/-- A target that cannot be written leaves everything as it was. -/
theorem perform_targetActs_of_error {text : String} {f : Failure}
    (h : (perform (targetActs settings path text) t).1 = .error f) :
    (perform (targetActs settings path text) t).2.1 = t := by
  rw [targetActs] at h ⊢
  split at h
  next hw =>
    rw [if_pos hw]
    rw [perform] at h ⊢
    cases hc : (Act.write (targetOf path) text).change? t with
    | error f' => rfl
    | ok t' => rw [hc] at h; cases h
  next => cases h

theorem mem_outputs_iff {v : Visit} {o : List String × String} :
    o ∈ v.outputs settings ↔
      settings.dump = true ∧ (∃ s, v.schema? = some s ∧
        o = ((dumpPath s).placeFrom v.found.home, s.dumpText true)) ∨
      settings.write = true ∧ (∃ text, v.text? = some text ∧
        o = ((targetOf v.path).placeFrom v.found.home, text)) := by
  rw [Visit.outputs, List.mem_append]
  by_cases hd : settings.dump = true <;> by_cases hw : settings.write = true <;>
    simp [hd, hw, eq_comm]

theorem schema?_of_ok {doc : Document} (h : documentIn t path = .ok doc) :
    (visitIn settings t path).schema? =
      if Schema.isSchema doc then (Schema.ofDocument? doc).toOption else none := by
  rw [Visit.schema?, found_visitIn, path_visitIn, h]

theorem schema?_eq_some_iff {s : Schema Document} :
    (visitIn settings t path).schema? = some s ↔ ∃ doc, documentIn t path = .ok doc ∧
      Schema.isSchema doc = true ∧ Schema.ofDocument? doc = .ok s := by
  rw [Visit.schema?, found_visitIn, path_visitIn]
  cases documentIn t path with
  | error f => simp
  | ok doc =>
    by_cases hs : Schema.isSchema doc = true
    · cases hload : Schema.ofDocument? doc <;> simp [hs, hload, Except.toOption]
    · simp [hs]

/-- A visit of a schema does the job of the schema. -/
theorem visitIn_of_schema {s : Schema Document}
    (h : (visitIn settings t path).schema? = some s) :
    visitIn settings t path =
      { path
        result := do
          (perform (schemaJob settings path s).acts t).1
          (schemaJob settings path s).result
        log := (perform (schemaJob settings path s).acts t).2.2
        found := t
        left := (perform (schemaJob settings path s).acts t).2.1 } := by
  obtain ⟨doc, hdoc, hschema, hload⟩ := schema?_eq_some_iff.mp h
  have hjob : jobOf settings path doc = schemaJob settings path s := by
    rw [jobOf, if_pos hschema, hload]
  rw [visitIn_of_ok hdoc, hjob]

theorem schemaJob_of_ok {s : Schema Document} {text : String}
    (h : (s.generateLoaded settings.engine settings.packaging).result = .ok text) :
    schemaJob settings path s =
      { acts := generationActs settings s ++ targetActs settings path text
        result := .ok (some text) } := by
  rw [schemaJob, h]

theorem schemaJob_of_error {s : Schema Document} {e : Error}
    (h : (s.generateLoaded settings.engine settings.packaging).result = .error e) :
    schemaJob settings path s =
      { acts := generationActs settings s, result := .error ((Failure.error e).inFile path) } := by
  rw [schemaJob, h]

/-- A file without a schema gives no text and changes nothing. -/
theorem visit_of_noSchema (h : (visitIn settings t path).schema? = none) :
    (visitIn settings t path).text? = none ∧
      ∀ q, (visitIn settings t path).left.find? q = t.find? q := by
  cases hd : documentIn t path with
  | error f =>
    rw [visitIn_of_error hd]
    exact ⟨rfl, fun _ => rfl⟩
  | ok doc =>
    rw [schema?_of_ok hd] at h
    rw [visitIn_of_ok hd, jobOf, Visit.text?]
    by_cases hs : Schema.isSchema doc = true
    · rw [if_pos hs] at h ⊢
      cases hload : Schema.ofDocument? doc with
      | error e => exact ⟨rfl, fun _ => rfl⟩
      | ok s => rw [hload] at h; cases h
    · rw [if_neg hs]
      exact ⟨rfl, fun q => find?_perform (by simp [Act.put?])⟩

/-- A text comes from a schema whose generation succeeds, as do all acts. -/
theorem text?_eq_some_iff {text : String} :
    (visitIn settings t path).text? = some text ↔
      ∃ s, (visitIn settings t path).schema? = some s ∧
        (s.generateLoaded settings.engine settings.packaging).result = .ok text ∧
        (perform (generationActs settings s ++ targetActs settings path text) t).1 = .ok () := by
  cases hschema : (visitIn settings t path).schema? with
  | none =>
    simp [(visit_of_noSchema hschema).1]
  | some s =>
    simp only [Option.some.injEq, exists_eq_left']
    rw [visitIn_of_schema hschema, Visit.text?]
    cases hr : (s.generateLoaded settings.engine settings.packaging).result with
    | error e =>
      rw [schemaJob_of_error hr]
      cases (perform (generationActs settings s) t).1 <;> simp [bind, Except.bind]
    | ok text' =>
      rw [schemaJob_of_ok hr]
      dsimp only
      cases hp : (perform (generationActs settings s ++ targetActs settings path text') t).1 with
      | error f =>
        simp only [bind, Except.bind, reduceCtorEq, Except.ok.injEq, false_iff]
        rintro ⟨rfl, hok⟩
        rw [hp] at hok
        cases hok
      | ok u =>
        simp only [bind, Except.bind, Option.some.injEq, Except.ok.injEq]
        constructor
        · rintro rfl
          exact ⟨rfl, hp⟩
        · exact fun h => h.1

theorem file_of_text? {text : String} (h : (visitIn settings t path).text? = some text) :
    ∃ place content, t.locate path = .ok place ∧ t.find? place = some (.file content) := by
  obtain ⟨s, hschema, -⟩ := text?_eq_some_iff.mp h
  cases hd : documentIn t path with
  | ok doc => exact file_of_document hd
  | error f =>
    rw [Visit.schema?, found_visitIn, path_visitIn, hd] at hschema
    cases hschema

/-- A visit leaves what is neither one of its outputs nor the directory of dumps. -/
theorem find?_left (hroot : q ≠ dumpRoot t.home)
    (h : ∀ o ∈ (visitIn settings t path).outputs settings, q ≠ o.1) :
    (visitIn settings t path).left.find? q = t.find? q := by
  cases hschema : (visitIn settings t path).schema? with
  | none => exact (visit_of_noSchema hschema).2 q
  | some s =>
    have hgeneration : (perform (generationActs settings s) t).2.1.find? q = t.find? q := by
      refine find?_perform fun a ha e hput => ?_
      rcases put?_of_mem_generationActs ha hput with hq | ⟨hdump, hq⟩
      · exact hroot hq
      · exact h _ (mem_outputs_iff.mpr (.inl ⟨hdump, s, hschema, rfl⟩)) hq
    cases hr : (s.generateLoaded settings.engine settings.packaging).result with
    | error e =>
      rw [visitIn_of_schema hschema, schemaJob_of_error hr]
      exact hgeneration
    | ok text =>
      rw [visitIn_of_schema hschema, schemaJob_of_ok hr]
      dsimp only
      -- The target is an output only if all acts have succeeded; else it is not written.
      cases hp : (perform (generationActs settings s) t).1 with
      | error f => rw [perform_append_of_error hp, hgeneration]
      | ok _ =>
        rw [perform_append_of_ok hp, ← hgeneration]
        dsimp only
        cases ht : (perform (targetActs settings path text)
            (perform (generationActs settings s) t).2.1).1 with
        | error f => rw [perform_targetActs_of_error ht]
        | ok _ =>
          have htext : (visitIn settings t path).text? = some text :=
            text?_eq_some_iff.mpr ⟨s, hschema, hr, perform_append_eq_ok_iff.mpr ⟨hp, ht⟩⟩
          refine find?_perform fun a ha e hput => ?_
          rw [home_perform] at hput
          obtain ⟨hwrite, hq⟩ := put?_of_mem_targetActs ha hput
          exact h _ (mem_outputs_iff.mpr (.inr ⟨hwrite, text, htext, rfl⟩)) hq

/-- The entry at a place behind some outputs: the last text that goes there, if one does. -/
def entryAfter (outputs : List (List String × String)) (q : List String)
    (entry : Option Entry) : Option Entry :=
  outputs.foldl (fun entry o => if q = o.1 then some (.file (o.2 ++ "\n").toUTF8) else entry) entry

theorem entryAfter_append (os os' : List (List String × String)) (q : List String)
    (entry : Option Entry) :
    entryAfter (os ++ os') q entry = entryAfter os' q (entryAfter os q entry) :=
  List.foldl_append

theorem entryAfter_of_forall_ne {os : List (List String × String)} (h : ∀ o ∈ os, q ≠ o.1)
    (entry : Option Entry) : entryAfter os q entry = entry := by
  induction os generalizing entry with
  | nil => rfl
  | cons o rest ih =>
    have hrest := fun o' ho' => h o' (List.mem_cons_of_mem o ho')
    rw [entryAfter, List.foldl_cons, if_neg (h o List.mem_cons_self)]
    exact ih hrest entry

theorem foldl_generationActs (s : Schema Document) {home : List String} (hq : q ≠ dumpRoot home)
    (entry : Option Entry) :
    (generationActs settings s).foldl (Act.entryAt home q) entry =
      entryAfter (if settings.dump then [((dumpPath s).placeFrom home, s.dumpText true)] else [])
        q entry := by
  rw [generationActs, dumpActs]
  by_cases hd : settings.dump = true
  · simp [hd, Act.entryAt, Act.put?, placeFrom_dumpDirectory, hq, entryAfter]
  · simp [hd, Act.entryAt, Act.put?, entryAfter]

theorem foldl_targetActs (text : String) (home : List String) (entry : Option Entry) :
    (targetActs settings path text).foldl (Act.entryAt home q) entry =
      entryAfter (if settings.write then [((targetOf path).placeFrom home, text)] else [])
        q entry := by
  rw [targetActs]
  by_cases hw : settings.write = true
  · simp [hw, Act.entryAt, Act.put?, entryAfter]
  · simp [hw, entryAfter]

/-- The acts of a schema do not fail behind which a run goes on. -/
theorem perform_of_halt? {s : Schema Document}
    (hs : (visitIn settings t path).schema? = some s)
    (h : (visitIn settings t path).halt? = none) :
    (perform (schemaJob settings path s).acts t).1 = .ok () := by
  rw [visitIn_of_schema hs, Visit.halt?] at h
  cases hp : (perform (schemaJob settings path s).acts t).1 with
  | ok _ => rfl
  | error f =>
    have hfiles := isOfFiles_of_perform hp
    rw [hp] at h
    cases f with
    | file | unnameable => cases h
    | error | undecodable | beyondLimit | noEngine => cases hfiles

/-- A file behind which the run goes on leaves its outputs, and else changes nothing but the
directory of dumps. -/
theorem find?_left_eq (hq : q ≠ dumpRoot t.home) (h : (visitIn settings t path).halt? = none) :
    (visitIn settings t path).left.find? q =
      entryAfter ((visitIn settings t path).outputs settings) q (t.find? q) := by
  cases hschema : (visitIn settings t path).schema? with
  | none =>
    obtain ⟨htext, hleft⟩ := visit_of_noSchema hschema
    rw [hleft, Visit.outputs, hschema, htext]
    simp [entryAfter]
  | some s =>
    have hok := perform_of_halt? hschema h
    have hleft : (visitIn settings t path).left.find? q =
        (schemaJob settings path s).acts.foldl (Act.entryAt t.home q) (t.find? q) := by
      rw [visitIn_of_schema hschema]
      exact find?_perform_of_ok hok q
    rw [hleft, Visit.outputs, hschema, entryAfter_append, found_visitIn, path_visitIn]
    cases hr : (s.generateLoaded settings.engine settings.packaging).result with
    | error e =>
      have htext : (visitIn settings t path).text? = none := by
        refine Option.eq_none_iff_forall_ne_some.mpr fun text htext => ?_
        obtain ⟨s', hs', hr', -⟩ := text?_eq_some_iff.mp htext
        rw [← Option.some.inj (hschema.symm.trans hs'), hr] at hr'
        cases hr'
      rw [schemaJob_of_error hr, htext]
      simp [foldl_generationActs s hq, entryAfter]
    | ok text =>
      rw [schemaJob_of_ok hr] at hok ⊢
      have htext : (visitIn settings t path).text? = some text :=
        text?_eq_some_iff.mpr ⟨s, hschema, hr, hok⟩
      rw [htext, List.foldl_append, foldl_generationActs s hq, foldl_targetActs]
      simp

theorem halt?_of_text? {v : Visit} {text : String} (h : v.text? = some text) : v.halt? = none := by
  rw [Visit.text?] at h
  rw [Visit.halt?]
  split at h
  next hr => rw [hr]
  next => cases h

/-- A file that gives a text is there, and its target lies beside it. -/
theorem placeFrom_targetOf_visit {text : String}
    (h : (visitIn settings t path).text? = some text) :
    (targetOf path).placeFrom t.home = targetAt (path.placeFrom t.home) := by
  obtain ⟨place, content, hplace, hfile⟩ := file_of_text? h
  exact placeFrom_targetOf hplace (by simp [hfile])

/-- No output goes to the place of the directory of dumps. -/
theorem ne_dumpRoot_of_mem_outputs {o : List String × String}
    (ho : o ∈ (visitIn settings t path).outputs settings) : o.1 ≠ dumpRoot t.home := by
  rcases mem_outputs_iff.mp ho with ⟨-, s, -, rfl⟩ | ⟨-, text, htext, rfl⟩
  · simp [placeFrom_dumpPath]
  · dsimp only
    rw [found_visitIn, path_visitIn, placeFrom_targetOf_visit htext]
    exact targetAt_ne_dumpRoot _ _

/-- A file whose generation succeeds leaves all its outputs. -/
theorem find?_left_of_mem {text : String} (htext : (visitIn settings t path).text? = some text)
    {o : List String × String} (ho : o ∈ (visitIn settings t path).outputs settings) :
    (visitIn settings t path).left.find? o.1 = some (.file (o.2 ++ "\n").toUTF8) := by
  rw [find?_left_eq (ne_dumpRoot_of_mem_outputs ho) (halt?_of_text? htext)]
  obtain ⟨s, hschema, -⟩ := text?_eq_some_iff.mp htext
  rw [mem_outputs_iff, hschema, htext] at ho
  rw [Visit.outputs, hschema, htext, entryAfter_append]
  rcases ho with ⟨hdump, s', hs', rfl⟩ | ⟨hwrite, text', htext', rfl⟩
  · obtain rfl : s = s' := Option.some.inj hs'
    have hne : (dumpPath s).placeFrom t.home ≠ (targetOf path).placeFrom t.home := by
      rw [placeFrom_targetOf_visit htext]
      exact (targetAt_ne_dumpPath _ _ s).symm
    by_cases hw : settings.write = true <;> simp [hdump, hw, entryAfter, hne]
  · obtain rfl : text = text' := Option.some.inj htext'
    simp [hwrite, entryAfter]

end ApiTypes.Batch
