import ApiTypes.Batch
import Mathlib.Data.List.Basic

/-! What a run does about one of its files. The file is read once, and its document decides on
a job: a list of acts, which log, make a directory or write a text, and a result for the case
that all of them succeed. The job hangs on the settings, the path and the document, and on
nothing else of the world. So a file changes the tree and the log, and leaves what was printed
and reported before it. -/

namespace ApiTypes.Batch

open Files

variable {ε α β : Type}

/-! ### Running steps -/

/-- The result of a step and the world that it leaves. -/
def exec (op : Step ε α) (w : World) : Except ε α × World :=
  op.run w

@[simp] theorem exec_pure (a : α) (w : World) : exec (pure a : Step ε α) w = (.ok a, w) := rfl

@[simp] theorem exec_throw (e : ε) (w : World) :
    exec (throw e : Step ε α) w = (.error e, w) := rfl

@[simp] theorem exec_get (w : World) : exec (get : Step ε World) w = (.ok w, w) := rfl

@[simp] theorem exec_set (w w' : World) : exec (set w' : Step ε Unit) w = (.ok (), w') := rfl

@[simp] theorem exec_print (text : String) (w : World) :
    exec (print text : Step ε Unit) w = (.ok (), { w with out := w.out ++ text }) := rfl

@[simp] theorem exec_complain (text : String) (w : World) :
    exec (complain text : Step ε Unit) w = (.ok (), { w with err := w.err ++ text }) := rfl

theorem exec_bind (op : Step ε α) (f : α → Step ε β) (w : World) :
    exec (op >>= f) w =
      match exec op w with
      | (.ok a, w') => exec (f a) w'
      | (.error e, w') => (.error e, w') := by
  have hbind : ∀ x : StateM World (Except ε α), ∀ g : Except ε α → StateM World (Except ε β),
      (x >>= g) w = g (x w).1 (x w).2 := fun _ _ => rfl
  rw [exec, ExceptT.run_bind, hbind, exec]
  rcases op.run w with ⟨_ | _, w'⟩ <;> rfl

theorem exec_bind_of_ok {op : Step ε α} {w w' : World} {a : α} (h : exec op w = (.ok a, w'))
    (f : α → Step ε β) : exec (op >>= f) w = exec (f a) w' := by
  rw [exec_bind, h]

theorem exec_tryCatch (op : Step ε α) (handle : ε → Step ε α) (w : World) :
    exec (tryCatch op handle) w =
      match exec op w with
      | (.ok a, w') => (.ok a, w')
      | (.error e, w') => exec (handle e) w' := by
  have hbind : ∀ x : StateM World (Except ε α), ∀ g : Except ε α → StateM World (Except ε α),
      (x >>= g) w = g (x w).1 (x w).2 := fun _ _ => rfl
  rw [exec, ExceptT.run_tryCatch, hbind, exec]
  rcases op.run w with ⟨_ | _, w'⟩ <;> rfl

theorem exec_change (f : Tree → Except FileError Tree) (w : World) :
    exec (change f) w =
      match f w.tree with
      | .ok tree => (.ok (), { w with tree })
      | .error e => (.error (.file e), w) := by
  rw [change, exec_bind_of_ok (exec_get w)]
  cases f w.tree <;> rfl

theorem exec_withFile (path : Path) (op : Step Failure α) (w : World) :
    exec (generateFile.withFile path op) w =
      ((exec op w).1.mapError (Failure.inFile path), (exec op w).2) := by
  rw [generateFile.withFile, exec_tryCatch]
  rcases exec op w with ⟨_ | _, w'⟩ <;> rfl

/-! ### Acts -/

/-- What a job may do to the world. -/
inductive Act where
  | say (text : String)
  | makeDirectory (path : Path)
  | write (path : Path) (text : String)

namespace Act

def step : Act → Step Failure Unit
  | say text => complain text
  | makeDirectory path => change fun t => t.makeDirectory path
  | write path text => writeText path text

/-- The tree after an act, if that succeeds. -/
def change? : Act → Tree → Except Failure Tree
  | say _, t => .ok t
  | makeDirectory path, t => (t.makeDirectory path).mapError .file
  | write path text, t =>
    if path.isUnnameable then .error (.unnameable path)
    else (t.write path (text ++ "\n")).mapError .file

/-- What an act adds to the log. -/
def said : Act → String
  | say text => text
  | _ => ""

end Act

theorem exec_act (a : Act) (w : World) :
    exec a.step w =
      match a.change? w.tree with
      | .ok tree => (.ok (), { w with tree, err := w.err ++ a.said })
      | .error f => (.error f, w) := by
  cases a with
  | say text => rfl
  | makeDirectory path =>
    rw [Act.step, exec_change, Act.change?]
    cases w.tree.makeDirectory path with
    | error e => rfl
    | ok tree => simp [Except.mapError, Act.said]
  | write path text =>
    rw [Act.step, writeText, Act.change?]
    by_cases h : path.isUnnameable = true
    · rw [if_pos h, if_pos h]
      rfl
    · rw [if_neg h, if_neg h]
      show exec (change _) w = _
      rw [exec_change]
      cases w.tree.write path (text ++ "\n") with
      | error e => rfl
      | ok tree => simp [Except.mapError, Act.said]

/-- The files and the log after some acts, up to the first one that fails. -/
def perform : List Act → Tree → Except Failure Unit × Tree × String
  | [], t => (.ok (), t, "")
  | a :: rest, t =>
    match a.change? t with
    | .error f => (.error f, t, "")
    | .ok t' => ((perform rest t').1, (perform rest t').2.1, a.said ++ (perform rest t').2.2)

theorem exec_acts (acts : List Act) (w : World) :
    exec (acts.forM Act.step) w =
      ((perform acts w.tree).1,
        { w with
          tree := (perform acts w.tree).2.1
          err := w.err ++ (perform acts w.tree).2.2 }) := by
  induction acts generalizing w with
  | nil => simp [perform, List.forM]
  | cons a rest ih =>
    show exec (a.step >>= fun _ => rest.forM Act.step) w = _
    rw [exec_bind, exec_act, perform]
    cases a.change? w.tree with
    | error f => simp
    | ok t' =>
      refine (ih _).trans ?_
      simp [String.append_assoc]

/-- Whether a failure is one of the files, and none of the generation. -/
def isOfFiles : Failure → Bool
  | .file _ | .unnameable _ => true
  | _ => false

theorem inFile_of_isOfFiles {f : Failure} (h : isOfFiles f = true) (path : Path) :
    f.inFile path = f := by
  cases f with
  | file e => rfl
  | unnameable q => rfl
  | error | undecodable | beyondLimit | noEngine => cases h

/-- Acts fail as files do. -/
theorem isOfFiles_of_change? {a : Act} {t : Tree} {f : Failure} (h : a.change? t = .error f) :
    isOfFiles f = true := by
  have hfile : ∀ r : Except FileError Tree, r.mapError Failure.file = .error f →
      isOfFiles f = true := by
    intro r hr
    cases r with
    | error e => rw [← Except.error.inj hr]; rfl
    | ok t' => cases hr
  cases a with
  | say text => cases h
  | makeDirectory p => exact hfile _ h
  | write p text =>
    rw [Act.change?] at h
    split at h
    next => rw [← Except.error.inj h]; rfl
    next => exact hfile _ h

theorem isOfFiles_of_perform {acts : List Act} {t : Tree} {f : Failure}
    (h : (perform acts t).1 = .error f) : isOfFiles f = true := by
  induction acts generalizing t with
  | nil => cases h
  | cons a rest ih =>
    rw [perform] at h
    cases ha : a.change? t with
    | error f' =>
      rw [ha] at h
      rw [← Except.error.inj h]
      exact isOfFiles_of_change? ha
    | ok t' =>
      rw [ha] at h
      exact ih h

/-! ### The job of a document -/

/-- What is done about a document, and what comes of it if that succeeds. -/
structure Job where
  acts : List Act
  result : Except Failure (Option String)

/-- The lines of the events that are logged. -/
def logOf (settings : Settings) (events : List Event) : String :=
  String.join ((events.filter settings.logs).map Event.line)

theorem logOf_eq_empty {settings : Settings} {events : List Event}
    (hquiet : settings.verbose = false) (h : ∀ e ∈ events, e.level ≠ .warning) :
    logOf settings events = "" := by
  have hnone : events.filter settings.logs = [] :=
    List.filter_eq_nil_iff.mpr fun e he => by simp [Settings.logs, hquiet, h e he]
  rw [logOf, hnone]
  rfl

/-- The acts that dump a schema. -/
def dumpActs (settings : Settings) (s : Schema Document) : List Act :=
  if settings.dump then
    [.makeDirectory dumpDirectory, .write (dumpPath s) (s.dumpText true),
      .say (logOf settings [.dumped (dumpPath s).text])]
  else []

/-- The acts of the generation of a loaded schema. -/
def generationActs (settings : Settings) (s : Schema Document) : List Act :=
  .say (logOf settings [s.loaded]) :: (dumpActs settings s ++
    [.say (logOf settings (s.generateLoaded settings.engine settings.packaging).events)])

/-- The acts that write a module. -/
def targetActs (settings : Settings) (path : Path) (text : String) : List Act :=
  if settings.write then
    [.write (targetOf path) text, .say (logOf settings [.wrote (targetOf path).text])]
  else []

/-- The job of a schema. -/
def schemaJob (settings : Settings) (path : Path) (s : Schema Document) : Job :=
  let acts := generationActs settings s
  match (s.generateLoaded settings.engine settings.packaging).result with
  | .error e => { acts, result := .error ((Failure.error e).inFile path) }
  | .ok text => { acts := acts ++ targetActs settings path text, result := .ok (some text) }

/-- The job of a document, which hangs on no more than the document itself. -/
def jobOf (settings : Settings) (path : Path) (doc : Document) : Job :=
  if Schema.isSchema doc then
    match Schema.ofDocument? doc with
    | .error e => { acts := [], result := .error ((Failure.error e).inFile path) }
    | .ok s => schemaJob settings path s
  else { acts := [.say (logOf settings [.skipped path.text])], result := .ok none }

/-- The document in the content of a file, or why there is none. -/
def documentOf (path : Path) : Option ByteArray → Except Failure Document
  | none => .error (.file (.notFound path))
  | some content =>
    match String.fromUTF8? content with
    | none => .error (.undecodable path)
    | some text =>
      match Document.Reader.document (String.ofList (normalizeLines text.toList)) with
      | .ok doc => .ok doc
      | .error e =>
        if e.cause.isSyntax then .error (.error (.ofCause (.invalidJson e) (some {})))
        else .error (.beyondLimit path e)

/-- The document in the file at a path. -/
def documentIn (t : Tree) (path : Path) : Except Failure Document :=
  documentOf path (t.read? path)

theorem exec_readDocument (path : Path) (w : World) :
    exec (readDocument path) w = (documentIn w.tree path, w) := by
  rw [documentIn, readDocument, exec_bind_of_ok (exec_get w)]
  cases w.tree.read? path with
  | none => rfl
  | some content =>
    rw [documentOf]
    dsimp only
    cases String.fromUTF8? content with
    | none => rfl
    | some text =>
      dsimp only
      cases Document.Reader.document (String.ofList (normalizeLines text.toList)) with
      | ok doc => rfl
      | error e => by_cases h : e.cause.isSyntax = true <;> simp [h]

/-- Does all acts of a job, and answers its result. -/
def Job.run (job : Job) : Step Failure (Option String) := do
  job.acts.forM Act.step
  match job.result with
  | .ok a => return a
  | .error f => throw f

theorem exec_acts_append (acts more : List Act) (w : World) :
    exec ((acts ++ more).forM Act.step) w =
      exec (acts.forM Act.step >>= fun _ => more.forM Act.step) w := by
  induction acts generalizing w with
  | nil => rfl
  | cons a rest ih =>
    show exec (a.step >>= fun _ => (rest ++ more).forM Act.step) w =
      exec ((a.step >>= fun _ => rest.forM Act.step) >>= fun _ => more.forM Act.step) w
    rw [bind_assoc, exec_bind, exec_bind]
    rcases exec a.step w with ⟨_ | _, w'⟩
    · rfl
    · exact ih w'

theorem exec_generateDocument (settings : Settings) {doc : Document} {s : Schema Document}
    (h : Schema.ofDocument? doc = .ok s) (w : World) :
    exec (generateDocument settings doc) w =
      exec ((generationActs settings s).forM Act.step >>= fun _ =>
        ofExcept (s.generateLoaded settings.engine settings.packaging).result) w := by
  rw [generateDocument, h, generationActs, dumpActs]
  by_cases hd : settings.dump = true
  · simp only [hd, if_true, List.cons_append, List.nil_append, List.forM_eq_forM, List.forM_cons,
      List.forM_nil, bind_assoc, pure_bind]
    show exec (note settings [s.loaded] >>= fun _ => writeDump settings s >>= fun _ => _) w = _
    rw [writeDump]
    simp only [bind_assoc]
    rfl
  · simp only [hd, List.forM_eq_forM, List.forM_cons, bind_assoc]
    rfl

/-- A schema is generated, and its module is written where that is wanted. -/
theorem exec_schemaJob (settings : Settings) (path : Path) {doc : Document} {s : Schema Document}
    (h : Schema.ofDocument? doc = .ok s) (w : World) :
    exec (schemaJob settings path s).run w =
      exec (generateFile.withFile path (generateDocument settings doc) >>= fun text => do
        (targetActs settings path text).forM Act.step
        return some text) w := by
  rw [exec_bind, exec_withFile, exec_generateDocument settings h, exec_bind, exec_acts, schemaJob]
  cases hr : (s.generateLoaded settings.engine settings.packaging).result with
  | error e =>
    dsimp only
    rw [Job.run, exec_bind, exec_acts]
    rcases hp : perform (generationActs settings s) w.tree with ⟨f | _, t, log⟩
    · have hf := inFile_of_isOfFiles (isOfFiles_of_perform (congrArg Prod.fst hp)) path
      simp only [Except.mapError, hf]
    · rfl
  | ok text =>
    dsimp only
    rw [Job.run, exec_bind, exec_acts_append, exec_bind, exec_acts]
    rcases hp : perform (generationActs settings s) w.tree with ⟨f | _, t, log⟩
    · have hf := inFile_of_isOfFiles (isOfFiles_of_perform (congrArg Prod.fst hp)) path
      simp only [Except.mapError, hf]
    · exact (exec_bind ..).symm

/-- A file is read once, and its document decides on what is done about it. -/
theorem exec_generateFile (settings : Settings) (path : Path) (w : World) :
    exec (generateFile settings path) w =
      match documentIn w.tree path with
      | .error f => (.error (f.inFile path), w)
      | .ok doc => exec (jobOf settings path doc).run w := by
  rw [generateFile, exec_bind, exec_withFile, exec_readDocument]
  cases documentIn w.tree path with
  | error f => rfl
  | ok doc =>
    by_cases hs : Schema.isSchema doc = true
    · simp only [Except.mapError, jobOf, hs, if_true, Bool.not_true, Bool.false_eq_true, if_false]
      cases h : Schema.ofDocument? doc with
      | error e =>
        rw [exec_bind, exec_withFile, generateDocument, h]
        rfl
      | ok s =>
        rw [exec_schemaJob settings path h]
        congr 2
        funext text
        rw [targetActs]
        split
        next =>
          simp only [List.forM_eq_forM, List.forM_cons, List.forM_nil, bind_assoc, pure_bind]
          rfl
        next => rfl
    · simp only [Except.mapError, jobOf, hs]
      rfl

/-! ### A file taken alone -/

/-- A file that a run visits: what came of it, what was logged about it, and the files before
and after. -/
structure Visit where
  path : Path
  result : Except Failure (Option String)
  log : String
  found : Tree
  left : Tree

/-- What happens to a file in a tree. -/
def visitIn (settings : Settings) (t : Tree) (path : Path) : Visit :=
  let (result, w) := exec (generateFile settings path) { tree := t }
  { path, result, log := w.err, found := t, left := w.tree }

theorem exec_run (job : Job) (w : World) :
    exec job.run w =
      (do (perform job.acts w.tree).1; job.result,
        { w with
          tree := (perform job.acts w.tree).2.1
          err := w.err ++ (perform job.acts w.tree).2.2 }) := by
  rw [Job.run, exec_bind, exec_acts]
  rcases perform job.acts w.tree with ⟨_ | _, t, log⟩
  · rfl
  · cases job.result <;> rfl

/-- A file changes the tree and the log, and hangs on the tree alone. -/
theorem exec_generateFile_eq (settings : Settings) (path : Path) (w : World) :
    exec (generateFile settings path) w =
      ((visitIn settings w.tree path).result,
        { w with
          tree := (visitIn settings w.tree path).left
          err := w.err ++ (visitIn settings w.tree path).log }) := by
  rw [visitIn, exec_generateFile, exec_generateFile]
  cases documentIn w.tree path with
  | error f => simp
  | ok doc => simp [exec_run]

end ApiTypes.Batch
