import ApiTypes.Proofs.Batch.Job

/-! The course of a run: the files that it visits, one after the other, and what ends it before
its last source, if anything does. Every visit finds the files as the visits before have left
them. What a run prints, logs, reports and answers is read off its course. -/

namespace ApiTypes.Batch

open Files

namespace Visit

/-- The diagnostic that a file failed with. -/
def diagnostic? (v : Visit) : Option Diagnostic :=
  match v.result with
  | .error (.error (.diagnostic d)) => some d
  | _ => none

/-- The text that was generated from a file. -/
def text? (v : Visit) : Option String :=
  match v.result with
  | .ok text => text
  | .error _ => none

/-- What a file adds to the printed output. -/
def printed (settings : Settings) (v : Visit) : String :=
  match v.text? with
  | some text => if settings.write then "" else text ++ "\n"
  | none => ""

end Visit

/-- What ends a run early: a source that is not there, a file that cannot be used, or a failure
that nothing handles. -/
inductive Halt where
  | missing (source : Path)
  | unusable (path : Path) (e : FileError)
  | escaped (f : Failure)

namespace Halt

def stop : Halt → Stop
  | missing _ | unusable .. => .exit 1
  | escaped f => .escaped f

/-- The line that a run says before it ends early. -/
def line : Halt → String
  | missing source => s!"kuregen: error: file not found: {source.text}\n"
  | unusable path e => s!"kuregen: error: could not read {path.text}: {e.message}\n"
  | escaped _ => ""

@[simp] theorem line_missing (source : Path) :
    (missing source).line = s!"kuregen: error: file not found: {source.text}\n" := rfl

@[simp] theorem line_unusable (path : Path) (e : FileError) :
    (unusable path e).line = s!"kuregen: error: could not read {path.text}: {e.message}\n" := rfl

@[simp] theorem line_escaped (f : Failure) : (escaped f).line = "" := rfl

end Halt

/-- What a file ends the run with, unless the run goes on behind it. -/
def Visit.halt? (v : Visit) : Option Halt :=
  match v.result with
  | .ok _ => none
  | .error (.error (.diagnostic _)) => none
  | .error (.file e) => some (.unusable v.path e)
  | .error f => some (.escaped f)

structure Course where
  visits : List Visit := []
  halt? : Option Halt := none
  tree : Tree

namespace Course

/-- One course behind the other, unless the first one ends the run. -/
def andThen (c : Course) (next : Tree → Course) : Course :=
  match c.halt? with
  | some _ => c
  | none => { next c.tree with visits := c.visits ++ (next c.tree).visits }

/-- The courses of some parts in order. -/
def through {α : Type} (course : α → Tree → Course) : List α → Tree → Course
  | [], t => { tree := t }
  | a :: rest, t => (course a t).andThen (through course rest)

def ofFile (settings : Settings) (path : Path) (t : Tree) : Course :=
  let v := visitIn settings t path
  { visits := [v], halt? := v.halt?, tree := v.left }

def ofSource (settings : Settings) (source : Path) (t : Tree) : Course :=
  match t.exists? source with
  | .error e => { halt? := some (.escaped (.file e)), tree := t }
  | .ok false => { halt? := some (.missing source), tree := t }
  | .ok true => through (ofFile settings) (filesOf t source) t

/-- The course over the sources of a run. -/
def ofSources (settings : Settings) : List Path → Tree → Course :=
  through (ofSource settings)

/-- The diagnostics that the files failed with, in the order of the visits. -/
def raised (c : Course) : List Diagnostic :=
  c.visits.filterMap Visit.diagnostic?

def printed (settings : Settings) (c : Course) : String :=
  String.join (c.visits.map (Visit.printed settings))

def log (c : Course) : String :=
  String.join (c.visits.map Visit.log)

/-- What is said behind the log: the line of an early end. -/
def lastLine (c : Course) : String :=
  (c.halt?.map Halt.line).getD ""

/-- The world at the end of the course. -/
def world (settings : Settings) (c : Course) (w : World) : World :=
  { tree := c.tree
    out := w.out ++ c.printed settings
    err := w.err ++ c.log ++ c.lastLine
    reported := w.reported ++ c.raised }

/-- Whether the course went on to its end. -/
def result (c : Course) : Except Stop Unit :=
  match c.halt? with
  | some halt => .error halt.stop
  | none => .ok ()

variable {settings : Settings} {c : Course}

theorem result_of_none (h : c.halt? = none) : c.result = .ok () := by
  rw [result, h]

theorem result_of_some {halt : Halt} (h : c.halt? = some halt) : c.result = .error halt.stop := by
  rw [result, h]

theorem andThen_of_some {halt : Halt} (h : c.halt? = some halt) (next : Tree → Course) :
    c.andThen next = c := by
  rw [andThen, h]

theorem andThen_of_none (h : c.halt? = none) (next : Tree → Course) :
    c.andThen next = { next c.tree with visits := c.visits ++ (next c.tree).visits } := by
  rw [andThen, h]

@[simp] theorem world_empty (halt? : Option Halt) (t : Tree) (w : World) :
    ({ halt?, tree := t } : Course).world settings w =
      { w with tree := t, err := w.err ++ (halt?.map Halt.line).getD "" } := by
  simp [world, printed, log, lastLine, raised]

@[simp] theorem world_single (v : Visit) (halt? : Option Halt) (t : Tree) (w : World) :
    ({ visits := [v], halt?, tree := t } : Course).world settings w =
      { tree := t
        out := w.out ++ v.printed settings
        err := w.err ++ v.log ++ (halt?.map Halt.line).getD ""
        reported := w.reported ++ v.diagnostic?.toList } := by
  cases hd : v.diagnostic? <;> simp [world, printed, log, lastLine, raised, hd]

theorem world_andThen (h : c.halt? = none) (next : Tree → Course) (w : World) :
    (c.andThen next).world settings w = (next c.tree).world settings (c.world settings w) := by
  rw [andThen_of_none h]
  simp [world, printed, log, raised, lastLine, h, String.append_assoc, String.join_append]

end Course

/-! ### Runs follow their course -/

variable (settings : Settings)

/-- A step whose result and world are those of its course. -/
def Takes (op : Step Stop Unit) (course : Tree → Course) : Prop :=
  ∀ w, exec op w = ((course w.tree).result, (course w.tree).world settings w)

variable {settings}

theorem Takes.bind {op op' : Step Stop Unit} {course course' : Tree → Course}
    (h : Takes settings op course) (h' : Takes settings op' course') :
    Takes settings (op >>= fun _ => op') fun t => (course t).andThen course' := by
  intro w
  rw [exec_bind, h w]
  dsimp only
  cases hh : (course w.tree).halt? with
  | some halt =>
    rw [Course.andThen_of_some hh, Course.result_of_some hh]
  | none =>
    rw [Course.world_andThen hh, Course.result_of_none hh, Course.andThen_of_none hh]
    exact h' _

theorem Takes.forM {α : Type} {f : α → Step Stop Unit} {course : α → Tree → Course}
    (h : ∀ a, Takes settings (f a) (course a)) (l : List α) :
    Takes settings (l.forM f) (Course.through course l) := by
  induction l with
  | nil =>
    intro w
    simp [List.forM, Course.through, Course.result]
  | cons a rest ih => exact (h a).bind ih

variable (settings)

theorem takes_visit (path : Path) :
    Takes settings (visit settings path) (Course.ofFile settings path) := by
  intro w
  have hfile : (generateFile settings path).run w = _ := exec_generateFile_eq settings path w
  have hpath : (visitIn settings w.tree path).path = path := rfl
  rw [visit, exec_bind_of_ok (exec_get w), hfile, Course.ofFile]
  generalize visitIn settings w.tree path = v at hpath ⊢
  dsimp only
  rw [exec_bind_of_ok (exec_set ..), Course.world_single]
  obtain ⟨_, result, log, found, left⟩ := v
  subst hpath
  cases result with
  | ok text? =>
    cases text? with
    | none => simp [Course.result, Visit.halt?, Visit.printed, Visit.text?, Visit.diagnostic?]
    | some text =>
      by_cases hw : settings.write = true <;>
        simp [Course.result, Visit.halt?, Visit.printed, Visit.text?, Visit.diagnostic?, hw]
  | error f =>
    cases f with
    | error e =>
      cases e <;>
        simp [Course.result, Visit.halt?, Visit.printed, Visit.text?, Visit.diagnostic?, Halt.stop]
    | file e =>
      simp [exec_bind, Course.result, Visit.halt?, Visit.printed, Visit.text?, Visit.diagnostic?,
        Halt.stop]
    | undecodable | beyondLimit | unnameable | noEngine =>
      simp [Course.result, Visit.halt?, Visit.printed, Visit.text?, Visit.diagnostic?, Halt.stop]

theorem takes_visitSource (source : Path) :
    Takes settings (visitSource settings source) (Course.ofSource settings source) := by
  intro w
  rw [visitSource, exec_bind_of_ok (exec_get w), Course.ofSource]
  cases w.tree.exists? source with
  | error e => simp [Course.result, Halt.stop]
  | ok there =>
    cases there with
    | false => simp [exec_bind, Course.result, Halt.stop]
    | true => exact Takes.forM (takes_visit settings) _ w

theorem takes_sources (sources : List Path) :
    Takes settings (sources.forM (visitSource settings)) (Course.ofSources settings sources) :=
  Takes.forM (takes_visitSource settings) sources

/-- What is said at the end about the diagnostics of a run. -/
def reportOf (env : Environment) (ds : List Diagnostic) : String :=
  if ds.isEmpty then "" else Diagnostic.summarize ds env.colors.color ++ "\n"

theorem exec_report (env : Environment) (w : World) :
    exec (report env) w =
      (.ok (if w.reported.isEmpty then 0 else 1),
        { w with err := w.err ++ reportOf env w.reported }) := by
  rw [report, exec_bind_of_ok (exec_get w), reportOf]
  by_cases h : w.reported.isEmpty = true
  · simp [h]
  · simp only [h, Bool.false_eq_true, if_false, exec_bind, exec_complain, exec_pure]

namespace Course

/-- How a run with the course ends. -/
def ending (c : Course) : Ending :=
  match c.halt? with
  | some (.escaped f) => .escaped f
  | some _ => .exit 1
  | none => .exit (if c.raised.isEmpty then 0 else 1)

/-- What a run says behind its log: the line of an early end, or its report. -/
def closing (env : Environment) (c : Course) : String :=
  match c.halt? with
  | some halt => halt.line
  | none => reportOf env c.raised

end Course

/-- The course of a run that its command line asks for. -/
def courseOf (settings : Settings) (options : CommandLine.Options) (tree : Tree) : Course :=
  .ofSources settings (options.sources.map Path.ofString) tree

/-- A run whose command line is accepted and says what the engine is. -/
structure Accepted (arguments : List String) (env : Environment) (options : CommandLine.Options)
    (settings : Settings) : Prop where
  parsed : CommandLine.parse arguments = .ok (.run options)
  settings : Settings.ofOptions? options env = some settings

/-- A run ends, prints, logs and reports as its course does. -/
theorem run_eq {arguments : List String} {env : Environment} {options : CommandLine.Options}
    {settings : Settings} (h : Accepted arguments env options settings) (tree : Tree) :
    run arguments env tree =
      ((courseOf settings options tree).ending,
        { tree := (courseOf settings options tree).tree
          out := (courseOf settings options tree).printed settings
          err := (courseOf settings options tree).log ++
            (courseOf settings options tree).closing env
          reported := (courseOf settings options tree).raised }) := by
  have hcourse : ∀ w,
      exec ((options.sources.map Path.ofString).forM (visitSource settings)) w = _ :=
    takes_sources settings (options.sources.map Path.ofString)
  have hrun : (runSources options env).run { tree } =
      exec ((options.sources.map Path.ofString).forM (visitSource settings) >>= fun _ =>
        report env) { tree } := by
    rw [runSources, h.settings]
    rfl
  rw [run, h.parsed]
  dsimp only
  rw [hrun, exec_bind, hcourse]
  dsimp only
  rw [courseOf]
  generalize Course.ofSources settings _ tree = c
  cases hh : c.halt? with
  | none =>
    rw [Course.result_of_none hh]
    simp [exec_report, Course.world, Course.ending, Course.closing, Course.lastLine, hh]
  | some halt =>
    rw [Course.result_of_some hh]
    cases halt <;>
      simp [Course.world, Course.ending, Course.closing, Course.lastLine, hh, Halt.stop]

section Run

variable {arguments : List String} {env : Environment} {options : CommandLine.Options}
  {settings : Settings} (h : Accepted arguments env options settings) (tree : Tree)

include h

theorem ending_run :
    (run arguments env tree).1 = (courseOf settings options tree).ending := by
  rw [run_eq h]

theorem tree_run :
    (run arguments env tree).2.tree = (courseOf settings options tree).tree := by
  rw [run_eq h]

theorem out_run :
    (run arguments env tree).2.out = (courseOf settings options tree).printed settings := by
  rw [run_eq h]

theorem err_run :
    (run arguments env tree).2.err =
      (courseOf settings options tree).log ++ (courseOf settings options tree).closing env := by
  rw [run_eq h]

end Run

/-- Without an engine a run ends before it visits anything. -/
theorem run_of_noEngine {arguments : List String} {env : Environment}
    {options : CommandLine.Options} (hp : CommandLine.parse arguments = .ok (.run options))
    (hs : Settings.ofOptions? options env = none) (tree : Tree) :
    run arguments env tree = (.escaped .noEngine, { tree }) := by
  rw [run, hp]
  dsimp only
  have hrun : (runSources options env).run { tree } =
      (.error (.escaped .noEngine), { tree }) := by
    rw [runSources, hs]
    rfl
  rw [hrun]

end ApiTypes.Batch
