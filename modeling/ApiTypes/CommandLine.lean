import ApiTypes.Context
import ApiTypes.Text.Digit

/-! The command line: sources, two options with a choice of values, and three
flags. Long options may be shortened as long as they stay unambiguous, options
may stand before or after the sources, and the sources stand together.

Two forms are read here that the parser came to refuse in later releases: a lone
double dash as the value of an option, as in `--engine=--`, which leaves the option
without a value, and a letter given to a short flag by an equals sign, as in `-v=h`,
which is one more flag. Recorded runs read both, so the rules are those of the releases
before; command lines that later ones accept are read in the same way. -/

namespace ApiTypes.CommandLine

inductive Flag where
  | help
  | write
  | engine
  | packaging
  | verbose
  deriving DecidableEq, Repr

/-- All spellings of the options, in the order in which matches are listed. -/
def spellings : List (String × Flag) :=
  [("-h", .help), ("--help", .help), ("--write", .write), ("--engine", .engine),
    ("--packaging", .packaging), ("-v", .verbose), ("--verbose", .verbose)]

namespace Flag

def takesValue : Flag → Bool
  | engine | packaging => true
  | _ => false

/-- The values that an option may take. -/
def choices : Flag → List String
  | engine => Engine.all.map Engine.text
  | packaging => Packaging.all.map Packaging.text
  | _ => []

/-- All spellings of an option, as messages name it. -/
def title (flag : Flag) : String :=
  "/".intercalate ((spellings.filter fun s => s.2 = flag).map (·.1))

end Flag

/-- Why a command line is refused. -/
inductive UsageError where
  | ambiguous (argument : String) (candidates : List String)
  | missingValue (flag : Flag)
  | unwantedValue (flag : Flag) (value : String)
  | invalidChoice (flag : Flag) (value : String)
  | missingSources
  | unrecognized (arguments : List String)

def UsageError.message : UsageError → String
  | ambiguous argument candidates =>
    s!"ambiguous option: {argument} could match " ++ ", ".intercalate candidates
  | missingValue flag => s!"argument {flag.title}: expected one argument"
  | unwantedValue flag value =>
    s!"argument {flag.title}: ignored explicit argument " ++ (Document.text value).quoted
  | invalidChoice flag value =>
    s!"argument {flag.title}: invalid choice: " ++ (Document.text value).quoted ++
      " (choose from " ++ ", ".intercalate (flag.choices.map fun c => (Document.text c).quoted) ++
      ")"
  | missingSources => "the following arguments are required: sources"
  | unrecognized arguments => "unrecognized arguments: " ++ " ".intercalate arguments

/-- One argument by its role. An option comes with the spelling that was meant and
the value that the argument itself gives it. -/
inductive Word where
  | separator
  | plain (argument : String)
  | option (flag : Flag) (spelling : String) (value : Option String)
  | unknown (argument : String)

def Word.isPlain : Word → Bool
  | plain _ => true
  | _ => false

/-- The argument behind a word that is no option. -/
def Word.argument : Word → String
  | separator => "--"
  | plain argument | unknown argument => argument
  | option _ spelling _ => spelling

def flagOf? (spelling : String) : Option Flag :=
  (spellings.find? fun s => s.1 = spelling).map (·.2)

/-- What stands before and behind the first equals sign, if there is one. -/
def splitValue (argument : List Char) : String × Option String :=
  match argument.dropWhile (· ≠ '=') with
  | [] => (String.ofList argument, none)
  | _ :: value => (String.ofList (argument.takeWhile (· ≠ '=')), some (String.ofList value))

/-- The options that a shortened argument can stand for. One dash and a letter may
be followed by more letters in the same argument. -/
def candidates (argument : List Char) : List (Flag × String × Option String) :=
  match argument with
  | '-' :: '-' :: _ =>
    let (stem, value) := splitValue argument
    spellings.filterMap fun (spelling, flag) =>
      if spelling.startsWith stem then some (flag, spelling, value) else none
  | _ =>
    spellings.filterMap fun (spelling, flag) =>
      if spelling.toList = argument.take 2 then
        some (flag, spelling, some (String.ofList (argument.drop 2)))
      else if spelling.startsWith (String.ofList argument) then some (flag, spelling, none)
      else none

/-- Whether a text is a number: digits, or a point with digits behind it and perhaps
some before. A newline at the end does not matter. -/
def isNumber (cs : List Char) : Bool :=
  let cs := if cs.getLast? = some '\n' then cs.dropLast else cs
  match cs.dropWhile Text.Digit.isDigit with
  | [] => !cs.isEmpty
  | '.' :: fraction => !fraction.isEmpty && fraction.all Text.Digit.isDigit
  | _ => false

/-- A negative number is no option. -/
def isNegativeNumber : List Char → Bool
  | '-' :: cs => isNumber cs
  | _ => false

def classify (argument : String) : Except UsageError Word :=
  let cs := argument.toList
  if cs.head? ≠ some '-' || cs.length = 1 then .ok (.plain argument)
  else
    match flagOf? argument with
    | some flag => .ok (.option flag argument none)
    | none =>
      let (stem, value) := splitValue cs
      match value.bind fun _ => flagOf? stem with
      | some flag => .ok (.option flag stem value)
      | none =>
        match candidates cs with
        | [(flag, spelling, value)] => .ok (.option flag spelling value)
        | [] =>
          .ok (if isNegativeNumber cs || cs.contains ' ' then .plain argument
            else .unknown argument)
        | several => .error (.ambiguous argument (several.map (·.2.1)))

/-- Behind a lone double dash every argument is plain. -/
def classifyAll : List String → Except UsageError (List Word)
  | [] => .ok []
  | "--" :: rest => .ok (.separator :: rest.map .plain)
  | argument :: rest => do return (← classify argument) :: (← classifyAll rest)

/-- The options of a run. A lone double dash given as the value of an option is
dropped and leaves the option without one. -/
structure Options where
  sources : List String := []
  write : Bool := false
  engine : Option Engine := some .deno
  packaging : Option Packaging := none
  verbose : Bool := false
  deriving Repr

/-- What a command line asks for. -/
inductive Request where
  | help
  | run (options : Options)

/-- What has been read so far; the sources are taken once. -/
structure State where
  options : Options := {}
  sources : Option (List String) := none
  extras : List String := []
  help : Bool := false

/-- One of the choices of an option by its text. A lone double dash is dropped, as it is
among the sources, and leaves no choice. -/
def chosen {α : Type} (flag : Flag) (choices : List α) (text : α → String) (value : String) :
    Except UsageError (Option α) :=
  if value = "--" then .ok none
  else
    match choices.find? fun a => text a = value with
    | some a => .ok (some a)
    | none => .error (.invalidChoice flag value)

def setEngine (s : State) (value : String) : Except UsageError State := do
  let engine ← chosen .engine Engine.all Engine.text value
  return { s with options := { s.options with engine } }

def setPackaging (s : State) (value : String) : Except UsageError State := do
  let packaging ← chosen .packaging Packaging.all Packaging.text value
  return { s with options := { s.options with packaging } }

def setFlag (s : State) (flag : Flag) (value : String) : Except UsageError State :=
  match flag with
  | .help => .ok { s with help := true }
  | .write => .ok { s with options := { s.options with write := true } }
  | .verbose => .ok { s with options := { s.options with verbose := true } }
  | .engine => setEngine s value
  | .packaging => setPackaging s value

/-- The flags behind a short flag, in one argument: every letter is one more, and it does
not matter whether an equals sign stands in front of the letters. -/
def shortFlags (flag : Flag) : List Char → Except UsageError (List Flag)
  | [] => .ok [flag]
  | letter :: rest =>
    match flagOf? (String.ofList ['-', letter]) with
    | some next => do return flag :: (← shortFlags next rest)
    | none => .error (.unwantedValue flag (String.ofList (letter :: rest)))

/-- Takes an option whose argument carries a value. -/
def takeValue (s : State) (flag : Flag) (spelling value : String) : Except UsageError State :=
  if flag.takesValue then setFlag s flag value
  else if spelling.startsWith "--" || value = "" then .error (.unwantedValue flag value)
  else do
    let flags ← shortFlags flag value.toList
    flags.foldlM (fun s flag => setFlag s flag "") s

/-- Takes a run of words that are no options: as the sources, if none were taken yet
and the run has a plain word, and else as left over. The first separator among
sources is dropped. -/
def takeRun (s : State) (run : List Word) : State :=
  if s.sources.isNone && run.any Word.isPlain then
    { s with sources := some ((run.map Word.argument).erase "--") }
  else { s with extras := s.extras ++ run.map Word.argument }

/-- Reads words from left to right, behind a run of words that are no options. A
request for help ends the reading. -/
def readWords (s : State) (run : List Word) : List Word → Except UsageError State
  | [] => .ok (takeRun s run)
  | .unknown argument :: rest =>
    let s := takeRun s run
    readWords { s with extras := s.extras ++ [argument] } [] rest
  | .option flag spelling (some value) :: rest => do
    let s ← takeValue (takeRun s run) flag spelling value
    if s.help then return s
    readWords s [] rest
  | .option flag _ none :: rest =>
    let s := takeRun s run
    if flag.takesValue then
      match rest with
      | .plain value :: rest => do readWords (← setFlag s flag value) [] rest
      | _ => .error (.missingValue flag)
    else do
      let s ← setFlag s flag ""
      if s.help then return s
      readWords s [] rest
  | word :: rest => readWords s (run ++ [word]) rest

/-- What the arguments ask for. -/
def parse (arguments : List String) : Except UsageError Request := do
  let s ← readWords {} [] (← classifyAll arguments)
  if s.help then return .help
  match s.sources with
  | none => .error .missingSources
  | some sources =>
    if !s.extras.isEmpty then .error (.unrecognized s.extras)
    return .run { s.options with sources }

end ApiTypes.CommandLine
