import ApiTypes.Document.Printer
import ApiTypes.Name.Usage

/-! What a generation notes while it runs, with the level, the source and the
text under which each event is logged. -/

namespace ApiTypes

inductive Level where
  | debug
  | info
  | warning
  deriving DecidableEq, Repr

def Level.text : Level → String
  | debug => "DEBUG"
  | info => "INFO"
  | warning => "WARNING"

inductive Event where
  | loaded (apiVersion : String) (definitions dependencies : Nat)
  | rendering (path apiVersion : String) (definitions : Nat)
  | renamed (usage : Usage) (identifier spelling : Document)
  | assembled (path : String) (members imports names : Nat)
  | unversioned (package : Document)
  | skipped (path : String)
  | dumped (path : String)
  | wrote (path : String)

namespace Event

def level : Event → Level
  | unversioned _ => .warning
  | wrote _ => .info
  | _ => .debug

def source : Event → String
  | loaded .. => "kuregen.frontend.loader"
  | rendering .. | skipped _ | dumped _ | wrote _ => "kuregen.compiler.driver"
  | renamed .. => "kuregen.codegen.names"
  | assembled .. => "kuregen.codegen.module"
  | unversioned _ => "kuregen.codegen.imports"

def message : Event → String
  | loaded apiVersion definitions dependencies =>
    s!"Loaded {apiVersion}: {definitions} definitions, {dependencies} dependencies"
  | rendering path apiVersion definitions =>
    s!"Rendering {path} for {apiVersion} ({definitions} definitions)"
  | renamed usage identifier spelling =>
    s!"Renamed {usage.text} " ++ identifier.quoted ++ " to " ++ spelling.quoted
  | assembled path members imports names =>
    s!"Module {path}: {members} members, {imports} imports, {names} names"
  | unversioned package =>
    "No dependency version for API package " ++ package.quoted ++ "; importing it unversioned"
  | skipped path => s!"Skipping {path}: not an API group version"
  | dumped path => s!"Dumped schema to {path}"
  | wrote path => s!"Wrote {path}"

/-- The line of the event in a log. -/
def line (e : Event) : String :=
  s!"{e.level.text} {e.source}: {e.message}\n"

end Event

end ApiTypes
