import ApiTypes.Error.Defect
import ApiTypes.Error.Diagnostic

/-! Everything that can stop a generation: a diagnostic of the schema, a defect
in the use of a module, or a misfit, which is a value that stands where only a
value of another type can be used. -/

namespace ApiTypes

/-- A value used for what its type does not offer: fields, trimming or replacing
as a text, iteration, service as a key, joining or matching as a text, order; or a
position that a list does not have. -/
inductive Misfit where
  | fields (value : Document)
  | editing (value : Document)
  | iteration (value : Document)
  | key (value : Document)
  | joining (value : Document)
  | order (left right : Document)
  | position (index : Int)

inductive Error where
  | diagnostic (d : Diagnostic)
  | defect (d : Defect)
  | misfit (m : Misfit)

namespace Error

def ofCause (cause : Cause) (location : Option Location := none) : Error :=
  diagnostic { cause, location }

def ofDefect (cause : Defect.Cause) : Error :=
  defect { cause }

end Error

/-- The text of a diagnostic, which exists if its location can be written. -/
def Diagnostic.formatted (d : Diagnostic) (color : Bool) : Except Error String :=
  match d.location.bind Location.unwritable? with
  | some part => .error (.misfit (.joining part))
  | none => .ok (d.format color)

/-- The diagnostic behind an error that is to be reported; no other error has a form
in a report. -/
def Error.toReport : Error → Except Error Diagnostic
  | diagnostic d => .ok d
  | defect d => .error (.misfit (.fields (.text d.text)))
  | misfit m => .error (.misfit m)

end ApiTypes
