import Acpi.Binding.Role
import Acpi.Name.Path.Printer

namespace Acpi

inductive FaultCause
  /-- Nothing has that name. -/
  | unresolved
  /-- What has that name is of the wrong kind. -/
  | kindMismatch (expected found : Kind)
  deriving DecidableEq

structure Fault where
  role : Role
  symbol : String
  /-- The object that holds the reference. -/
  object : ObjectId
  cause : FaultCause
  deriving DecidableEq

def Fault.message (f : Fault) : String :=
  match f.cause with
  | .unresolved => s!"could not resolve referenced {f.role.text}: {f.symbol}"
  | .kindMismatch expected found =>
    s!"referenced {f.role.text} {f.symbol} is a {found.text}, expected a {expected.text}"

/-- A fault with the kind of its object and the path it is reported under. -/
structure Complaint where
  kind : Kind
  path : Path
  fault : Fault

def Complaint.text (c : Complaint) : String :=
  s!"[{c.kind.text} {c.path.text}] {c.fault.message}"

end Acpi
