import Acpi.Binding.Bind
import Acpi.Binding.Pending

namespace Acpi.Namespace

/-- Binds objects in turn, each in its scope. -/
def bindEach (ns : Namespace) : List (ObjectId × ObjectId) → Except Complaint Unit × Namespace
  | [] => (.ok (), ns)
  | (id, scope) :: rest =>
    match ns.bindIn scope id with
    | .ok bound => bound.bindEach rest
    | .error c => (.error c, ns)

/-- Binds all that is pending and tells how many objects that were. -/
def bindAll? (ns : Namespace) : Option (Except Complaint Nat × Namespace) :=
  ns.pending?.map fun pending =>
    let (result, bound) := ns.bindEach pending
    (result.map fun _ => pending.length, bound)

end Acpi.Namespace
