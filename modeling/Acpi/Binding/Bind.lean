import Acpi.Binding.Fault
import Acpi.Namespace.Lookup
import Acpi.Namespace.Scope

namespace Acpi.Namespace

/-- The object for one reference of `subject`, looked up in `scope`. -/
def target (ns : Namespace) (scope subject : ObjectId) (role : Role) (symbol : String) :
    Except Fault ObjectId :=
  match ns.lookup? scope symbol with
  | none => .error ⟨role, symbol, subject, .unresolved⟩
  | some found =>
    match role.required?, ns.kind? found with
    | some expected, some kind =>
      if kind = expected then .ok found
      else .error ⟨role, symbol, subject, .kindMismatch expected kind⟩
    | _, _ => .ok found

/-- The objects for several references; the first bad one counts. -/
def targets (ns : Namespace) (scope subject : ObjectId) :
    List (Role × String) → Except Fault (List (Role × ObjectId))
  | [] => .ok []
  | (role, symbol) :: rest =>
    match ns.target scope subject role symbol with
    | .error fault => .error fault
    | .ok found =>
      match ns.targets scope subject rest with
      | .error fault => .error fault
      | .ok others => .ok ((role, found) :: others)

def setLinks (ns : Namespace) (id : ObjectId) (links : List (Role × ObjectId)) : Namespace :=
  ns.update id fun o => { o with body := o.body.linkAll links }

/-- Terms have no path of their own, so what fails in them is reported at their scope. -/
def complaint (ns : Namespace) (scope id : ObjectId) (o : Object) (fault : Fault) : Complaint :=
  ⟨o.kind, if o.parent.isSome then ns.pathTo id else ns.pathTo scope, fault⟩

/-- Binds an object in a scope. An unknown one has nothing to bind. -/
def bindIn (ns : Namespace) (scope id : ObjectId) : Except Complaint Namespace :=
  match ns.get? id with
  | none => .ok ns
  | some o =>
    match ns.targets scope id o.body.references with
    | .ok links => .ok (ns.setLinks id links)
    | .error fault => .error (ns.complaint scope id o fault)

/-- Binds an object in the scope its names are looked up from. -/
def bind (ns : Namespace) (id : ObjectId) : Except Complaint Namespace :=
  ns.bindIn (ns.scopeOf id) id

end Acpi.Namespace
