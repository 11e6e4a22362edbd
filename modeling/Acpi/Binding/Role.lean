import Acpi.Object.Basic

namespace Acpi

/-- A place where an object refers to another by name. -/
inductive Role
  | fieldRegion
  | indexRegister
  | dataRegister
  | bankRegion
  | bankRegister
  | connection
  | target
  | callee
  deriving DecidableEq

namespace Role

def text : Role → String
  | .fieldRegion => "field region"
  | .indexRegister => "index register"
  | .dataRegister => "data register"
  | .bankRegion => "bank field region"
  | .bankRegister => "bank register field"
  | .connection => "connection"
  | .target => "symbol"
  | .callee => "method"

/-- The kind of object that may stand there; a connection or a target may be of any kind. -/
def required? : Role → Option Kind
  | .fieldRegion | .bankRegion => some .region
  | .indexRegister | .dataRegister | .bankRegister => some .fieldUnit
  | .callee => some .method
  | .connection | .target => none

end Role

namespace Body

/-- The names to look up, in the order they are looked up. -/
def references : Body → List (Role × String)
  | .field f => [(.fieldRegion, f.region.name)]
  | .indexField f =>
    [(.indexRegister, f.indexRegister.name), (.dataRegister, f.dataRegister.name)]
  | .bankField f => [(.bankRegion, f.region.name), (.bankRegister, f.bankRegister.name)]
  | .fieldUnit u => u.connectionName.toList.map fun name => (.connection, name)
  | .reference target => [(.target, target.name)]
  | .invocation callee _ => [(.callee, callee.name)]
  | _ => []

/-- There are names to look up. -/
def hasReferences : Body → Bool
  | .field _ | .indexField _ | .bankField _ | .reference _ | .invocation _ _ => true
  | .fieldUnit u => u.connectionName.isSome
  | _ => false

/-- The object linked at a place. -/
def linked? : Body → Role → Option ObjectId
  | .field f, .fieldRegion => f.region.target
  | .indexField f, .indexRegister => f.indexRegister.target
  | .indexField f, .dataRegister => f.dataRegister.target
  | .bankField f, .bankRegion => f.region.target
  | .bankField f, .bankRegister => f.bankRegister.target
  | .fieldUnit u, .connection => u.connection
  | .reference target, .target => target.target
  | .invocation callee _, .callee => callee.target
  | _, _ => none

/-- Links an object at a place; a body without that place stays as it is. -/
def link (b : Body) (role : Role) (id : ObjectId) : Body :=
  match b, role with
  | .field f, .fieldRegion => .field { f with region := f.region.bindTo id }
  | .indexField f, .indexRegister =>
    .indexField { f with indexRegister := f.indexRegister.bindTo id }
  | .indexField f, .dataRegister =>
    .indexField { f with dataRegister := f.dataRegister.bindTo id }
  | .bankField f, .bankRegion => .bankField { f with region := f.region.bindTo id }
  | .bankField f, .bankRegister =>
    .bankField { f with bankRegister := f.bankRegister.bindTo id }
  | .fieldUnit u, .connection => .fieldUnit { u with connection := some id }
  | .reference target, .target => .reference (target.bindTo id)
  | .invocation callee operands, .callee => .invocation (callee.bindTo id) operands
  | b, _ => b

def linkAll (b : Body) (links : List (Role × ObjectId)) : Body :=
  links.foldl (fun b l => b.link l.1 l.2) b

theorem hasReferences_iff {b : Body} : b.hasReferences = true ↔ b.references ≠ [] := by
  cases b with
  | fieldUnit u => cases h : u.connectionName <;> simp [hasReferences, references, h]
  | _ => simp [hasReferences, references]

@[simp] theorem kind_link (b : Body) (role : Role) (id : ObjectId) :
    (b.link role id).kind = b.kind := by
  cases b <;> cases role <;> rfl

@[simp] theorem references_link (b : Body) (role : Role) (id : ObjectId) :
    (b.link role id).references = b.references := by
  cases b <;> cases role <;> rfl

@[simp] theorem terms_link (b : Body) (role : Role) (id : ObjectId) :
    (b.link role id).terms = b.terms := by
  cases b <;> cases role <;> rfl

end Body

def Object.hasReferences (o : Object) : Bool := o.body.hasReferences

end Acpi
