import Acpi.Namespace.Ancestry

namespace Acpi

/-- Why an object cannot become a child. -/
inductive AttachError
  | notAContainer
  | alreadyAttached
  | wouldCycle
  | rootNotMovable
  | unknownObject
  deriving DecidableEq

def AttachError.message : AttachError → String
  | .notAContainer => "entity cannot own children"
  | .alreadyAttached => "entity is already attached to a scope"
  | .wouldCycle => "entity is an ancestor of the target scope"
  | .rootNotMovable => "the root scope cannot be attached"
  | .unknownObject => "unknown entity id"

namespace Object

def withParent (o : Object) (parent : Option ObjectId) : Object := { o with parent }

def addChild (o : Object) (child : ObjectId) : Object :=
  { o with children := o.children ++ [child] }

/-- Takes the first mention of a child off the list. -/
def dropChild (o : Object) (child : ObjectId) : Object :=
  { o with children := o.children.erase child }

end Object

namespace Namespace

/-- What stands against making `child` a child of `parent`; the first reason counts. -/
def obstacle? (ns : Namespace) (parent child : ObjectId) : Option AttachError :=
  match ns.get? parent with
  | none => some .unknownObject
  | some p =>
    if !p.isContainer then some .notAContainer
    else if child = .root then some .rootNotMovable
    else
      match ns.get? child with
      | none => some .unknownObject
      | some c =>
        if c.parent.isSome then some .alreadyAttached
        else if child ∈ ns.lineage parent then some .wouldCycle
        else none

def link (ns : Namespace) (parent child : ObjectId) : Namespace :=
  (ns.update child (·.withParent (some parent))).update parent (·.addChild child)

def unlink (ns : Namespace) (parent child : ObjectId) : Namespace :=
  (ns.update parent (·.dropChild child)).update child (·.withParent none)

/-- Makes `child` the last child of `parent`. -/
def attach (ns : Namespace) (parent child : ObjectId) : Except AttachError Namespace :=
  match ns.obstacle? parent child with
  | some e => .error e
  | none => .ok (ns.link parent child)

/-- Puts an object in and attaches it. If that fails the object stays in the arena, alone. -/
def declare (ns : Namespace) (parent : ObjectId) (o : Object) :
    Except AttachError ObjectId × Namespace :=
  let added := ns.insert o
  match added.attach parent ns.nextId with
  | .ok attached => (.ok ns.nextId, attached)
  | .error e => (.error e, added)

/-- Takes `child` off `parent`, unless it is no child of it. -/
def detach? (ns : Namespace) (parent child : ObjectId) : Option Namespace :=
  if child ∈ ns.children parent then some (ns.unlink parent child) else none

end Namespace

end Acpi
