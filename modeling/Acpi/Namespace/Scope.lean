import Acpi.Namespace.Basic

namespace Acpi.Namespace

/-- The first object of the arena that holds a term. -/
def holder? (ns : Namespace) (term : ObjectId) : Option ObjectId :=
  (ns.objects.findIdx? fun o => term ∈ o.terms).map .ofIndex

/-- The scope found from holder to holder within so many hops, or else the root. -/
def scopeWithin (ns : Namespace) : Nat → ObjectId → ObjectId
  | 0, _ => .root
  | hops + 1, id =>
    match ns.parent? id with
    | some parent => parent
    | none =>
      match ns.holder? id with
      | some holder => ns.scopeWithin hops holder
      | none => .root

/-- The scope that the names of an object are looked up from. One hop for each object at most, so
terms that hold each other end at the root. -/
def scopeOf (ns : Namespace) (id : ObjectId) : ObjectId := ns.scopeWithin ns.size id

end Acpi.Namespace
