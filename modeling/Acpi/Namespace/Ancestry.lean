import Acpi.Name.Path
import Acpi.Namespace.Basic

namespace Acpi.Namespace

/-- The parents above an object, nearest first, as far as `steps` go. -/
def climb (ns : Namespace) : Nat → ObjectId → List ObjectId
  | 0, _ => []
  | steps + 1, id =>
    match ns.parent? id with
    | none => []
    | some parent => parent :: ns.climb steps parent

/-- All parents above an object. The climb may go one step further than there are objects, so that
a chain without an end would show as one longer than the arena. -/
def ancestors (ns : Namespace) (id : ObjectId) : List ObjectId := ns.climb (ns.size + 1) id

/-- The object and its ancestors. -/
def lineage (ns : Namespace) (id : ObjectId) : List ObjectId := id :: ns.ancestors id

/-- The names from the top down to an object. Objects without a name add nothing, and only what
hangs below the root has an absolute path. -/
def pathTo (ns : Namespace) (id : ObjectId) : Path :=
  let line := ns.lineage id
  let anchor := if .root ∈ line then Anchor.root else .relative
  (Path.ofAnchor anchor).pushAll ((line.filter (· ≠ .root)).filterMap ns.name?).reverse

end Acpi.Namespace
