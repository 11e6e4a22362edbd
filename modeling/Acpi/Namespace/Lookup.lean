import Acpi.Name.Path.Reader
import Acpi.Namespace.Ancestry

namespace Acpi.Namespace

/-- The scope that an anchor written in `scope` stands for. -/
def anchored? (ns : Namespace) (scope : ObjectId) : Anchor → Option ObjectId
  | .relative => if ns.contains scope then some scope else none
  | .root => some .root
  | .parent 0 => none
  | .parent (levels + 1) => (ns.ancestors scope)[levels]?

/-- Goes down one child per segment. -/
def follow? (ns : Namespace) (start : ObjectId) : List NameSeg → Option ObjectId
  | [] => some start
  | seg :: rest => (ns.child? start seg).bind fun c => ns.follow? c rest

/-- The nearest scope, from `scope` up, with a child of that name decides. -/
def search? (ns : Namespace) (scope : ObjectId) (name : NameSeg) : Option ObjectId :=
  (ns.lineage scope).findSome? fun s => ns.child? s name

/-- The object that a path names. -/
def lookupPath? (ns : Namespace) (scope : ObjectId) (path : Path) : Option ObjectId :=
  match path.bareName? with
  | some name => ns.search? scope name
  | none => (ns.anchored? scope path.anchor).bind fun start => ns.follow? start path.segments

/-- The object that a written name means in `scope`. -/
def lookup? (ns : Namespace) (scope : ObjectId) (text : String) : Option ObjectId :=
  match Path.ofText text with
  | .ok path => ns.lookupPath? scope path
  | .error _ => none

/-- The container and the name for a new object at a path. All but the last segment have to lead
somewhere; the last one need not. -/
def placePath? (ns : Namespace) (scope : ObjectId) (path : Path) :
    Option (ObjectId × NameSeg) := do
  let name ← path.segments.getLast?
  let start ← ns.anchored? scope path.anchor
  let parent ← ns.follow? start path.segments.dropLast
  let container ← ns.get? parent
  if container.isContainer then some (parent, name) else none

/-- The container and the name for a new object under a written name. -/
def place? (ns : Namespace) (scope : ObjectId) (text : String) : Option (ObjectId × NameSeg) :=
  match Path.ofText text with
  | .ok path => ns.placePath? scope path
  | .error _ => none

end Acpi.Namespace
