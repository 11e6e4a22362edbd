import Acpi.Binding.Role
import Acpi.Namespace.Preorder

namespace Acpi.Namespace

/-- The terms an object holds that are in the arena and hang nowhere. -/
def looseTerms (ns : Namespace) (id : ObjectId) : List ObjectId :=
  (ns.terms id).filter fun t => (ns.get? t).any fun o => o.parent.isNone

/-- What visits to some objects can cost in all: one step each, and one for every loose term they
put on the stack. -/
def outlay (ns : Namespace) : List ObjectId → Nat
  | [] => 0
  | id :: rest => (ns.looseTerms id).length + 1 + ns.outlay rest

theorem outlay_erase (ns : Namespace) {ids : List ObjectId} {id : ObjectId} (h : id ∈ ids) :
    ns.outlay (ids.erase id) + (ns.looseTerms id).length + 1 = ns.outlay ids := by
  induction ids with
  | nil => cases h
  | cons other rest ih =>
    by_cases he : other = id
    · subst he
      rw [List.erase_cons_head]
      simp only [outlay]
      omega
    · have hm : id ∈ rest := by simpa [Ne.symm he] using h
      have := ih hm
      rw [List.erase_cons_tail (by simpa using he)]
      simp only [outlay]
      omega

/-- Visits the stacked objects, each followed by its loose terms. An object is visited only while
it is among `fresh`, the ones not met so far. Gives the visits and what is fresh after them. -/
def visitTerms (ns : Namespace) (stack fresh : List ObjectId) : List ObjectId × List ObjectId :=
  match stack with
  | [] => ([], fresh)
  | id :: rest =>
    if _h : id ∈ fresh then
      let (visits, fresh) := ns.visitTerms (ns.looseTerms id ++ rest) (fresh.erase id)
      (id :: visits, fresh)
    else ns.visitTerms rest fresh
  termination_by ns.outlay fresh + stack.length
  decreasing_by
    · have := ns.outlay_erase _h
      simp only [List.length_append, List.length_cons]
      omega
    · simp only [List.length_cons]
      omega

def hasReferences (ns : Namespace) (id : ObjectId) : Bool := (ns.get? id).any Object.hasReferences

/-- The scope for an object of the tree and for the terms below it. -/
def treeScope (ns : Namespace) (id : ObjectId) : ObjectId := (ns.parent? id).getD id

/-- The objects to bind, each with its scope, along a walk. -/
def pendingAlong (ns : Namespace) (fresh : List ObjectId) :
    List ObjectId → List (ObjectId × ObjectId)
  | [] => []
  | id :: rest =>
    let (visits, fresh) := ns.visitTerms [id] fresh
    (visits.filter ns.hasReferences).map (·, ns.treeScope id) ++ ns.pendingAlong fresh rest

/-- The objects to bind, each with its scope; nothing if the walk from the root has no end. -/
def pending? (ns : Namespace) : Option (List (ObjectId × ObjectId)) :=
  (ns.subtree? .root).map (ns.pendingAlong ns.ids)

end Acpi.Namespace
