import Acpi.Proofs.Namespace.Descent
import Acpi.Proofs.Raw.Ascent

namespace Acpi.Namespace

variable {ns : Namespace} {id p c : ObjectId} {o : Object} {f : Object → Object}

def putRaw (ns : Namespace) (id : ObjectId) (f : Object → Object) : Except Halt Namespace := do
  let _ ← demand (ns.get? id)
  return ns.update id f

def obstacleRaw (ns : Namespace) (steps : Nat) (parent child : ObjectId) :
    Except Halt (Option AttachError) :=
  match ns.get? parent with
  | none => .ok (some .unknownObject)
  | some p =>
    if !p.isContainer then .ok (some .notAContainer)
    else if child = .root then .ok (some .rootNotMovable)
    else
      match ns.get? child with
      | none => .ok (some .unknownObject)
      | some c =>
        if c.parent.isSome then .ok (some .alreadyAttached)
        else do
          let met ← ns.meetsRaw steps parent child
          return if met then some .wouldCycle else none

def linkRaw (ns : Namespace) (parent child : ObjectId) : Except Halt Namespace := do
  let up ← ns.putRaw child (·.withParent (some parent))
  up.putRaw parent (·.addChild child)

/-- Attaches an object, and tells its path and that of its parent. -/
def attachRaw (ns : Namespace) (steps : Nat) (parent child : ObjectId) :
    Except Halt (Except AttachError (Namespace × Path × Path)) := do
  match ← ns.obstacleRaw steps parent child with
  | some e => return .error e
  | none =>
    let attached ← ns.linkRaw parent child
    let childPath ← attached.pathRaw steps child
    let parentPath ← attached.pathRaw steps parent
    return .ok (attached, childPath, parentPath)

def detachRaw (ns : Namespace) (parent child : ObjectId) : Except Halt (Option Namespace) :=
  match ns.get? parent with
  | none => .ok none
  | some container =>
    match container.children.idxOf? child with
    | none => .ok none
    | some pos => do
      let _ ← demand container.children[pos]?
      let rest := container.children.eraseIdx pos
      let alone ← (ns.update parent fun o => { o with children := rest }).putRaw child
        (·.withParent none)
      return some alone

theorem putRaw_eq (h : ns.contains id = true) (f : Object → Object) :
    ns.putRaw id f = .ok (ns.update id f) := by
  obtain ⟨o, ho⟩ := get?_of_contains h
  rw [putRaw, demand_get? ho]
  rfl

theorem linkRaw_eq (hp : ns.contains p = true) (hc : ns.contains c = true) :
    ns.linkRaw p c = .ok (ns.link p c) := by
  rw [linkRaw, putRaw_eq hc]
  exact putRaw_eq (contains_update.trans hp) _

theorem Climbs.yields_obstacleRaw (k : ns.Climbs) (steps : Nat) (p c : ObjectId) :
    Yields ns.size steps (ns.obstacleRaw steps p c) (ns.obstacle? p c) := by
  rw [obstacleRaw, obstacle?]
  cases ns.get? p with
  | none => exact .ok _ _ (some AttachError.unknownObject)
  | some po =>
    apply Yields.ite (.ok _ _ (some AttachError.notAContainer))
    apply Yields.ite (.ok _ _ (some AttachError.rootNotMovable))
    cases ns.get? c with
    | none => exact .ok _ _ (some AttachError.unknownObject)
    | some co =>
      apply Yields.ite (.ok _ _ (some AttachError.alreadyAttached))
      have hmet := k.yields_meetsRaw steps p c
      simpa using hmet.map fun met => if met then some AttachError.wouldCycle else none

/-- To attach takes nothing for granted that is not there, and all its ways up end, those of the new
tree as well. -/
theorem Grounded.yields_attachRaw (g : ns.Grounded) (steps : Nat) (p c : ObjectId) :
    Yields ns.size steps (ns.attachRaw steps p c)
      ((ns.attach p c).map fun attached => (attached, attached.pathTo c, attached.pathTo p)) := by
  refine (g.climbs.yields_obstacleRaw steps p c).bind ?_
  cases hobs : ns.obstacle? p c with
  | some e =>
    have hattach : ns.attach p c = .error e := by rw [Namespace.attach, hobs]
    rw [hattach]
    exact .ok _ _ (Except.error e)
  | none =>
    obtain ⟨⟨k, hk, -⟩, -, hc, -⟩ := obstacle?_eq_none.1 hobs
    have hp := contains_of_kind? hk
    have hlinked : (ns.link p c).Climbs := (g.link hobs).climbs
    have hattach : ns.attach p c = .ok (ns.link p c) := attach_eq_ok.2 ⟨hobs, rfl⟩
    rw [hattach, ← ns.size_link p c]
    refine Yields.bind (.inl (linkRaw_eq hp hc)) ?_
    refine (hlinked.yields_pathRaw steps c).bind ?_
    refine (hlinked.yields_pathRaw steps p).bind ?_
    exact .ok _ _ _

theorem Grounded.detachRaw_eq (g : ns.Grounded) (p c : ObjectId) :
    ns.detachRaw p c = .ok (ns.detach? p c) := by
  rw [detachRaw, detach?]
  cases hp : ns.get? p with
  | none => simp [children, hp]
  | some container =>
    have hchildren : ns.children p = container.children := children_of_get? hp
    rw [hchildren]
    cases hpos : container.children.idxOf? c with
    | none =>
      rw [if_neg (List.idxOf?_eq_none_iff.1 hpos)]
      simp [hpos]
    | some pos =>
      obtain ⟨hlt, -⟩ := List.idxOf?_eq_some_iff.1 hpos
      have hmem : c ∈ container.children := by
        rw [← List.isSome_idxOf?, hpos]
        rfl
      have herase : container.children.erase c = container.children.eraseIdx pos := by
        rw [List.erase_eq_eraseIdx, hpos]
      have hdrop : (ns.update p fun o => { o with children := container.children.eraseIdx pos }) =
          ns.update p (·.dropChild c) := by
        apply update_congr hp
        rw [Object.dropChild, herase]
      have hc : (ns.update p (·.dropChild c)).contains c = true := by
        rw [contains_update]
        exact g.contains_child (hchildren ▸ hmem)
      have hput : (ns.update p fun o =>
            { o with children := container.children.eraseIdx pos }).putRaw c (·.withParent none) =
          .ok (ns.unlink p c) := by
        rw [hdrop]
        exact putRaw_eq hc _
      rw [if_pos hmem]
      simp only [hpos, List.getElem?_eq_getElem hlt, hput]
      rfl

end Acpi.Namespace
