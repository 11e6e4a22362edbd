import Acpi.Proofs.Binding.Unbound
import Acpi.Proofs.Raw.Lookup
import Acpi.Proofs.Raw.Tree

namespace Acpi.Namespace

variable {ns ns' : Namespace} {id scope : ObjectId}

def targetRaw (ns : Namespace) (steps : Nat) (scope subject : ObjectId) (role : Role)
    (symbol : String) : Except Halt (Except Fault ObjectId) := do
  match ← ns.lookupRaw steps scope symbol with
  | none => return .error ⟨role, symbol, subject, .unresolved⟩
  | some found =>
    match role.required? with
    | none => return .ok found
    | some expected =>
      let o ← demand (ns.get? found)
      return if o.kind = expected then .ok found
        else .error ⟨role, symbol, subject, .kindMismatch expected o.kind⟩

def targetsRaw (ns : Namespace) (steps : Nat) (scope subject : ObjectId) :
    List (Role × String) → Except Halt (Except Fault (List (Role × ObjectId)))
  | [] => .ok (.ok [])
  | (role, symbol) :: rest => do
    match ← ns.targetRaw steps scope subject role symbol with
    | .error fault => return .error fault
    | .ok found =>
      match ← ns.targetsRaw steps scope subject rest with
      | .error fault => return .error fault
      | .ok others => return .ok ((role, found) :: others)

def bindInRaw (ns : Namespace) (steps : Nat) (scope id : ObjectId) :
    Except Halt (Except Complaint Namespace) :=
  match ns.get? id with
  | none => .ok (.ok ns)
  | some o => do
    match ← ns.targetsRaw steps scope id o.body.references with
    | .ok links =>
      let bound ← ns.putRaw id fun o => { o with body := o.body.linkAll links }
      return .ok bound
    | .error fault =>
      let path ← ns.pathRaw steps (if o.parent.isSome then id else scope)
      return .error ⟨o.kind, path, fault⟩

def bindRaw (ns : Namespace) (steps : Nat) (id : ObjectId) :
    Except Halt (Except Complaint Namespace) := do
  let scope ← ns.scopeRaw steps id
  ns.bindInRaw steps scope id

/-- Binds objects in turn, with the same steps for each. -/
def bindEachRaw (ns : Namespace) (steps : Nat) :
    List (ObjectId × ObjectId) → Except Halt (Except Complaint Unit × Namespace)
  | [] => .ok (.ok (), ns)
  | (id, scope) :: rest => do
    match ← ns.bindInRaw steps scope id with
    | .ok bound => bound.bindEachRaw steps rest
    | .error c => return (.error c, ns)

namespace Grounded

theorem yields_targetRaw (g : ns.Grounded) (steps : Nat) (scope subject : ObjectId) (role : Role)
    (symbol : String) :
    Yields ns.size steps (ns.targetRaw steps scope subject role symbol)
      (ns.target scope subject role symbol) := by
  refine (g.yields_lookupRaw steps scope symbol).bind ?_
  rw [target]
  cases hfound : ns.lookup? scope symbol with
  | none => exact .ok _ _ (Except.error _)
  | some found =>
    obtain ⟨o, ho⟩ := get?_of_contains (g.contains_of_lookup? hfound)
    dsimp only
    rw [kind?_of_get? ho]
    cases role.required? with
    | none => exact .ok _ _ (Except.ok found)
    | some expected =>
      refine Yields.bind (.inl (demand_get? ho)) ?_
      exact .ok _ _ (if o.kind = expected then Except.ok found else Except.error _)

theorem yields_targetsRaw (g : ns.Grounded) (steps : Nat) (scope subject : ObjectId)
    (refs : List (Role × String)) :
    Yields ns.size steps (ns.targetsRaw steps scope subject refs)
      (ns.targets scope subject refs) := by
  induction refs with
  | nil => exact .ok _ _ (Except.ok [])
  | cons r rest ih =>
    obtain ⟨role, symbol⟩ := r
    rw [targets]
    refine (g.yields_targetRaw steps scope subject role symbol).bind ?_
    cases ns.target scope subject role symbol with
    | error fault => exact .ok _ _ (Except.error fault)
    | ok found =>
      refine ih.bind ?_
      cases ns.targets scope subject rest with
      | error fault => exact .ok _ _ (Except.error fault)
      | ok others => exact .ok _ _ (Except.ok ((role, found) :: others))

theorem yields_bindInRaw (g : ns.Grounded) (steps : Nat) (scope id : ObjectId) :
    Yields ns.size steps (ns.bindInRaw steps scope id) (ns.bindIn scope id) := by
  rw [bindInRaw, bindIn]
  cases ho : ns.get? id with
  | none => exact .ok _ _ (Except.ok ns)
  | some o =>
    refine (g.yields_targetsRaw steps scope id o.body.references).bind ?_
    dsimp only
    cases ns.targets scope id o.body.references with
    | ok links =>
      refine Yields.bind (.inl (putRaw_eq (contains_of_get? ho) _)) ?_
      exact .ok _ _ (Except.ok (ns.setLinks id links))
    | error fault =>
      have hcomplaint : ns.complaint scope id o fault =
          ⟨o.kind, ns.pathTo (if o.parent.isSome then id else scope), fault⟩ := by
        rw [complaint]
        split_ifs <;> rfl
      dsimp only
      rw [hcomplaint]
      refine (g.climbs.yields_pathRaw steps _).bind ?_
      exact .ok _ _ (Except.error _)

/-- To bind an object takes nothing for granted that is not there. -/
theorem yields_bindRaw (g : ns.Grounded) (steps : Nat) (id : ObjectId) :
    Yields ns.size steps (ns.bindRaw steps id) (ns.bind id) :=
  (ns.yields_scopeRaw steps id).bind (g.yields_bindInRaw steps (ns.scopeOf id) id)

theorem yields_bindEachRaw (g : ns.Grounded) (steps : Nat) (pending : List (ObjectId × ObjectId)) :
    Yields ns.size steps (ns.bindEachRaw steps pending) (ns.bindEach pending) := by
  induction pending generalizing ns with
  | nil => exact .ok _ _ (Except.ok (), ns)
  | cons p rest ih =>
    obtain ⟨id, scope⟩ := p
    rw [bindEachRaw, bindEach]
    refine (g.yields_bindInRaw steps scope id).bind ?_
    cases hb : ns.bindIn scope id with
    | error c => exact .ok _ _ (Except.error c, ns)
    | ok bound =>
      have hu : bound.unbound = ns.unbound := unbound_bindIn hb
      have hsize : bound.size = ns.size := eq_of_unbound size_unbound hu
      rw [← hsize]
      exact ih (g.of_unbound hu)

end Grounded

end Acpi.Namespace
