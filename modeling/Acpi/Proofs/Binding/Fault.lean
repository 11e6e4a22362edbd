import Acpi.Proofs.Binding.Pass
import Acpi.Proofs.Binding.Pending

namespace Acpi.Namespace

variable {ns ns' : Namespace} {id scope subject : ObjectId} {o : Object} {fault : Fault}
  {c : Complaint} {pending before : List (ObjectId × ObjectId)}

/-- A name means an object that may stand in the role. -/
def Suits (ns : Namespace) (scope : ObjectId) (role : Role) (symbol : String) : Prop :=
  ∃ found k, ns.lookup? scope symbol = some found ∧ ns.kind? found = some k ∧ role.Admits k

/-- What is wrong with a name in a role. -/
inductive Misses (ns : Namespace) (scope : ObjectId) (role : Role) (symbol : String) :
    FaultCause → Prop
  | unresolved (h : ns.lookup? scope symbol = none) : Misses ns scope role symbol .unresolved
  | kindMismatch {found : ObjectId} {expected kind : Kind}
    (h : ns.lookup? scope symbol = some found) (hr : role.Requires expected)
    (hk : ns.kind? found = some kind) (hne : kind ≠ expected) :
    Misses ns scope role symbol (.kindMismatch expected kind)

/-- `FirstFault ns scope subject refs fault`: the names of `refs` suit up to one that misses, and
that is the fault of `subject`. -/
inductive FirstFault (ns : Namespace) (scope subject : ObjectId) :
    List (Role × String) → Fault → Prop
  | here {role : Role} {symbol : String} {rest : List (Role × String)} {cause : FaultCause}
    (h : ns.Misses scope role symbol cause) :
    FirstFault ns scope subject ((role, symbol) :: rest) ⟨role, symbol, subject, cause⟩
  | later {role : Role} {symbol : String} {rest : List (Role × String)} {fault : Fault}
    (h : ns.Suits scope role symbol) (hf : FirstFault ns scope subject rest fault) :
    FirstFault ns scope subject ((role, symbol) :: rest) fault

/-- The object has a name that misses. -/
def Faulty (ns : Namespace) (scope id : ObjectId) : Prop :=
  ∃ o fault, ns.get? id = some o ∧ ns.FirstFault scope id o.body.references fault

/-- A pass that stopped at `id` because of `fault`: what was pending before has no fault and is
linked as it is named, and all else is as it was. -/
structure StopsAt (ns : Namespace) (before : List (ObjectId × ObjectId)) (scope id : ObjectId)
    (o : Object) (fault : Fault) (ns' : Namespace) : Prop where
  done : ∀ p ∈ before, ¬ns.Faulty p.2 p.1 ∧ ns.LinkedAsNamed ns' p.2 p.1
  get? : ns.get? id = some o
  firstFault : ns.FirstFault scope id o.body.references fault
  get?_other : ∀ other, other ∉ before.map Prod.fst → ns'.get? other = ns.get? other
  unbound : ns'.unbound = ns.unbound

theorem target_eq_error_iff {role : Role} {symbol : String} :
    ns.target scope subject role symbol = .error fault ↔
      ∃ cause, ns.Misses scope role symbol cause ∧ fault = ⟨role, symbol, subject, cause⟩ := by
  rw [target]
  constructor
  · intro h
    split at h
    next hl =>
      cases h
      exact ⟨_, .unresolved hl, rfl⟩
    next found hl =>
      split at h
      next expected kind hr hk =>
        split at h
        · cases h
        next hne =>
          cases h
          exact ⟨_, .kindMismatch hl (Role.requires_iff.2 hr) hk hne, rfl⟩
      · cases h
  · rintro ⟨cause, hm, rfl⟩
    cases hm with
    | unresolved hl => simp [hl]
    | kindMismatch hl hr hk hne => simp [hl, Role.requires_iff.1 hr, hk, hne]

theorem WellFormed.exists_target_iff (w : ns.WellFormed) {role : Role} {symbol : String} :
    (∃ found, ns.target scope subject role symbol = .ok found) ↔ ns.Suits scope role symbol := by
  constructor
  · rintro ⟨found, hf⟩
    obtain ⟨k, hk, ha⟩ := w.admits_of_target hf
    exact ⟨found, k, (lookup?_of_target hf).1, hk, ha⟩
  · rintro ⟨found, k, hl, hk, ha⟩
    refine ⟨found, ?_⟩
    cases hr : role.required? with
    | none => simp [target, hl, hr]
    | some expected =>
      have he : k = expected := (Role.admits_iff hr).1 ha
      simp [target, hl, hr, hk, he]

theorem WellFormed.targets_eq_error_iff (w : ns.WellFormed) {refs : List (Role × String)} :
    ns.targets scope subject refs = .error fault ↔ ns.FirstFault scope subject refs fault := by
  induction refs with
  | nil =>
    constructor
    · intro h
      cases h
    · intro h
      cases h
  | cons r rest ih =>
    obtain ⟨role, symbol⟩ := r
    rw [targets]
    constructor
    · intro h
      split at h
      next first ht =>
        cases h
        obtain ⟨cause, hm, rfl⟩ := target_eq_error_iff.1 ht
        exact .here hm
      next found hf =>
        have hs := w.exists_target_iff.1 ⟨found, hf⟩
        split at h
        next later hl =>
          cases h
          exact .later hs (ih.1 hl)
        · cases h
    · intro h
      cases h with
      | here hm =>
        rw [target_eq_error_iff.2 ⟨_, hm, rfl⟩]
      | later hs hf =>
        obtain ⟨found, ht⟩ := w.exists_target_iff.2 hs
        rw [ht, ih.2 hf]

theorem exists_of_bindIn_error (h : ns.bindIn scope id = .error c) :
    ∃ o fault, ns.get? id = some o ∧ ns.targets scope id o.body.references = .error fault ∧
      c = ns.complaint scope id o fault := by
  simp only [bindIn] at h
  split at h
  · cases h
  next o ho =>
    split at h
    · cases h
    next fault hf =>
      cases h
      exact ⟨o, fault, ho, hf, rfl⟩

theorem exists_of_bindEach_error (h : ns.bindEach pending = (.error c, ns')) :
    ∃ before id scope after, pending = before ++ (id, scope) :: after ∧
      ns.bindEach before = (.ok (), ns') ∧ ns'.bindIn scope id = .error c := by
  induction pending generalizing ns with
  | nil => cases h
  | cons p rest ih =>
    obtain ⟨id, scope⟩ := p
    rw [bindEach] at h
    split at h
    next bound hb =>
      obtain ⟨before, later, other, after, rfl, hbefore, he⟩ := ih h
      refine ⟨(id, scope) :: before, later, other, after, rfl, ?_, he⟩
      rw [bindEach, hb]
      exact hbefore
    next first he =>
      cases h
      exact ⟨[], id, scope, rest, rfl, rfl, he⟩

theorem WellFormed.not_faulty_of_bindEach (w : ns.WellFormed)
    (h : ns.bindEach pending = (.ok (), ns')) (hn : (pending.map Prod.fst).Nodup)
    (hm : (id, scope) ∈ pending) : ¬ns.Faulty scope id := by
  rintro ⟨o, fault, ho, hf⟩
  obtain ⟨links, hl, -⟩ := get?_of_bindEach h hn hm ho
  rw [w.targets_eq_error_iff.2 hf] at hl
  cases hl

/-- A complaint reads no links, so it is the one that would have been made before the pass. -/
theorem complaint_bindEach (h : ns.bindEach pending = (.ok (), ns')) :
    ns'.complaint = ns.complaint := by
  have hu := unbound_of_bindEach h
  funext scope id o fault
  rw [complaint, eq_of_unbound pathTo_unbound hu, complaint]

theorem WellFormed.linkedAsNamed_of_pending (w : ns.WellFormed)
    (hp : ns.pending? = some pending) (hsub : before.Sublist pending)
    (h : ns.bindEach before = (.ok (), ns')) (hm : (id, scope) ∈ before) :
    ns.LinkedAsNamed ns' scope id := by
  have hn : (before.map Prod.fst).Nodup := (nodup_of_pending? hp).sublist (hsub.map _)
  obtain ⟨o, ho, href⟩ := exists_of_mem_pending hp (List.mem_map.2 ⟨_, hsub.subset hm, rfl⟩)
  exact w.linkedAsNamed_of_bindEach h hn hm ho href

theorem not_mem_of_nodup_append {p : ObjectId × ObjectId} {after : List (ObjectId × ObjectId)}
    (hn : ((before ++ after).map Prod.fst).Nodup) (hp : p ∈ after) :
    p.1 ∉ before.map Prod.fst := by
  intro hin
  rw [List.map_append, List.nodup_append] at hn
  exact hn.2.2 p.1 hin p.1 (List.mem_map.2 ⟨p, hp, rfl⟩) rfl

/-- The object at which a pass stops had its fault from the start, and is the first one pending
that has a fault. -/
theorem WellFormed.stopsAt_of_bindEach (w : ns.WellFormed) (hp : ns.pending? = some pending)
    (h : ns.bindEach pending = (.error c, ns')) :
    ∃ before id scope after o fault, pending = before ++ (id, scope) :: after ∧
      ns.StopsAt before scope id o fault ns' ∧ c = ns.complaint scope id o fault := by
  obtain ⟨before, id, scope, after, rfl, hb, he⟩ := exists_of_bindEach_error h
  obtain ⟨o, fault, ho, hf, rfl⟩ := exists_of_bindIn_error he
  have hn := nodup_of_pending? hp
  have hsub := List.sublist_append_left before ((id, scope) :: after)
  have hu := unbound_of_bindEach hb
  have hother : ∀ other, other ∉ before.map Prod.fst → ns'.get? other = ns.get? other :=
    fun other hout => get?_of_bindEach_other hb hout
  rw [hother id (not_mem_of_nodup_append hn List.mem_cons_self)] at ho
  rw [eq_of_unbound targets_unbound hu, w.targets_eq_error_iff] at hf
  refine ⟨before, id, scope, after, o, fault, rfl, ⟨?_, ho, hf, hother, hu⟩, ?_⟩
  · intro p hm
    exact ⟨w.not_faulty_of_bindEach hb (hn.sublist (hsub.map _)) hm,
      w.linkedAsNamed_of_pending hp hsub hb hm⟩
  · rw [complaint_bindEach hb]

end Acpi.Namespace
